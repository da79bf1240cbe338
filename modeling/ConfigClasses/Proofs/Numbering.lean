import ConfigClasses.Proofs.Development

namespace ConfigClasses

open Eval

namespace Interner

structure Numbers (names : Interner) (seen : List String) : Prop where
  unseen : ∀ x ∉ seen,
    (names.intern x).1 = ⟨names.size⟩ ∧ (names.intern x).2.size = names.size + 1
  seen : ∀ x ∈ seen, (names.intern x).2 = names
  find : ∀ x n, names.find? x = some n ↔ n.raw < names.size ∧ names.text n = x
  intern_text : ∀ n, n.raw < names.size → names.intern (names.text n) = (n, names)
  outside : ∀ n, names.size ≤ n.raw → names.text n = ""
  empty : names.find? "" = some .empty
  mainWord : names.find? "main" = some .mainWord
  later : ∀ x y more, let names' := (names.intern x).2.internAll more
    names'.text (names.intern x).1 = x ∧ ((names'.intern y).1 = (names.intern x).1 ↔ y = x)

section

variable {names names' : Interner} {x y : String} {n : Name}

theorem intern_fst_eq_iff : (names.intern x).1 = n ↔ (names.intern x).2.find? x = some n := by
  rw [find?_intern, Option.some.injEq]

theorem Sound.same_number (h : names.Sound) (hx : names.find? x = some n) :
    (names.intern y).1 = n ↔ y = x := by
  rw [intern_fst_eq_iff]
  constructor
  · intro hy
    have hs := h.intern y
    exact (hs.text_of_find? hy).symm.trans (hs.text_of_find? (names.within_intern y x n hx))
  · rintro rfl
    exact names.within_intern y y n hx

theorem text_of_size_le (h : names.size ≤ n.raw) : names.text n = "" := by
  have hnone : names.texts[n.raw]? = none := Array.getElem?_eq_none h
  simp [text, Array.getD_eq_getD_getElem?, hnone]

end

theorem numbers_internAll (past : List String) :
    (initial.internAll past).Numbers ("" :: "main" :: past) := by
  have hsound := sound_initial.internAll past
  have hseen (x : String) : ((initial.internAll past).find? x).isSome ↔ x ∈ "" :: "main" :: past := by
    have hall : ((blank.internAll ("" :: "main" :: past)).find? x).isSome ↔
        x ∈ "" :: "main" :: past ∨ (blank.find? x).isSome := find?_internAll_isSome
    exact hall.trans (or_iff_left (by simp [blank, find?]))
  constructor
  case unseen =>
    intro x hx
    have hnew : (initial.internAll past).find? x = none := by
      simpa only [← hseen, Option.not_isSome_iff_eq_none] using hx
    exact ⟨by rw [intern_of_new hnew], size_intern_of_new hnew⟩
  case seen =>
    intro x hx
    obtain ⟨n, hn⟩ := Option.isSome_iff_exists.1 ((hseen x).2 hx)
    rw [intern_of_find? hn]
  case find => exact hsound
  case intern_text => exact fun n hn => intern_of_find? (hsound.find?_text hn)
  case outside => exact fun n hn => text_of_size_le hn
  case empty => exact initial.within_internAll past _ _ (by decide +kernel)
  case mainWord => exact initial.within_internAll past _ _ (by decide +kernel)
  case later =>
    intro x y more names'
    have hfind : names'.find? x = some ((initial.internAll past).intern x).1 :=
      within_internAll _ more _ _ (find?_intern _ x)
    have hsound' : names'.Sound := (hsound.intern x).internAll more
    exact ⟨hsound'.text_of_find? hfind, hsound'.same_number hfind⟩

end Interner

theorem exec_intern (t : ClassTable Body)
    (evaluate : ClassId → ScopeId → Option Resource → Eval (Option Output)) (here : ScopeId)
    (tr : Trace) (x : String) :
    Step.exec t evaluate here (.intern x) tr =
      .ok (.name (tr.now.names.intern x).1) (tr.record (.interned x)) := by
  have hfound : (tr.record (.interned x)).now.names.find? x = some (tr.now.names.intern x).1 :=
    tr.now.names.find?_intern x
  have hintern : Eval.intern x tr = .ok (tr.now.names.intern x).1 (tr.record (.interned x)) := by
    change EStateM.Result.ok (((tr.record (.interned x)).now.names.find? x).getD .empty) _ = _
    rw [hfound]
    rfl
  simp only [Step.exec]
  exact bind_of_ok hintern

theorem interners_number_texts :
    (∀ i j : Instant, i.UpTo j → ∀ n, ∃ past later,
        i.interner n = Interner.initial.internAll past ∧
          j.interner n = Interner.initial.internAll (past ++ later)) ∧
      (∀ past, (Interner.initial.internAll past).Numbers ("" :: "main" :: past)) ∧
      ∀ (t : ClassTable Body) (evaluate : ClassId → ScopeId → Option Resource → Eval (Option Output))
        (here : ScopeId) (tr : Trace),
        (∀ x, Step.exec t evaluate here (.intern x) tr =
            .ok (.name (tr.now.names.intern x).1) (tr.record (.interned x))) ∧
          (∀ x, Step.exec t evaluate here (.findName x) tr = .ok (.name (tr.now.names.find? x)) tr) ∧
          (∀ n, Step.exec t evaluate here (.spell (.number n)) tr =
            .ok (.spelling (tr.now.names.text n) n) tr) ∧
          Step.exec t evaluate here .countNames tr =
            .ok (.names tr.now.names.size tr.now.names.IsPristine) tr := by
  refine ⟨fun i j h n => ?_, Interner.numbers_internAll, fun t evaluate here tr => ?_⟩
  · obtain ⟨past, hpast⟩ := i.interner_growsTo n
    obtain ⟨later, hlater⟩ := h.develops.interner n
    refine ⟨past, later, hpast, ?_⟩
    rw [Interner.internAll_append, ← hpast]
    exact hlater
  · exact ⟨exec_intern t evaluate here tr, fun _ => rfl, fun _ => rfl, rfl⟩

def sharedNames : Instant :=
  .upTo
    [.define "base" none (some [.bind .here (.text "port") (.bool true)]), .newTable false,
      .define "::Base" (some "Web") none]
    (.step (.intern "host")) 2

def sharedNamesLater : Instant :=
  .upTo (sharedNames.done ++ [sharedNames.next, .useTable 0])
    (.step (.evaluate (.named "base") .top (.titled (.number ⟨0⟩) (.number ⟨0⟩)))) 9

theorem sharedNames_numbered :
    sharedNames.UpTo sharedNamesLater ∧ (sharedNames.interner 0).size = 5 ∧
      (sharedNamesLater.interner 0).size = 6 ∧
      ∃ past later, sharedNames.interner 0 = Interner.initial.internAll past ∧
        sharedNamesLater.interner 0 = Interner.initial.internAll (past ++ later) ∧
        (sharedNames.interner 0).Numbers ("" :: "main" :: past) ∧
        (sharedNamesLater.interner 0).Numbers ("" :: "main" :: (past ++ later)) := by
  have hupTo : sharedNames.UpTo sharedNamesLater :=
    .inr ⟨by decide +kernel, [.useTable 0], rfl⟩
  obtain ⟨hsessions, hnumbers, -⟩ := interners_number_texts
  obtain ⟨past, later, hpast, hlater⟩ := hsessions _ _ hupTo 0
  refine ⟨hupTo, by decide +kernel, by decide +kernel, past, later, hpast, hlater, ?_, ?_⟩
  · exact hpast ▸ hnumbers past
  · exact hlater ▸ hnumbers (past ++ later)

end ConfigClasses

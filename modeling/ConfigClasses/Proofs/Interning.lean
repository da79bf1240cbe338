import ConfigClasses.Proofs.Ensures
import ConfigClasses.Proofs.SharedEvaluator

namespace ConfigClasses

namespace Interner

def Sound (names : Interner) : Prop :=
  ∀ x n, names.find? x = some n ↔ n.raw < names.size ∧ names.text n = x

def Within (names names' : Interner) : Prop :=
  ∀ x n, names.find? x = some n → names'.find? x = some n

section

variable {names names' : Interner} {x y : String} {n : Name}

theorem sound_blank : blank.Sound := by
  simp [Sound, blank, find?, size]

theorem intern_of_find? (h : names.find? x = some n) : names.intern x = (n, names) := by
  simp [intern, h]

theorem intern_of_new (h : names.find? x = none) :
    names.intern x = (⟨names.size⟩, ⟨names.texts.push x, names.index.insert x ⟨names.size⟩⟩) := by
  simp [intern, h]

theorem find?_intern_of_new (h : names.find? x = none) (y : String) :
    (names.intern x).2.find? y = if y = x then some ⟨names.size⟩ else names.find? y := by
  rw [intern_of_new h]
  simp only [find?, Std.TreeMap.getElem?_insert, Std.LawfulEqCmp.compare_eq_iff_eq]
  simp only [eq_comm]

theorem size_intern_of_new (h : names.find? x = none) : (names.intern x).2.size = names.size + 1 := by
  simp [intern_of_new h, size]

theorem text_intern_of_new (h : names.find? x = none) (n : Name) :
    (names.intern x).2.text n = if n.raw = names.size then x else names.text n := by
  simp only [intern_of_new h, text, size, Array.getD_eq_getD_getElem?, Array.getElem?_push]
  split <;> rfl

theorem Sound.intern (h : names.Sound) (x : String) : (names.intern x).2.Sound := by
  cases hx : names.find? x with
  | some n => rwa [intern_of_find? hx]
  | none =>
    intro y n
    rw [find?_intern_of_new hx, size_intern_of_new hx, text_intern_of_new hx]
    by_cases hn : n.raw = names.size
    · obtain rfl : n = ⟨names.size⟩ := congrArg Name.mk hn
      by_cases hy : y = x
      · simp [hy]
      · have hold := h y ⟨names.size⟩
        have hne : x ≠ y := fun he => hy he.symm
        simpa [hy, hne] using hold
    · have hold := h y n
      by_cases hy : y = x
      · subst hy
        have hne : (⟨names.size⟩ : Name) ≠ n := fun he => hn (congrArg Name.raw he).symm
        simp only [hx, reduceCtorEq, false_iff, not_and] at hold
        simp only [if_true, Option.some.injEq, hne, hn, if_false, false_iff, not_and]
        exact fun hlt => hold (by omega)
      · rw [if_neg hy, hold, if_neg hn]
        exact and_congr_left fun _ => by omega

theorem find?_intern (names : Interner) (x : String) :
    (names.intern x).2.find? x = some (names.intern x).1 := by
  cases hx : names.find? x with
  | some n => simpa [intern_of_find? hx] using hx
  | none =>
    rw [find?_intern_of_new hx, if_pos rfl, intern_of_new hx]

theorem Within.refl (names : Interner) : names.Within names := fun _ _ h => h

theorem Within.trans {names'' : Interner} (h : names.Within names') (h' : names'.Within names'') :
    names.Within names'' :=
  fun x n hx => h' x n (h x n hx)

theorem within_intern (names : Interner) (x : String) : names.Within (names.intern x).2 := by
  intro y n hy
  cases hx : names.find? x with
  | some m => rwa [intern_of_find? hx]
  | none =>
    rw [find?_intern_of_new hx, if_neg, hy]
    rintro rfl
    cases hx.symm.trans hy

theorem sound_initial : initial.Sound := (sound_blank.intern "").intern "main"

theorem Sound.text_of_find? (h : names.Sound) (hx : names.find? x = some n) : names.text n = x :=
  ((h x n).1 hx).2

theorem Sound.lt_size (h : names.Sound) (hx : names.find? x = some n) : n.raw < names.size :=
  ((h x n).1 hx).1

theorem Sound.find?_text (h : names.Sound) (hn : n.raw < names.size) :
    names.find? (names.text n) = some n :=
  (h _ n).2 ⟨hn, rfl⟩

end

def internAll (names : Interner) (texts : List String) : Interner :=
  texts.foldl (fun names x => (names.intern x).2) names

def GrowsTo (names names' : Interner) : Prop := ∃ texts, names' = names.internAll texts

section

variable {names names' names'' : Interner} {texts : List String} {x : String}

theorem internAll_append (names : Interner) (texts more : List String) :
    names.internAll (texts ++ more) = (names.internAll texts).internAll more :=
  List.foldl_append

theorem Sound.internAll (h : names.Sound) (texts : List String) : (names.internAll texts).Sound := by
  induction texts generalizing names with
  | nil => exact h
  | cons x texts ih => exact ih (h.intern x)

theorem within_internAll (names : Interner) (texts : List String) :
    names.Within (names.internAll texts) := by
  induction texts generalizing names with
  | nil => exact .refl names
  | cons x texts ih => exact (names.within_intern x).trans (ih _)

theorem find?_internAll_isSome :
    ((names.internAll texts).find? x).isSome ↔ x ∈ texts ∨ (names.find? x).isSome := by
  induction texts generalizing names with
  | nil => simp [internAll]
  | cons y texts ih =>
    have hfirst : ((names.intern y).2.find? x).isSome ↔ x = y ∨ (names.find? x).isSome := by
      cases hy : names.find? y with
      | some n =>
        rw [intern_of_find? hy]
        exact ⟨.inr, fun h => h.elim (fun h => by simp [h, hy]) id⟩
      | none =>
        rw [find?_intern_of_new hy]
        split <;> simp [*]
    rw [List.mem_cons, or_assoc, or_left_comm, ← hfirst]
    exact ih

theorem GrowsTo.refl (names : Interner) : names.GrowsTo names := ⟨[], rfl⟩

theorem GrowsTo.trans (h : names.GrowsTo names') (h' : names'.GrowsTo names'') :
    names.GrowsTo names'' := by
  obtain ⟨texts, rfl⟩ := h
  obtain ⟨more, rfl⟩ := h'
  exact ⟨texts ++ more, (names.internAll_append texts more).symm⟩

theorem GrowsTo.intern (names : Interner) (x : String) : names.GrowsTo (names.intern x).2 :=
  ⟨[x], rfl⟩

theorem GrowsTo.within (h : names.GrowsTo names') : names.Within names' := by
  obtain ⟨texts, rfl⟩ := h
  exact names.within_internAll texts

theorem size_le_intern (names : Interner) (x : String) : names.size ≤ (names.intern x).2.size := by
  cases hx : names.find? x with
  | some n => rw [intern_of_find? hx]
  | none => exact size_intern_of_new hx ▸ Nat.le_succ _

theorem GrowsTo.size_le (h : names.GrowsTo names') : names.size ≤ names'.size := by
  obtain ⟨texts, rfl⟩ := h
  induction texts generalizing names with
  | nil => exact Nat.le_refl _
  | cons x texts ih => exact Nat.le_trans (names.size_le_intern x) ih

theorem GrowsTo.sound (h : names.GrowsTo names') (hs : names.Sound) : names'.Sound := by
  obtain ⟨texts, rfl⟩ := h
  exact hs.internAll texts

theorem GrowsTo.text (h : names.GrowsTo names') (hs : names.Sound) {n : Name}
    (hn : n.raw < names.size) : names'.text n = names.text n :=
  (h.sound hs).text_of_find? (h.within _ _ (hs.find?_text hn))

end

end Interner

open Eval Interner

theorem Interner.growsTo_internParent (names : Interner) (parent : Option String) :
    names.GrowsTo (ClassTable.internParent names parent).2 := by
  cases parent with
  | none => exact .refl names
  | some parent => exact .intern names _

theorem Interner.growsTo_define {β : Type} (t : ClassTable β) (names : Interner) (name : String)
    (parent : Option String) (body : Option β) :
    names.GrowsTo (t.define names name parent body).2.2 := by
  have hname := GrowsTo.intern names (ClassName.normalize name)
  simp only [ClassTable.define]
  split
  · exact hname
  · exact hname.trans (growsTo_internParent _ parent)

theorem Interner.growsTo_defineFrom (stem : String) (body : Option Body) (left i : Nat)
    (last : Option ClassId) (t : ClassTable Body) (names : Interner) :
    names.GrowsTo (defineFrom stem body left i last t names).2.2 := by
  induction left generalizing i last t names with
  | zero => exact .refl names
  | succ left ih =>
    have hfirst := growsTo_define t names (stem ++ toString i)
      (if i = 0 then none else some (stem ++ toString (i - 1))) body
    simp only [defineFrom]
    split
    · next hdefine =>
      rw [hdefine] at hfirst
      exact hfirst.trans (ih _ _ _ _)
    · next hdefine =>
      rw [hdefine] at hfirst
      exact hfirst

theorem Moment.growsTo_after (m : Moment) (e : Event) : m.names.GrowsTo (m.after e).names := by
  cases e with
  | interned text => exact .intern m.names text
  | _ => exact .refl m.names

theorem Moment.growsTo_replay (m : Moment) (events : List Event) :
    m.names.GrowsTo (m.replay events).names := by
  induction events generalizing m with
  | nil => exact .refl m.names
  | cons e events ih => exact (m.growsTo_after e).trans (ih (m.after e))

theorem start_keeps {P : Trace → Prop} (h : ∀ tr e, P tr → P (tr.record e))
    (t : ClassTable Body) (depth : Nat) {m : Moment} (hm : P ⟨m, []⟩) (step : Step) :
    P (step.start t depth m).2 := by
  have hstep := (keeps_congruence t h).step (ensures_throw _ fun _ hp => hp) depth .top step
  have hkeeps : Keeps P (during .evaluator (step.exec t (t.evaluate (t.runBody depth)) .top)) :=
    hstep.during (fun tr => h tr _) (fun _ tr => h tr _) fun tr => h tr _
  rw [Session.start_trace]
  exact hkeeps.final hm

namespace Session

variable {s : Session}

def Interned (s : Session) : Prop := ∀ names ∈ s.interners, names.Sound

theorem interned_initial : initial.Interned := by
  intro names h
  simp only [initial, List.mem_toArray, List.mem_singleton] at h
  exact h ▸ Interner.sound_initial

theorem Interned.names (h : s.Interned) : s.names.Sound := by
  rw [Session.names, Array.getD_eq_getD_getElem?]
  cases hi : s.interners[s.registry.interner]? with
  | none => exact Interner.sound_initial
  | some names => exact h names (Array.mem_of_getElem? hi)

theorem Interned.withNames (h : s.Interned) {names : Interner} (hn : names.Sound) :
    (s.withNames names).Interned := by
  intro names' h'
  rcases Array.mem_or_eq_of_mem_setIfInBounds h' with h' | rfl
  · exact h _ h'
  · exact hn

theorem Interned.perform (h : s.Interned) (command : Command) : (s.perform command).2.2.Interned := by
  cases command with
  | define name parent body =>
    simp only [Session.perform, declare_session]
    have hgrows := Interner.growsTo_define s.registry.table s.names name parent body
    exact Interned.withNames (s := s.withTable _) h (hgrows.sound h.names)
  | defineChain stem length body =>
    simp only [Session.perform, declare_session]
    have hgrows := Interner.growsTo_defineFrom stem body length 0 none s.registry.table s.names
    exact Interned.withNames (s := s.withTable _) h (hgrows.sound h.names)
  | newTable ownNames =>
    simp only [Session.perform, newTable]
    split
    · intro names hnames
      rcases Array.mem_push.1 hnames with hnames | rfl
      · exact h names hnames
      · exact Interner.sound_initial
    · exact h
  | useTable index | useCompilation index =>
    simp only [Session.perform]
    split <;> exact h
  | newCompilation => exact h
  | step step =>
    have hnames := start_keeps (P := fun tr => tr.now.names.Sound)
      (fun tr e hs => (tr.now.growsTo_after e).sound hs) s.registry.table
      (depthFor s.registry.table) (m := s.moment) h.names step
    exact h.withNames hnames

theorem interned_run (commands : List Command) : (initial.run commands).2.Interned :=
  run_keeps (fun _ command h => h.perform command) interned_initial commands

end Session

end ConfigClasses

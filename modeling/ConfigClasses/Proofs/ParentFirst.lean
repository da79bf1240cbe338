import ConfigClasses.Proofs.Instant
import ConfigClasses.Proofs.Starts

namespace ConfigClasses

/-- What was under way when the innermost call was made. -/
def aroundCall : List Activity → List Activity
  | [] => []
  | .call _ _ _ :: stack => stack
  | _ :: stack => aroundCall stack

theorem suffix_aroundCall {stack outer : List Activity} {c : ClassId} {s : ScopeId}
    (h : (errand stack).isSome) (hsuffix : .body c s :: outer <:+ stack) :
    .body c s :: outer <:+ aroundCall stack := by
  induction stack with
  | nil => simp at hsuffix
  | cons a stack ih =>
    rcases List.suffix_cons_iff.1 hsuffix with heq | hinner
    · -- A body that is innermost is on no errand.
      obtain ⟨rfl, rfl⟩ := List.cons.inj heq
      simp [errand] at h
    · cases a with
      | call d caller r => exact hinner
      | ascent d => exact ih h hinner
      | _ => simp [errand] at h

theorem mem_aroundCall {stack : List Activity} {c : ClassId} {s : ScopeId}
    (h : (errand stack).isSome) (hmem : .body c s ∈ stack) : .body c s ∈ aroundCall stack := by
  obtain ⟨inner, outer, rfl⟩ := List.append_of_mem hmem
  exact (suffix_aroundCall h (List.suffix_append inner _)).subset List.mem_cons_self

/-- The run of `a` that began after `before` has ended in `since`. -/
def HasEnded (a : Activity) (since before : List Event) : Prop :=
  ∃ meanwhile, .closed a :: meanwhile <:+ since ∧
    (Moment.ofJournal (meanwhile ++ .opened a :: before)).stack =
      a :: (Moment.ofJournal before).stack

namespace ClassTable

variable {β : Type} {t : ClassTable β} {tr : Trace}

namespace Chronicle

theorem ended_or_open {Next : ClassTable β → ClassTable β → Prop} (h : Chronicle Next t tr)
    {a : Activity} {since before : List Event} (hj : tr.journal = since ++ .opened a :: before) :
    HasEnded a since before ∨ a :: (Moment.ofJournal before).stack <:+ tr.now.stack := by
  induction h generalizing since with
  | start => simp at hj
  | @record t tr e h he ih =>
    cases since with
    | nil =>
      obtain ⟨rfl, rfl⟩ := List.cons.inj hj
      rw [h.ofJournal.2]
      exact .inr (List.suffix_refl _)
    | cons x since =>
      rw [List.cons_append] at hj
      obtain ⟨rfl, hpast⟩ := List.cons.inj hj
      rcases ih hpast with ⟨meanwhile, hmeanwhile, hstack⟩ | hopen
      · exact .inl ⟨meanwhile, hmeanwhile.trans (List.suffix_cons _ _), hstack⟩
      cases e with
      | opened b => exact .inr (hopen.trans (List.suffix_cons b _))
      | closed b =>
        obtain ⟨stack, hstack⟩ := List.head?_eq_some_iff.1 he.2
        rw [hstack] at hopen
        rcases List.suffix_cons_iff.1 hopen with heq | hopen
        · -- The last run to begin is the first to end.
          obtain ⟨rfl, rfl⟩ := List.cons.inj heq
          refine .inl ⟨since, List.suffix_refl _, ?_⟩
          exact hpast ▸ h.ofJournal.2.trans hstack
        · right
          simpa [Trace.record, Moment.after, hstack] using hopen
      | _ => exact .inr hopen
  | resume h hp ht names ih => exact ih hj

theorem launched_of_isEvaluated (h : Chronicle Extends t tr) (hreset : .reset ∉ tr.journal)
    (hassigned : Unassigned tr.journal) {c : ClassId} (hc : tr.now.compilation.IsEvaluated c) :
    ∃ d, t.decl? c = some d ∧ (d.body.isSome → Launched c tr) := by
  induction h with
  | start => simp at hc
  | @record t tr e h he ih =>
    have hreset' := List.not_mem_of_not_mem_cons hreset
    rcases placed_or_isEvaluated hassigned hc with ⟨s, rfl⟩ | hold
    · obtain ⟨d, hd, -⟩ := h.declared_of_ascends hreset' (.inr he.2.2.1)
      exact ⟨d, hd, fun _ => .inr ⟨s, rfl⟩⟩
    · obtain ⟨d, hd, hlaunched⟩ := ih hreset' hassigned.tail hold
      refine ⟨d, hd, fun hb => (hlaunched hb).record he ?_⟩
      simpa [body?, hd] using hb
  | resume h hp ht names ih =>
    obtain ⟨d, hd, hlaunched⟩ := ih hreset hassigned hc
    exact ⟨d, ht.decl hd, fun hb => .inl (hp.started (hlaunched hb))⟩

theorem parent_of_opened (h : Chronicle Extends t tr) (hreset : .reset ∉ tr.journal)
    (hassigned : Unassigned tr.journal) {c p : ClassId} {s : ScopeId} {past : List Event}
    (hj : tr.journal = .opened (.body c s) :: past) (hp : t.parentOf c = .ok (some p))
    (hb : (t.body? p).isSome) :
    p ∈ started past ∧ ∀ u since before, past = since ++ .opened (.body p u) :: before →
      HasEnded (.body p u) since before ∨
        .body p u :: (Moment.ofJournal before).stack <:+
          aroundCall (Moment.ofJournal past).stack := by
  obtain ⟨tr₁, h₁, rfl, hstart, -⟩ := h.last hj (by simp)
  obtain ⟨older, holder⟩ := List.head?_eq_some_iff.1 hstart.2.2.1
  obtain ⟨tr₀, h₀, rfl, hplace, rfl⟩ := h₁.last holder (by simp)
  obtain ⟨-, hlast, caller, r, outer, herrand, houter, -⟩ := hplace.2
  -- The scope of the class was made inside that of its parent.
  have hevaluated : tr₀.now.compilation.IsEvaluated p := by
    rcases houter with ⟨hnone, -⟩ | ⟨q, hq, hscope⟩
    · cases hnone.symm.trans hp
    · cases hq.symm.trans hp
      exact Compilation.isEvaluated_of_classScope hscope
  have hsuffix : tr₀.journal <:+ tr.journal :=
    hj ▸ (List.suffix_cons _ _).trans (List.suffix_cons _ _)
  obtain ⟨d, hd, hlaunched⟩ := h₀.launched_of_isEvaluated (fun hr => hreset (hsuffix.subset hr))
    (fun e he => hassigned e (hsuffix.subset he)) hevaluated
  have hstarted : p ∈ started tr₀.journal := by
    rcases hlaunched (by simpa [body?, hd] using hb) with hstarted | ⟨u, hu⟩
    · exact hstarted
    · cases hu.symm.trans hlast
  refine ⟨hstarted, fun u since before hu => (h₁.ended_or_open hu).imp id fun hopen => ?_⟩
  rw [h₁.ofJournal.2]
  exact suffix_aroundCall (by simp [Trace.record, Moment.after, herrand]) hopen

end Chronicle

end ClassTable

theorem parent_starts_first (i : Instant) (j k : Nat) (huses : i.UsesOnly j k)
    (hreset : .reset ∉ i.journal k) (hassigned : Unassigned (i.journal k)) {c p : ClassId}
    {s : ScopeId} {past : List Event} (hstart : i.journal k = .opened (.body c s) :: past)
    (hparent : (i.table j).parentOf c = .ok (some p)) (hbody : ((i.table j).body? p).isSome) :
    p ∈ started past ∧ ∀ u since before, past = since ++ .opened (.body p u) :: before →
      HasEnded (.body p u) since before ∨
        .body p u :: (Moment.ofJournal before).stack <:+
          aroundCall (Moment.ofJournal past).stack := by
  obtain ⟨tr, h, hjournal, -⟩ := huses.chronicle
  rw [← hjournal] at hreset hassigned hstart
  exact h.parent_of_opened hreset hassigned hstart hparent hbody

/-- The parent of class 2 runs twice in one scope. The first run fails, and the second calls for
class 2, whose body has just started. -/
def childAfterParent : Instant :=
  let main : ResourceRef := .main (.number ⟨0⟩)
  .upTo
    [.define "base" none (some [.each [.fresh (.evaluate (.named "web") .top main)]]),
      .define "web" (some "base")
        (some [.evaluate (.named "log") .top main, .evaluate (.named "app") .top main]),
      .define "app" (some "web") (some []), .define "log" none (some [.fail "full"])]
    (.step (.evaluate (.named "web") .top main)) 39

theorem childAfterParent_starts :
    let past := (childAfterParent.journal 0).tail
    (startsOf past).reverse = [(⟨0⟩, .top), (⟨1⟩, .top), (⟨3⟩, .top), (⟨1⟩, .top)] ∧
      past.count (.closed (.body ⟨1⟩ .top)) = 1 ∧
      (aroundCall (Moment.ofJournal past).stack).count (.body ⟨1⟩ .top) = 1 ∧
      ⟨1⟩ ∈ started past ∧ ∀ u since before, past = since ++ .opened (.body ⟨1⟩ u) :: before →
        HasEnded (.body ⟨1⟩ u) since before ∨
          .body ⟨1⟩ u :: (Moment.ofJournal before).stack <:+
            aroundCall (Moment.ofJournal past).stack := by
  intro past
  have huses : childAfterParent.UsesOnly 0 0 := by decide +kernel
  have hreset : .reset ∉ childAfterParent.journal 0 := by decide +kernel
  have hassigned : Unassigned (childAfterParent.journal 0) := by decide +kernel
  have hstart : childAfterParent.journal 0 = .opened (.body ⟨2⟩ .top) :: past := by decide +kernel
  have hparent : (childAfterParent.table 0).parentOf ⟨2⟩ = .ok (some ⟨1⟩) := by decide +kernel
  have hbody : ((childAfterParent.table 0).body? ⟨1⟩).isSome := by decide +kernel
  exact ⟨by decide +kernel, by decide +kernel, by decide +kernel,
    parent_starts_first childAfterParent 0 0 huses hreset hassigned hstart hparent hbody⟩

def childInsideParent : Instant :=
  .upTo
    [.define "base" none
        (some [.evaluate (.named "web") .top (.titled (.number ⟨0⟩) (.number ⟨0⟩))]),
      .define "web" (some "base") (some [])]
    (.step (.evaluate (.named "base") .top (.titled (.number ⟨0⟩) (.number ⟨0⟩)))) 15

theorem childInsideParent_starts_early :
    childInsideParent.UsesOnly 0 0 ∧ .reset ∉ childInsideParent.journal 0 ∧
      Unassigned (childInsideParent.journal 0) ∧ OneEvaluator (childInsideParent.journal 0) ∧
      (childInsideParent.journal 0).head? = some (.opened (.body ⟨1⟩ ⟨2⟩)) ∧
      (childInsideParent.table 0).parentOf ⟨1⟩ = .ok (some ⟨0⟩) ∧
      .opened (.body ⟨0⟩ ⟨1⟩) ∈ childInsideParent.journal 0 ∧
      .closed (.body ⟨0⟩ ⟨1⟩) ∉ childInsideParent.journal 0 := by
  decide +kernel

end ConfigClasses

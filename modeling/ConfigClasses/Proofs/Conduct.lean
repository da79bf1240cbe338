import ConfigClasses.Proofs.Permission
import Mathlib.Data.List.Infix

namespace ConfigClasses

/-- What the events, latest first, make of a compilation in which nothing has happened. -/
def Moment.ofJournal : List Event → Moment
  | [] => ⟨.initial, .initial, []⟩
  | e :: journal => (ofJournal journal).after e

def Trace.Shown (tr : Trace) : Prop := (Moment.ofJournal tr.journal).stack = tr.now.stack

theorem Trace.shown_start {m : Moment} (h : m.stack = []) : Shown ⟨m, []⟩ := h.symm

theorem Trace.Shown.record {tr : Trace} (h : tr.Shown) (e : Event) : (tr.record e).Shown := by
  unfold Shown at h ⊢
  cases e <;> simp [Trace.record, Moment.ofJournal, Moment.after, h]

def Always (P : Moment → Event → Prop) : List Event → Prop
  | [] => True
  | e :: journal => P (.ofJournal journal) e ∧ Always P journal

instance Always.decidable {P : Moment → Event → Prop} [h : ∀ m e, Decidable (P m e)] :
    (journal : List Event) → Decidable (Always P journal)
  | [] => .isTrue trivial
  | e :: journal => @instDecidableAnd _ _ (h (.ofJournal journal) e) (decidable journal)

theorem Always.suffix {P : Moment → Event → Prop} {past journal : List Event}
    (h : Always P journal) (hp : past <:+ journal) : Always P past := by
  induction journal with
  | nil => exact List.suffix_nil.1 hp ▸ trivial
  | cons e journal ih =>
    rcases List.suffix_cons_iff.1 hp with rfl | hp
    · exact h
    · exact ih h.2 hp

def Activity.isBody : Activity → Bool
  | .body _ _ => true
  | _ => false

def Event.caller? : Event → Option ScopeId
  | .opened (.call _ caller _) => some caller
  | _ => none

def Event.isAssignment : Event → Bool
  | .assigned _ _ => true
  | _ => false

def OneEvaluator : List Event → Prop :=
  Always fun m e => e = .opened .evaluator → ∀ a ∈ m.stack, a.isBody = false

instance (journal : List Event) : Decidable (OneEvaluator journal) :=
  Always.decidable journal

def CallersInTree : List Event → Prop :=
  Always fun m e => ∀ s ∈ e.caller?, s.raw < m.compilation.tree.size

instance (journal : List Event) : Decidable (CallersInTree journal) :=
  Always.decidable journal

def Unassigned (journal : List Event) : Prop := ∀ e ∈ journal, e.isAssignment = false

instance (journal : List Event) : Decidable (Unassigned journal) :=
  inferInstanceAs (Decidable (∀ e ∈ journal, e.isAssignment = false))

section

variable {e : Event} {journal : List Event}

theorem Unassigned.tail (h : Unassigned (e :: journal)) : Unassigned journal :=
  fun x hx => h x (List.mem_cons_of_mem e hx)

theorem Unassigned.ne (h : Unassigned (e :: journal)) (c : ClassId) (s : ScopeId) :
    e ≠ .assigned c s := by
  rintro rfl
  cases h _ List.mem_cons_self

end

namespace ClassTable

variable {β : Type} {t : ClassTable β} {tr : Trace} {Next : ClassTable β → ClassTable β → Prop}

namespace Chronicle

theorem ofJournal (h : Chronicle Next t tr) :
    (Moment.ofJournal tr.journal).compilation = tr.now.compilation ∧
      (Moment.ofJournal tr.journal).stack = tr.now.stack := by
  induction h with
  | start => exact ⟨rfl, rfl⟩
  | @record t tr e h he ih =>
    obtain ⟨hc, hs⟩ := ih
    simp only [Trace.record, Moment.ofJournal]
    cases e <;> simp [Moment.after, hc, hs]
  | resume h hp ht names ih => exact ih

theorem last (h : Chronicle Next t tr) {e : Event} {journal : List Event}
    (hj : tr.journal = e :: journal) (he : e ≠ .closed .evaluator) :
    ∃ tr', Chronicle Next t tr' ∧ tr'.journal = journal ∧ t.Permits tr' e ∧ tr = tr'.record e := by
  cases h with
  | start => cases hj
  | @record _ tr' x h hx =>
    obtain ⟨rfl, rfl⟩ := List.cons.inj hj
    exact ⟨tr', h, rfl, hx, rfl⟩
  | resume h hp ht names =>
    -- A command begins only after the end of an evaluator.
    exact (he (hp.2 e (by simp_all))).elim

theorem suffix (h : Chronicle Next t tr) {journal : List Event} (hj : journal <:+ tr.journal) :
    ∃ t' tr', Chronicle Next t' tr' ∧ tr'.journal = journal := by
  induction h with
  | start t names => exact ⟨t, _, .start t names, (List.suffix_nil.1 hj).symm⟩
  | record h he ih =>
    rcases List.suffix_cons_iff.1 hj with rfl | hj
    · exact ⟨_, _, h.record he, rfl⟩
    · exact ih hj
  | resume h hp ht names ih => exact ih hj

end Chronicle

end ClassTable

end ConfigClasses

import ConfigClasses.Proofs.Instant
import ConfigClasses.Proofs.RunningBodies

namespace ConfigClasses

open Eval

namespace Eval

variable {α β γ : Type}

def failure? (act : Eval α) (tr : Trace) : Option Failure :=
  match act tr with
  | .error (.failure f) _ => some f
  | _ => none

def Raises (act : Eval α) : Prop :=
  ∀ tr e tr', act tr = .error (.failure (.evaluation e)) tr' → .raised e ∈ tr'.journal

theorem Raises.bind {act : Eval α} {next : α → Eval γ} (ha : Raises act)
    (hn : ∀ x, Raises (next x)) : Raises (act >>= next) := by
  intro tr e tr' h
  cases hact : act tr with
  | ok x tr₁ =>
    rw [bind_of_ok hact] at h
    exact hn x tr₁ e tr' h
  | error f tr₁ =>
    rw [bind_of_error hact] at h
    cases h
    exact ha tr e tr' hact

theorem Raises.during {act : Eval α} (h : Raises act) (a : Activity) :
    Raises (during a act) := by
  intro tr e tr' he
  unfold Eval.during at he
  split at he
  · cases he
  · next hact =>
    cases he
    exact List.mem_cons_of_mem _ (h _ e _ hact)

theorem Raises.answering {t : ClassTable β} {act : Eval Reply} (h : Raises act) :
    Raises (answering t act) := by
  intro tr e tr' he
  unfold ConfigClasses.answering at he
  split at he
  · cases he
  · next hact => exact h tr e tr' he

theorem raises_raise (e : EvaluationError) : Raises (raise e : Eval α) := by
  intro tr e' tr' h
  cases h
  exact List.mem_cons_self

theorem raises_congruence (t : ClassTable β) : Congruence t fun _ act _ => Raises act where
  pure _ := by
    rintro tr e tr' ⟨⟩
  bind := Raises.bind
  now h := fun tr => h tr.now tr.now (.refl _) tr
  fail hf := by
    intro tr e tr' h
    cases h
    exact (hf e rfl).elim
  stray := by
    rintro _ tr e tr' ⟨⟩
  answering := Raises.answering
  raise := raises_raise
  record _ := by
    rintro tr e tr' ⟨⟩
  during a h := h.during a

end Eval

theorem raises_step (t : ClassTable Body) (depth : Nat) (here : ScopeId) (step : Step) :
    Raises (step.exec t (t.evaluate (t.runBody depth)) here) :=
  (raises_congruence t).step (by rintro tr e tr' ⟨⟩) depth here step

namespace EvaluationError

variable {e : EvaluationError}

theorem isInternal_iff : e.isInternal = true ↔ ∃ c p, e = .parentScopeMissing c p := by
  cases e <;> simp [isInternal]

theorem not_isInternal_iff : e.isInternal = false ↔ ∀ c p, e ≠ .parentScopeMissing c p := by
  simp only [← Bool.not_eq_true, isInternal_iff, not_exists, ne_eq]

end EvaluationError

namespace ClassTable.Chronicle

variable {β : Type} {t : ClassTable β} {tr : Trace} {Next : ClassTable β → ClassTable β → Prop}

theorem not_raised_parentScopeMissing (h : Chronicle Next t tr) (hreset : NoBodyResets tr.journal)
    (c p : ClassId) : .raised (.parentScopeMissing c p) ∉ tr.journal := by
  induction h with
  | start => exact List.not_mem_nil
  | record h he ih =>
    refine List.not_mem_cons_of_ne_of_not_mem ?_ (ih hreset.2)
    rintro rfl
    -- The parent was placed or its body ended just before, and it has no scope all the same.
    obtain ⟨-, -, hscope, hserved⟩ := he.2
    have hevaluated := (h.hosting hreset.2).served p hserved
    exact Compilation.not_isEvaluated_iff.2 hscope hevaluated
  | resume h hp ht names ih => exact ih hreset

theorem raised_not_internal (h : Chronicle Next t tr) (hreset : NoBodyResets tr.journal)
    {e : EvaluationError} (he : .raised e ∈ tr.journal) :
    e.isInternal = false ∧ ∀ c p, e ≠ .parentScopeMissing c p := by
  have hne : ∀ c p, e ≠ .parentScopeMissing c p := by
    rintro c p rfl
    exact h.not_raised_parentScopeMissing hreset c p he
  exact ⟨EvaluationError.not_isInternal_iff.2 hne, hne⟩

theorem nothingDue (h : Chronicle Next t tr) (hs : RunsSteps tr.now.stack) : t.NothingDue tr := by
  intro c s hc
  obtain ⟨past, hpast⟩ := List.head?_eq_some_iff.1 hc
  obtain ⟨tr', -, -, hplaced, rfl⟩ := h.last hpast (by simp)
  have hawaits : t.Awaits c tr'.now.stack := hplaced.2.1
  have hruns : RunsSteps tr'.now.stack := hs
  cases hstack : tr'.now.stack with
  | nil => simp [hstack, RunsSteps] at hruns
  | cons a stack =>
    rw [hstack] at hawaits hruns
    cases a <;> simp [RunsSteps, Awaits] at hawaits hruns

end ClassTable.Chronicle

namespace Instant

def trace (i : Instant) : Trace := ⟨i.moment, i.journal i.before.active⟩

theorem chronicle_trace (i : Instant) :
    ClassTable.Chronicle (fun _ _ => True) i.before.registry.table i.trace := by
  obtain ⟨htracks, -⟩ := (Session.tracks_initial (fun _ _ => True) (fun s => s.registry.table)
    i.before.active).run (fun _ => trivial) Session.sound_initial (fun _ _ => trivial)
    (U := fun _ => True) (fun _ _ => rfl) i.done fun _ _ _ _ => trivial
  rw [trace, journal, passages, journalOf_append, journalOf_singleton, if_pos rfl,
    ← List.append_nil (journalOf (List.map _ _) _)]
  exact htracks.begin (fun _ => trivial) i.begun rfl fun _ => rfl

end Instant

theorem errors_not_internal (i : Instant) :
    (∀ k e, NoBodyResets (i.journal k) → .raised e ∈ i.journal k →
        e.isInternal = false ∧ ∀ c p, e ≠ .parentScopeMissing c p) ∧
      ∀ depth here (step : Step) e,
        let t := i.before.registry.table
        let act := step.exec t (t.evaluate (t.runBody depth)) here
        RunsSteps i.moment.stack → NoBodyResets (act.final i.trace).journal →
          act.failure? i.trace = some (.evaluation e) →
            e.isInternal = false ∧ ∀ c p, e ≠ .parentScopeMissing c p := by
  constructor
  · intro k e hreset he
    obtain ⟨_, tr, h, hjournal, -⟩ := i.chronicle_any k
    rw [← hjournal] at hreset he
    exact h.raised_not_internal hreset he
  · intro depth here step e t act hs hreset he
    have h := i.chronicle_trace
    have hpath := (free_step (t := t) depth here step _ hs _ rfl (h.nothingDue hs) trivial).path
    apply (h.follow hpath).raised_not_internal hreset
    unfold failure? at he
    split at he
    · next f tr' hact =>
      cases he
      rw [final_of_error hact]
      exact raises_step t depth here step _ e tr' hact
    · cases he

def includedInAscent : Instant :=
  .upTo
    [.define "base" none (some [.each [.includeClass "web" .here .ofScope]]),
      .define "web" (some "base") (some [])]
    (.step (.evaluate (.named "web") .top (.titled (.number ⟨0⟩) (.number ⟨0⟩)))) 13

theorem includedInAscent_not_internal :
    let t := includedInAscent.before.registry.table
    let act := Step.exec t (t.evaluate (t.runBody 2)) ⟨1⟩ (.includeClass "web" .here .ofScope)
    .raised (.reentrant ⟨1⟩) ∈ includedInAscent.journal 0 ∧
      (∀ e, .raised e ∈ includedInAscent.journal 0 →
        e.isInternal = false ∧ ∀ c p, e ≠ .parentScopeMissing c p) ∧
      act.failure? includedInAscent.trace = some (.evaluation (.reentrant ⟨1⟩)) ∧
      (EvaluationError.reentrant ⟨1⟩).isInternal = false ∧
      ∀ c p, EvaluationError.reentrant ⟨1⟩ ≠ .parentScopeMissing c p := by
  intro t act
  have hreset : NoBodyResets (includedInAscent.journal 0) := by decide +kernel
  have hraised : .raised (.reentrant ⟨1⟩) ∈ includedInAscent.journal 0 := by decide +kernel
  have hstack : includedInAscent.moment.stack = [.body ⟨0⟩ ⟨1⟩, .ascent ⟨1⟩,
      .call ⟨1⟩ .top (some ⟨⟨0⟩, .named ⟨0⟩⟩), .evaluator] := by decide +kernel
  have hruns : RunsSteps includedInAscent.moment.stack := hstack ▸ trivial
  have hreset' : NoBodyResets (act.final includedInAscent.trace).journal := by decide +kernel
  have hfailure : act.failure? includedInAscent.trace = some (.evaluation (.reentrant ⟨1⟩)) := by
    decide +kernel
  obtain ⟨hall, hstep⟩ := errors_not_internal includedInAscent
  exact ⟨hraised, fun e => hall 0 e hreset, hfailure, hstep 2 ⟨1⟩ _ _ hruns hreset' hfailure⟩

end ConfigClasses

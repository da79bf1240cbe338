import ConfigClasses.Proofs.Congruence
import ConfigClasses.Proofs.Lawful

namespace ConfigClasses

namespace Eval

variable {β α γ : Type} {t : ClassTable β} {P : Trace → Prop} {Q : α → Trace → Prop}
  {E : Trace → Prop} {act : Eval α}

/-- From where `P` holds the action comes to where `Q` holds of its answer, or fails where `E`
holds. -/
def Ensures (P : Trace → Prop) (act : Eval α) (Q : α → Trace → Prop) (E : Trace → Prop) : Prop :=
  ∀ tr, P tr →
    match act tr with
    | .ok x tr' => Q x tr'
    | .error _ tr' => E tr'

theorem Ensures.of_ok (h : Ensures P act Q E) {tr tr' : Trace} {x : α} (hp : P tr)
    (hact : act tr = .ok x tr') : Q x tr' := by
  simpa [hact] using h tr hp

theorem Ensures.of_error (h : Ensures P act Q E) {tr tr' : Trace} {e : Halt} (hp : P tr)
    (hact : act tr = .error e tr') : E tr' := by
  simpa [hact] using h tr hp

theorem Ensures.bind {R : γ → Trace → Prop} {next : α → Eval γ} (ha : Ensures P act Q E)
    (hn : ∀ x, Ensures (Q x) (next x) R E) : Ensures P (act >>= next) R E := by
  intro tr hp
  cases hact : act tr with
  | ok x tr' =>
    rw [bind_of_ok hact]
    exact hn x tr' (ha.of_ok hp hact)
  | error e tr' =>
    rw [bind_of_error hact]
    exact ha.of_error hp hact

theorem Ensures.before {P' : Trace → Prop} (h : Ensures P act Q E) (hp : ∀ tr, P' tr → P tr) :
    Ensures P' act Q E :=
  fun tr h' => h tr (hp tr h')

theorem Ensures.after {Q' : α → Trace → Prop} (h : Ensures P act Q E)
    (hq : ∀ x tr, Q x tr → Q' x tr) : Ensures P act Q' E := by
  intro tr hp
  cases hact : act tr with
  | ok x tr' => exact hq x tr' (h.of_ok hp hact)
  | error e tr' => exact h.of_error hp hact

theorem ensures_pure (x : α) : Ensures (Q x) (pure x) Q E := fun _ h => h

theorem ensures_throw (e : Halt) (h : ∀ tr, P tr → E tr) : Ensures P (throw e) Q E := h

theorem ensures_now_bind {next : Moment → Eval α}
    (h : ∀ m, Ensures (fun tr => P tr ∧ tr.now = m) (next m) Q E) :
    Ensures P (now >>= next) Q E :=
  fun tr hp => h tr.now tr ⟨hp, rfl⟩

theorem ensures_compilation_bind {next : Compilation → Eval α}
    (h : ∀ k, Ensures (fun tr => P tr ∧ tr.now.compilation = k) (next k) Q E) :
    Ensures P (compilation >>= next) Q E :=
  fun tr hp => h tr.now.compilation tr ⟨hp, rfl⟩

theorem ensures_record {Q : Unit → Trace → Prop} {e : Event}
    (h : ∀ tr, P tr → Q () (tr.record e)) : Ensures P (record e) Q E := h

theorem ensures_raise {e : EvaluationError} (h : ∀ tr, P tr → E (tr.record (.raised e))) :
    Ensures P (raise e) Q E := h

theorem ensures_refusal {p : Prop} [Decidable p] {e : EvaluationError} {rest : Eval α}
    (hraise : p → ∀ tr, P tr → E (tr.record (.raised e)))
    (hrest : ¬ p → Ensures P rest Q E) :
    Ensures P (if p then (raise e : Eval Unit) >>= fun _ => rest else rest) Q E := by
  split
  · next hp =>
    have hstop : Ensures P (raise e) (fun (_ : Unit) _ => False) E := ensures_raise (hraise hp)
    exact hstop.bind fun _ _ h => h.elim
  · next hp => exact hrest hp

theorem scopeAt_of_find? {s : ScopeId} {scope : Scope} {tr : Trace}
    (hs : tr.now.compilation.tree.find? s = some scope) : scopeAt s tr = .ok scope tr := by
  simp [scopeAt, compilation, bind, EStateM.bind, hs, pure, EStateM.pure]

theorem scopeAt_of_none {s : ScopeId} {tr : Trace}
    (hs : tr.now.compilation.tree.find? s = none) : scopeAt s tr = .error .stray tr := by
  have hcompilation : compilation tr = .ok tr.now.compilation tr := rfl
  rw [scopeAt, bind_of_ok hcompilation, hs]
  rfl

theorem nest_of_find? {owner : Option ClassId} {outer : ScopeId} {scope : Scope} {tr : Trace}
    (hscope : tr.now.compilation.tree.find? outer = some scope) (r : Resource) :
    nest owner outer r tr =
      .ok tr.now.compilation.tree.next (tr.record (.nested owner outer r)) :=
  bind_of_ok (scopeAt_of_find? hscope)

theorem ensures_scopeAt_bind {s : ScopeId} {next : Scope → Eval α} (hstray : ∀ tr, P tr → E tr)
    (h : ∀ scope, Ensures (fun tr => P tr ∧ tr.now.compilation.tree.find? s = some scope)
      (next scope) Q E) : Ensures P (scopeAt s >>= next) Q E := by
  intro tr hp
  cases hs : tr.now.compilation.tree.find? s with
  | none =>
    rw [bind_of_error (scopeAt_of_none hs)]
    exact hstray tr hp
  | some scope =>
    rw [bind_of_ok (scopeAt_of_find? hs)]
    exact h scope tr ⟨hp, hs⟩

theorem Ensures.during {P' E' : Trace → Prop} {Q' : α → Trace → Prop} {a : Activity}
    (h : Ensures P' act Q' E') (hopen : ∀ tr, P tr → P' (tr.record (.opened a)))
    (hclose : ∀ x tr, Q' x tr → Q x (tr.record (.closed a)))
    (hfail : ∀ tr, E' tr → E (tr.record (.closed a))) : Ensures P (during a act) Q E := by
  intro tr hp
  unfold Eval.during
  cases hact : act (tr.record (.opened a)) with
  | ok x tr' => exact hclose x tr' (h.of_ok (hopen tr hp) hact)
  | error e tr' => exact hfail tr' (h.of_error (hopen tr hp) hact)

abbrev Succeeds (P : Trace → Prop) (act : Eval α) (Q : α → Trace → Prop) : Prop :=
  Ensures P act Q fun _ => False

theorem succeeds_of_ok (h : ∀ tr, P tr → ∃ x tr', act tr = .ok x tr' ∧ Q x tr') :
    Succeeds P act Q := by
  intro tr hp
  obtain ⟨x, tr', hact, hq⟩ := h tr hp
  simpa only [hact] using hq

theorem Succeeds.ok (h : Succeeds P act Q) {tr : Trace} (hp : P tr) :
    ∃ x tr', act tr = .ok x tr' ∧ Q x tr' := by
  cases hact : act tr with
  | ok x tr' => exact ⟨x, tr', rfl, h.of_ok hp hact⟩
  | error e tr' => exact (h.of_error hp hact).elim

theorem Succeeds.answering {act : Eval Reply} {Q : Reply → Trace → Prop} (h : Succeeds P act Q) :
    Succeeds P (answering t act) Q := by
  refine succeeds_of_ok fun tr hp => ?_
  obtain ⟨x, tr', hact, hq⟩ := h.ok hp
  exact ⟨x, tr', by simp [ConfigClasses.answering, hact], hq⟩

abbrev Keeps (I : Trace → Prop) (act : Eval α) : Prop := Ensures I act (fun _ => I) I

variable {I : Trace → Prop}

theorem Keeps.final (h : Keeps I act) {tr : Trace} (hi : I tr) : I (act.final tr) := by
  unfold Eval.final
  cases hact : act tr with
  | ok x tr' => exact h.of_ok hi hact
  | error e tr' => exact h.of_error hi hact

theorem Keeps.answering {act : Eval Reply} (h : Keeps I act) : Keeps I (answering t act) := by
  intro tr hi
  unfold ConfigClasses.answering
  cases hact : act tr with
  | ok x tr' => exact h.of_ok hi hact
  | error e tr' => cases e <;> exact h.of_error hi hact

theorem keeps_compositional (t : ClassTable β) (I : Trace → Prop) :
    Compositional t fun _ act _ => Keeps I act where
  pure _ _ hi := hi
  bind := Ensures.bind
  now h tr := h tr.now tr.now (.refl _) tr
  fail _ := ensures_throw _ fun _ hi => hi
  stray := ensures_throw _ fun _ hi => hi
  answering := Keeps.answering

theorem keeps_congruence (t : ClassTable β) (h : ∀ tr e, I tr → I (tr.record e)) :
    Congruence t fun _ act _ => Keeps I act where
  toCompositional := keeps_compositional t I
  raise e := ensures_raise fun tr => h tr (.raised e)
  record _ := ensures_record fun tr => h tr _
  during _ hact := hact.during (fun tr => h tr _) (fun _ tr => h tr _) fun tr => h tr _

end Eval

open Eval

theorem Eval.Compositional.forall {β ι : Type} {t : ClassTable β}
    {Rel : ι → (α : Type) → Eval α → Eval α → Prop} (h : ∀ i, Compositional t (Rel i)) :
    Compositional t fun α act act' => ∀ i, Rel i α act act' where
  pure x i := (h i).pure x
  bind ha hn i := (h i).bind (ha i) fun x => hn x i
  now hn i := (h i).now fun m m' hm => hn m m' hm i
  fail hf i := (h i).fail hf
  stray i := (h i).stray
  answering ha i := (h i).answering (ha i)

theorem Eval.keeps_step_congruence {β ι : Type} (t : ClassTable β) {I : ι → Trace → Prop}
    (hrecord : ∀ i tr e, e.isOfStep = true → I i tr → I i (tr.record e))
    (hevaluator : ∀ {α : Type} {act : Eval α}, (∀ i, Keeps (I i) act) →
      ∀ i, Keeps (I i) (during .evaluator act)) :
    StepCongruence t fun _ act _ => ∀ i, Keeps (I i) act :=
  (Compositional.forall fun i => keeps_compositional t (I i)).steps hevaluator
    (fun _ i => ensures_raise fun tr => hrecord i tr _ rfl)
    fun e he i => ensures_record fun tr => hrecord i tr e he

end ConfigClasses

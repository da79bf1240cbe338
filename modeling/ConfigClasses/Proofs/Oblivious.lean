import ConfigClasses.Proofs.Balance

namespace ConfigClasses

def Trace.on (tr : Trace) (past : List Event) : Trace := ⟨tr.now, tr.journal ++ past⟩

namespace Eval

variable {α β : Type}

def resultOn (past : List Event) :
    EStateM.Result Halt Trace α → EStateM.Result Halt Trace α
  | .ok x tr => .ok x (tr.on past)
  | .error e tr => .error e (tr.on past)

def Oblivious (act : Eval α) : Prop := ∀ tr past, act (tr.on past) = resultOn past (act tr)

theorem oblivious_congruence (t : ClassTable β) :
    Congruence t fun _ act _ => Oblivious act where
  pure _ _ _ := rfl
  bind := by
    intro _ _ act _ next _ ha hn tr past
    cases hact : act tr with
    | ok x tr' =>
      have hlater : act (tr.on past) = .ok x (tr'.on past) := by rw [ha tr past, hact]; rfl
      rw [bind_of_ok hact, bind_of_ok hlater]
      exact hn x tr' past
    | error e tr' =>
      have hlater : act (tr.on past) = .error e (tr'.on past) := by rw [ha tr past, hact]; rfl
      rw [bind_of_error hact, bind_of_error hlater]
      rfl
  now h tr past := h tr.now tr.now (.refl _) tr past
  fail _ _ _ := rfl
  stray _ _ := rfl
  answering := by
    intro act _ ha tr past
    unfold ConfigClasses.answering
    rw [ha tr past]
    cases act tr with
    | ok x tr' => rfl
    | error e tr' => cases e <;> rfl
  raise _ _ _ := rfl
  record _ _ _ := rfl
  during := by
    intro _ act _ a ha tr past
    have hlater : act ((tr.on past).record (.opened a)) =
        resultOn past (act (tr.record (.opened a))) := ha (tr.record (.opened a)) past
    unfold Eval.during
    rw [hlater]
    cases act (tr.record (.opened a)) <;> rfl

end Eval

open Eval

theorem oblivious_step (t : ClassTable Body) (depth : Nat) (here : ScopeId) (step : Step) :
    Oblivious (step.exec t (t.evaluate (t.runBody depth)) here) :=
  (oblivious_congruence t).step (fun _ _ => rfl) depth here step

theorem oblivious_each (t : ClassTable Body) (depth : Nat) (here : ScopeId) (steps : List Step) :
    Oblivious (execEach t (t.evaluate (t.runBody depth)) here steps) :=
  (oblivious_congruence t).each (fun _ _ => rfl) depth here steps

theorem balanced_step (t : ClassTable Body) (depth : Nat) (here : ScopeId) (step : Step) :
    Balanced (step.exec t (t.evaluate (t.runBody depth)) here) :=
  (balanced_congruence t).step (balanced_of_final fun _ => rfl) depth here step

end ConfigClasses

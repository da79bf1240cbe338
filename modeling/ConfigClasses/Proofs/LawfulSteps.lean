import ConfigClasses.Proofs.Balance
import ConfigClasses.Proofs.LawfulEvaluation

namespace ConfigClasses

open ClassTable Eval

section

variable {α γ β : Type} {t : ClassTable β}

def Eval.Free (t : ClassTable β) (act : Eval α) : Prop :=
  ∀ stack, RunsSteps stack → Lawful t stack (fun _ => True) act fun _ _ => True

namespace Eval

theorem Free.bind {act : Eval α} {next : α → Eval γ} (ha : Free t act)
    (hn : ∀ x, Free t (next x)) : Free t (act >>= next) :=
  fun stack hs => (ha stack hs).bind fun x => hn x stack hs

theorem free_pure (x : α) : Free t (pure x) :=
  fun _ _ => lawful_pure (R := fun _ _ => True) x

theorem free_throw (e : Halt) : Free t (throw e : Eval α) :=
  fun _ _ => lawful_throw e

theorem free_now : Free t now :=
  fun _ _ => lawful_now.after fun _ _ _ _ => trivial

theorem free_record {e : Event} (he : e.isUnscoped = true) : Free t (record e) := by
  intro stack hs
  refine lawful_record ?_ ?_ ?_ fun _ _ _ => trivial
  · intro m
    cases e <;> first | rfl | cases he
  · rintro c s rfl
    cases he
  · rintro tr rfl -
    cases e with
    | tagged name => exact .inl hs
    | interned text | assigned c s | reset => exact hs
    | _ => cases he

theorem free_unknownClass (text : String) :
    Free t (raise (.table (.unknownClass text)) : Eval α) := by
  intro stack hs
  apply lawful_raise
  rintro tr rfl -
  exact .inl ⟨⟨_, rfl⟩, hs⟩

theorem free_nest (outer : ScopeId) (r : Resource) : Free t (nest none outer r) := by
  intro stack hs
  refine lawful_nest ?_ fun _ _ _ => trivial
  rintro tr rfl - ho
  exact ⟨hs, ho⟩

end Eval

theorem free_addNamespace (s : ScopeId) (ns : Name) (x : α) : Free t (do
    let _ ← scopeAt s
    record (.namespaceAdded s ns)
    return x) := by
  intro stack hs
  apply (lawful_scopeAt s).bind
  intro scope
  have hrecord : Lawful t stack
      (fun tr => True ∧ tr.now.compilation.tree.find? s = some scope)
      (record (.namespaceAdded s ns)) fun _ _ => True := by
    refine lawful_record (fun _ => rfl) (by simp) ?_ fun _ _ _ => trivial
    rintro tr rfl ⟨-, hscope⟩
    exact ⟨ScopeTree.lt_size_of_find? hscope, .inl hs⟩
  exact hrecord.bind fun _ => free_pure x stack hs

theorem free_bindIn (s : ScopeId) (x : Name) (v : Value) : Free t (bindIn s x v) := by
  intro stack hs
  apply (lawful_scopeAt s).bind
  intro scope
  cases hx : scope.bindings[x]? with
  | some _ => exact lawful_throw _
  | none =>
    refine lawful_record (fun _ => rfl) (by simp) ?_ fun _ _ _ => trivial
    rintro tr rfl ⟨-, hscope⟩
    exact ⟨hs, ScopeTree.lt_size_of_find? hscope, by simp [ScopeTree.lookupLocal, hscope, hx]⟩

theorem free_answering {act : Eval Reply} (h : Free t act) : Free t (answering t act) := by
  intro stack hs tr hstack hidle hp
  obtain ⟨hpath, hstack', hidle', -⟩ := h stack hs tr hstack hidle hp
  rw [← final_answering t act tr] at hpath hstack' hidle'
  exact ⟨hpath, hstack', hidle', fun _ _ _ => trivial⟩

theorem free_evaluator {act : Eval α} (h : Free t act) : Free t (during .evaluator act) := by
  intro stack hs
  refine lawful_during (Q := fun _ _ => True) ?_ (h _ trivial) fun _ _ _ _ => trivial
  rintro tr rfl -
  exact .inr hs

theorem free_congruence : StepCongruence t fun _ act _ => Free t act where
  pure := free_pure
  bind := Free.bind
  now hn := free_now.bind fun m => hn m m (.refl m)
  fail _ := free_throw _
  stray := free_throw _
  answering := free_answering
  unknownClass := free_unknownClass
  record := free_record
  nest := free_nest
  addNamespace := free_addNamespace
  bindIn := free_bindIn
  evaluator := free_evaluator

end

variable {t : ClassTable Body}

theorem free_runBody (depth : Nat) (s : ScopeId) (body : Body) :
    Free t (t.runBody depth s body) := by
  induction depth generalizing s body with
  | zero => exact free_throw _
  | succ depth ih =>
    refine (free_congruence.execAll (t.evaluate (t.runBody depth)) ?_ s body).bind
      fun _ => free_pure _
    exact fun _ _ _ _ hs => lawful_evaluate (fun _ s b _ => ih s b _ trivial) hs

theorem free_step (depth : Nat) (here : ScopeId) (step : Step) :
    Free t (step.exec t (t.evaluate (t.runBody depth)) here) := by
  apply free_congruence.exec (t.evaluate (t.runBody depth))
  exact fun _ _ _ _ hs => lawful_evaluate (fun _ s b _ => free_runBody depth s b _ trivial) hs

end ConfigClasses

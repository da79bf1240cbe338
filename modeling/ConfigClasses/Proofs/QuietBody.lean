import ConfigClasses.Proofs.ScopeMaking
import ConfigClasses.Proofs.Starts

namespace ConfigClasses

open Eval

namespace ScopeTree

variable {t : ScopeTree}

def links (t : ScopeTree) : List (Option ScopeId × Option Resource) :=
  t.scopes.toList.map fun scope => (scope.parent, scope.resource)

theorem length_links : t.links.length = t.size := by
  simp [links, size]

theorem links_nest (outer : ScopeId) (r : Resource) :
    (t.nest outer r).links = t.links ++ [(some outer, some r)] := by
  simp [links, nest, Scope.fresh]

theorem links_modify (s : ScopeId) {f : Scope → Scope}
    (hf : ∀ scope, ((f scope).parent, (f scope).resource) = (scope.parent, scope.resource)) :
    links ⟨t.scopes.modify s.raw f⟩ = t.links := by
  apply List.ext_getElem?
  intro n
  simp only [links, List.getElem?_map, Array.getElem?_toList, Array.getElem?_modify]
  split
  · cases t.scopes[n]? <;> simp [hf]
  · rfl

@[simp] theorem links_addNamespace (s : ScopeId) (ns : Name) :
    (t.addNamespace s ns).links = t.links := by
  refine links_modify s fun scope => ?_
  unfold Scope.addNamespace
  split <;> rfl

@[simp] theorem links_bind (s : ScopeId) (x : Name) (v : Value) : (t.bind s x v).links = t.links :=
  links_modify s fun _ => rfl

@[simp] theorem links_addNamespaces (s : ScopeId) (namespaces : List Name) :
    (t.addNamespaces s namespaces).links = t.links := by
  induction namespaces generalizing t with
  | nil => rfl
  | cons ns namespaces ih => exact ih.trans (links_addNamespace s ns)

theorem links_withWorking (outer : ScopeId) (r : Resource) (namespaces : List Name) :
    (t.withWorking outer r namespaces).links =
      t.links ++ if r.IsMain then [] else [(some outer, some r)] := by
  rw [withWorking, links_addNamespaces]
  split
  · exact (List.append_nil _).symm
  · exact links_nest outer r

end ScopeTree

/-- Nothing has changed but names and what the scopes hold, and the bodies of `ran` were started, the
last one first. -/
structure Trace.Leaves (ran : List ClassId) (tr tr' : Trace) : Prop where
  compilation : tr'.now.compilation =
    { tr.now.compilation with tree := tr'.now.compilation.tree }
  links : tr'.now.compilation.tree.links = tr.now.compilation.tree.links
  started : started tr'.journal = ran ++ started tr.journal

theorem Trace.Leaves.refl (tr : Trace) : tr.Leaves [] tr := ⟨rfl, rfl, rfl⟩

theorem Trace.Leaves.record {ran : List ClassId} {tr tr' : Trace} (h : tr.Leaves ran tr')
    {e : Event} (he : e.isLocal = true) : tr.Leaves ran (tr'.record e) := by
  cases e with
  | interned text => exact ⟨h.compilation, h.links, h.started⟩
  | namespaceAdded s ns =>
    refine ⟨?_, (ScopeTree.links_addNamespace s ns).trans h.links, h.started⟩
    simp only [Trace.record, Moment.after]
    rw [h.compilation]
  | bound s x v =>
    refine ⟨?_, (ScopeTree.links_bind s x v).trans h.links, h.started⟩
    simp only [Trace.record, Moment.after]
    rw [h.compilation]
  | _ => cases he

theorem Eval.leaves_congruence {β : Type} (t : ClassTable β) :
    LocalCongruence t fun _ act _ => ∀ start : Trace, Keeps (start.Leaves []) act := by
  refine (Compositional.forall fun start => keeps_compositional t _).localSteps ?_ ?_
  · intro α act act' hact start
    have hopened (tr : Trace) (h : start.Leaves [] tr) :
        start.Leaves [] (tr.record (.opened .evaluator)) := ⟨h.compilation, h.links, h.started⟩
    have hclosed (tr : Trace) (h : start.Leaves [] tr) :
        start.Leaves [] (tr.record (.closed .evaluator)) := ⟨h.compilation, h.links, h.started⟩
    exact (hact start).during hopened (fun _ => hclosed) hclosed
  · exact fun e he start => ensures_record fun tr h => h.record he

section

variable {t : ClassTable Body} {tr tr' : Trace} {steps : Body} {e : Halt}

theorem execAll_append_of_error
    {evaluate : ClassId → ScopeId → Option Resource → Eval (Option Output)} {here : ScopeId} (h : execAll t evaluate here steps tr = .error e tr') (rest : Body) :
    execAll t evaluate here (steps ++ rest) tr = .error e tr' := by
  induction steps generalizing tr with
  | nil => cases h
  | cons step steps ih =>
    have hcons (steps : Body) : execAll t evaluate here (step :: steps) tr =
        (step.exec t evaluate here >>= fun reply =>
          execAll t evaluate here steps >>= fun replies => pure (reply :: replies)) tr := rfl
    rw [List.cons_append, hcons]
    rw [hcons] at h
    cases hstep : step.exec t evaluate here tr with
    | error e' tr₁ =>
      rw [bind_of_error hstep] at h ⊢
      exact h
    | ok reply tr₁ =>
      rw [bind_of_ok hstep] at h ⊢
      cases hsteps : execAll t evaluate here steps tr₁ with
      | ok replies tr₂ =>
        rw [bind_of_ok hsteps] at h
        cases h
      | error e' tr₂ =>
        rw [bind_of_error hsteps] at h
        cases h
        exact bind_of_error (ih hsteps)

namespace ClassTable

variable {depth : Nat} {s : ScopeId}

theorem runBody_append_of_error (h : t.runBody depth s steps tr = .error e tr') (rest : Body) :
    t.runBody depth s (steps ++ rest) tr = .error e tr' := by
  cases depth with
  | zero => exact h
  | succ depth =>
    cases hsteps : execAll t (t.evaluate (t.runBody depth)) s steps tr with
    | ok replies tr₁ => cases h.symm.trans (bind_of_ok hsteps)
    | error e' tr₁ =>
      cases h.symm.trans (bind_of_error hsteps)
      exact bind_of_error (execAll_append_of_error hsteps rest)

theorem leaves_runBody (hsteps : areQuiet steps = true) :
    tr.Leaves [] ((t.runBody depth s steps).final tr) := by
  cases depth with
  | zero => exact .refl tr
  | succ depth =>
    let evaluate := t.evaluate (t.runBody depth)
    have hall : Keeps (tr.Leaves []) (execAll t evaluate s steps) :=
      (leaves_congruence t).execAll_quiet evaluate s hsteps tr
    exact Keeps.final (hall.bind fun _ _ h => h) (.refl tr)

end ClassTable

end

end ConfigClasses

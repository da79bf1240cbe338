import ConfigClasses.Proofs.Course
import ConfigClasses.Proofs.Ensures
import ConfigClasses.Proofs.ScopeOrder

namespace ConfigClasses

namespace Scope

theorem foldl_addNamespace_of_nodup {scope : Scope} {namespaces : List Name}
    (h : (scope.namespaces ++ namespaces).Nodup) :
    namespaces.foldl addNamespace scope =
      { scope with namespaces := scope.namespaces ++ namespaces } := by
  induction namespaces generalizing scope with
  | nil => simp
  | cons ns namespaces ih =>
    have hns : ns ∉ scope.namespaces := fun hns =>
      (List.nodup_append.1 h).2.2 ns hns ns List.mem_cons_self rfl
    rw [List.foldl_cons, addNamespace, if_neg hns, ih (by simpa using h)]
    simp

theorem foldl_addNamespace_of_subset {scope : Scope} {namespaces : List Name}
    (h : namespaces ⊆ scope.namespaces) : namespaces.foldl addNamespace scope = scope := by
  induction namespaces with
  | nil => rfl
  | cons ns namespaces ih =>
    obtain ⟨hns, hrest⟩ := List.cons_subset.1 h
    rw [List.foldl_cons, addNamespace, if_pos hns, ih hrest]

end Scope

namespace ScopeTree

variable {t t' : ScopeTree} {s u : ScopeId} {scope : Scope} {namespaces : List Name}

theorem ext_find? (h : ∀ s, t.find? s = t'.find? s) : t = t' := by
  obtain ⟨scopes⟩ := t
  obtain ⟨scopes'⟩ := t'
  exact congrArg mk (Array.ext_getElem? fun n => h ⟨n⟩)

def addNamespaces (t : ScopeTree) (s : ScopeId) (namespaces : List Name) : ScopeTree :=
  namespaces.foldl (·.addNamespace s ·) t

@[simp] theorem size_addNamespaces : (t.addNamespaces s namespaces).size = t.size := by
  induction namespaces generalizing t with
  | nil => rfl
  | cons ns namespaces ih => exact ih.trans (size_addNamespace s ns)

theorem find?_addNamespaces :
    (t.addNamespaces s namespaces).find? u =
      if u = s then (t.find? u).map (namespaces.foldl Scope.addNamespace) else t.find? u := by
  induction namespaces generalizing t with
  | nil => simp [addNamespaces]
  | cons ns namespaces ih =>
    refine ih.trans ?_
    rw [find?_addNamespace]
    split
    · cases t.find? u <;> simp
    · rfl

theorem addNamespaces_of_subset (hs : t.find? s = some scope)
    (h : namespaces ⊆ scope.namespaces) : t.addNamespaces s namespaces = t := by
  refine ext_find? fun u => ?_
  rw [find?_addNamespaces]
  split
  · next hu => rw [hu, hs, Option.map_some, Scope.foldl_addNamespace_of_subset h]
  · rfl

def working (t : ScopeTree) (outer : ScopeId) (r : Resource) : ScopeId :=
  if r.IsMain then outer else t.next

def withWorking (t : ScopeTree) (outer : ScopeId) (r : Resource) (namespaces : List Name) :
    ScopeTree :=
  (if r.IsMain then t else t.nest outer r).addNamespaces (t.working outer r) namespaces

variable {outer : ScopeId} {r : Resource}

theorem withWorking_main (hr : r.IsMain) (hscope : t.find? outer = some scope) :
    t.withWorking outer r scope.namespaces = t := by
  rw [withWorking, working, if_pos hr, if_pos hr]
  exact addNamespaces_of_subset hscope (List.Subset.refl _)

theorem withWorking_nil_main (hr : r.IsMain) : t.withWorking outer r [] = t := if_pos hr

theorem find?_withWorking (hr : ¬ r.IsMain) (h : namespaces.Nodup) :
    (t.withWorking outer r namespaces).find? u =
      if u = t.next then some ⟨some outer, some r, namespaces, ∅⟩ else t.find? u := by
  rw [withWorking, working, if_neg hr, if_neg hr, find?_addNamespaces, find?_nest]
  split
  · have hfold : namespaces.foldl Scope.addNamespace (.fresh (some outer) (some r)) =
        ⟨some outer, some r, namespaces, ∅⟩ := Scope.foldl_addNamespace_of_nodup h
    rw [Option.map_some, hfold]
  · rfl

theorem size_withWorking (hr : ¬ r.IsMain) :
    (t.withWorking outer r namespaces).size = t.size + 1 := by
  rw [withWorking, if_neg hr, size_addNamespaces, size_nest]

end ScopeTree

def making (c : ClassId) (outer : ScopeId) (r : Resource) (s : ScopeId) (namespaces : List Name) :
    List Event :=
  (if r.IsMain then [] else [.nested (some c) outer r]) ++ namespaces.map (.namespaceAdded s)

def Event.isOfMaking : Event → Bool
  | .nested _ _ _ | .namespaceAdded _ _ | .raised (.parentScopeMissing _ _) => true
  | _ => false

theorem isOfMaking_of_mem {c : ClassId} {outer s : ScopeId} {r : Resource} {namespaces : List Name}
    {e : Event} (h : e ∈ making c outer r s namespaces) : e.isOfMaking = true := by
  rcases List.mem_append.1 h with hnested | hadded
  · split at hnested
    · cases hnested
    · exact List.mem_singleton.1 hnested ▸ rfl
  · obtain ⟨ns, -, rfl⟩ := List.mem_map.1 hadded
    rfl

theorem now_follow_making (tr : Trace) (c : ClassId) (outer : ScopeId) (r : Resource)
    (namespaces : List Name) :
    let tree := tr.now.compilation.tree
    (tr.follow (making c outer r (tree.working outer r) namespaces)).now =
      { tr.now with compilation.tree := tree.withWorking outer r namespaces } := by
  have hadded (tr : Trace) (s : ScopeId) :
      (tr.follow (namespaces.map (.namespaceAdded s))).now =
        { tr.now with compilation.tree := tr.now.compilation.tree.addNamespaces s namespaces } := by
    induction namespaces generalizing tr with
    | nil => rfl
    | cons ns namespaces ih => exact ih _
  simp only [making, Trace.follow_append, hadded, ScopeTree.withWorking]
  split <;> rfl

theorem now_placed (tr : Trace) (c : ClassId) (outer : ScopeId) (r : Resource)
    (namespaces : List Name) {w : ScopeId} (hw : w = tr.now.compilation.tree.working outer r) :
    let tree := tr.now.compilation.tree.withWorking outer r namespaces
    (tr.follow (making c outer r w namespaces ++ [.closed (.ascent c), .placed c w])).now =
      ⟨tr.now.names, { tr.now.compilation with tree := tree }.register c w, tr.now.stack.tail⟩ := by
  rw [hw, Trace.follow_append]
  simp only [Trace.follow_cons, Trace.follow_nil, Trace.record, Moment.after, now_follow_making]

namespace Eval

variable {tr : Trace} {p : ClassId} {outer : ScopeId}

theorem nestFor_cases (c : ClassId) (outer : ScopeId) (r : Resource) (tr : Trace) :
    nestFor c outer r tr = .ok (tr.now.compilation.tree.working outer r)
        (tr.follow (making c outer r (tr.now.compilation.tree.working outer r) [])) ∨
      (nestFor c outer r tr = .error .stray tr ∧ tr.now.compilation.tree.find? outer = none) := by
  unfold nestFor making ScopeTree.working
  split
  · exact .inl rfl
  · cases hscope : tr.now.compilation.tree.find? outer with
    | some scope => exact .inl (nest_of_find? hscope r)
    | none => exact .inr ⟨bind_of_error (scopeAt_of_none hscope), rfl⟩

theorem addNamespaces_eq (s : ScopeId) (namespaces : List Name) (tr : Trace) :
    (namespaces.forM fun ns => record (.namespaceAdded s ns) : Eval PUnit) tr =
      .ok ⟨⟩ (tr.follow (namespaces.map (.namespaceAdded s))) := by
  induction namespaces generalizing tr with
  | nil => rfl
  | cons ns namespaces ih => exact ih (tr.record (.namespaceAdded s ns))

theorem nestBelow_of_find? {scope : Scope} (c : ClassId) (r : Resource)
    (hp : tr.now.compilation.classScope p = some outer)
    (hscope : tr.now.compilation.tree.find? outer = some scope) :
    nestBelow c p r tr = .ok (tr.now.compilation.tree.working outer r)
      (tr.follow (making c outer r (tr.now.compilation.tree.working outer r) scope.namespaces)) := by
  generalize hs : tr.now.compilation.tree.working outer r = s
  have hnested : nestFor c outer r tr = .ok s (tr.follow (making c outer r s [])) := by
    rcases nestFor_cases c outer r tr with h | h
    · rw [h, hs]
    · cases hscope.symm.trans h.2
  have hsplit : making c outer r s scope.namespaces =
      making c outer r s [] ++ scope.namespaces.map (.namespaceAdded s) := by
    simp [making]
  have hcompilation : compilation tr = .ok tr.now.compilation tr := rfl
  rw [nestBelow, bind_of_ok hcompilation, hp]
  refine (bind_of_ok (scopeAt_of_find? hscope)).trans ((bind_of_ok hnested).trans ?_)
  refine (bind_of_ok (addNamespaces_eq s _ _)).trans ?_
  rw [hsplit, Trace.follow_append]
  rfl

theorem nestBelow_cases (c p : ClassId) (r : Resource) (tr : Trace) :
    (∃ outer scope, tr.now.compilation.classScope p = some outer ∧
      tr.now.compilation.tree.find? outer = some scope ∧
      nestBelow c p r tr = .ok (tr.now.compilation.tree.working outer r)
        (tr.follow (making c outer r (tr.now.compilation.tree.working outer r)
          scope.namespaces))) ∨
      nestBelow c p r tr = .error (.failure (.evaluation (.parentScopeMissing c p)))
        (tr.record (.raised (.parentScopeMissing c p))) ∨
      nestBelow c p r tr = .error .stray tr := by
  have hcompilation : compilation tr = .ok tr.now.compilation tr := rfl
  cases hp : tr.now.compilation.classScope p with
  | none =>
    refine .inr (.inl ?_)
    rw [nestBelow, bind_of_ok hcompilation, hp]
    rfl
  | some outer =>
    cases hscope : tr.now.compilation.tree.find? outer with
    | some scope => exact .inl ⟨outer, scope, rfl, hscope, nestBelow_of_find? c r hp hscope⟩
    | none =>
      refine .inr (.inr ?_)
      rw [nestBelow, bind_of_ok hcompilation, hp]
      exact bind_of_error (scopeAt_of_none hscope)

section Along

variable {P : Trace → Prop}
  (hP : ∀ tr' e, tr'.journal.head? = some e → e.isOfMaking = true → P tr')
include hP

theorem along_making (c : ClassId) (outer : ScopeId) (r : Resource) (s : ScopeId)
    (namespaces : List Name) : ∀ tr' ∈ tr.onward (making c outer r s namespaces), P tr' := by
  intro tr' h
  obtain ⟨e, he, hhead⟩ := Trace.head_of_mem_onward h
  exact hP tr' e hhead (isOfMaking_of_mem he)

theorem along_nestFor (c : ClassId) (outer : ScopeId) (r : Resource) :
    (nestFor c outer r).Along tr P := by
  rcases nestFor_cases c outer r tr with hmade | ⟨hstray, -⟩
  · exact (along_of_final (final_of_ok hmade)).2 (along_making hP c outer r _ [])
  · exact along_of_silent (final_of_error hstray)

theorem along_nestBelow (c p : ClassId) (r : Resource) : (nestBelow c p r).Along tr P := by
  rcases nestBelow_cases c p r tr with ⟨outer, scope, -, -, hmade⟩ | hmissing | hstray
  · exact (along_of_final (final_of_ok hmade)).2 (along_making hP c outer r _ scope.namespaces)
  · exact (along_of_single (final_of_error hmissing)).2 (hP _ _ rfl rfl)
  · exact along_of_silent (final_of_error hstray)

end Along

end Eval

end ConfigClasses

import ConfigClasses.ScopeTree
import Mathlib.Data.List.Nodup

namespace ConfigClasses

@[simp] theorem Scope.parent_addNamespace (scope : Scope) (ns : Name) :
    (scope.addNamespace ns).parent = scope.parent := by
  unfold Scope.addNamespace
  split <;> rfl

@[simp] theorem Scope.resource_addNamespace (scope : Scope) (ns : Name) :
    (scope.addNamespace ns).resource = scope.resource := by
  unfold Scope.addNamespace
  split <;> rfl

theorem Scope.nodup_addNamespace {scope : Scope} (h : scope.namespaces.Nodup) (ns : Name) :
    (scope.addNamespace ns).namespaces.Nodup := by
  unfold Scope.addNamespace
  split
  · exact h
  · next hnew =>
    rw [← List.concat_eq_append]
    exact List.Nodup.concat hnew h

namespace ScopeTree

variable {t : ScopeTree}

section Operations

@[simp] theorem size_nest (o : ScopeId) (r : Resource) : (t.nest o r).size = t.size + 1 := by
  simp [nest, size]

@[simp] theorem size_addNamespace (s : ScopeId) (ns : Name) :
    (t.addNamespace s ns).size = t.size := by
  simp [addNamespace, size]

@[simp] theorem size_bind (s : ScopeId) (x : Name) (v : Value) : (t.bind s x v).size = t.size := by
  simp [bind, size]

theorem find?_eq_none {s : ScopeId} (h : t.size ≤ s.raw) : t.find? s = none :=
  Array.getElem?_eq_none h

theorem lt_size_of_find? {s : ScopeId} {scope : Scope} (h : t.find? s = some scope) :
    s.raw < t.size := by
  refine Nat.lt_of_not_le fun hs => ?_
  simp [find?_eq_none hs] at h

theorem lt_size_of_parent? {s o : ScopeId} (h : t.parent? s = some o) : s.raw < t.size := by
  obtain ⟨scope, hs, -⟩ := Option.bind_eq_some_iff.1 h
  exact lt_size_of_find? hs

theorem find?_nest (s o : ScopeId) (r : Resource) :
    (t.nest o r).find? s = if s = t.next then some (.fresh (some o) (some r)) else t.find? s := by
  obtain ⟨n⟩ := s
  simp [nest, find?, next, size, Array.getElem?_push]

theorem find?_nest_of_lt {s : ScopeId} (o : ScopeId) (r : Resource) (h : s.raw < t.size) :
    (t.nest o r).find? s = t.find? s := by
  rw [find?_nest, if_neg]
  rintro rfl
  exact Nat.lt_irrefl _ h

theorem parent?_nest_of_lt {s : ScopeId} (o : ScopeId) (r : Resource) (h : s.raw < t.size) :
    (t.nest o r).parent? s = t.parent? s := by
  rw [parent?, parent?, find?_nest_of_lt o r h]

theorem parent?_nest_next (o : ScopeId) (r : Resource) :
    (t.nest o r).parent? t.next = some o := by
  simp [parent?, find?_nest, Scope.fresh]

theorem find?_addNamespace (s u : ScopeId) (ns : Name) :
    (t.addNamespace s ns).find? u =
      if u = s then (t.find? u).map (·.addNamespace ns) else t.find? u := by
  obtain ⟨n⟩ := s
  obtain ⟨m⟩ := u
  simp [addNamespace, find?, Array.getElem?_modify, eq_comm]

theorem find?_bind (s u : ScopeId) (x : Name) (v : Value) :
    (t.bind s x v).find? u = if u = s then (t.find? u).map (·.bind x v) else t.find? u := by
  obtain ⟨n⟩ := s
  obtain ⟨m⟩ := u
  simp [bind, find?, Array.getElem?_modify, eq_comm]

@[simp] theorem parent?_addNamespace (s u : ScopeId) (ns : Name) :
    (t.addNamespace s ns).parent? u = t.parent? u := by
  unfold parent?
  rw [find?_addNamespace]
  split <;> cases t.find? u <;> simp

@[simp] theorem parent?_bind (s u : ScopeId) (x : Name) (v : Value) :
    (t.bind s x v).parent? u = t.parent? u := by
  unfold parent?
  rw [find?_bind]
  split <;> cases t.find? u <;> simp [Scope.bind]

end Operations

def Ordered (t : ScopeTree) : Prop := ∀ s o, t.parent? s = some o → o.raw < s.raw

theorem ordered_initial : initial.Ordered := by
  intro s o h
  have hs : s.raw < 1 := lt_size_of_parent? h
  obtain rfl : s = .top := congrArg ScopeId.mk (by omega : s.raw = 0)
  simp [parent?, find?, initial, Scope.fresh, ScopeId.top] at h

theorem Ordered.nest (h : t.Ordered) {o : ScopeId} (r : Resource) (ho : o.raw < t.size) :
    (t.nest o r).Ordered := by
  intro s p hp
  by_cases hs : s = t.next
  · subst hs
    obtain rfl : o = p := by simpa [parent?_nest_next] using hp
    exact ho
  · apply h s p
    simpa [parent?, find?_nest, hs] using hp

theorem Ordered.addNamespace (h : t.Ordered) (s : ScopeId) (ns : Name) :
    (t.addNamespace s ns).Ordered := by
  intro u o hu
  exact h u o (by simpa using hu)

theorem Ordered.bind (h : t.Ordered) (s : ScopeId) (x : Name) (v : Value) :
    (t.bind s x v).Ordered := by
  intro u o hu
  exact h u o (by simpa using hu)

theorem ancestorsFrom_eq (h : t.Ordered) {n m : Nat} {s : ScopeId} (hn : s.raw < n)
    (hm : s.raw < m) : t.ancestorsFrom n s = t.ancestorsFrom m s := by
  induction n generalizing m s with
  | zero => omega
  | succ n ih =>
    cases m with
    | zero => omega
    | succ m =>
      simp only [ancestorsFrom]
      cases hp : t.parent? s with
      | none => rfl
      | some o =>
        have ho := h s o hp
        simp only [Option.elim_some, ih (s := o) (m := m) (by omega) (by omega)]

theorem ancestors_of_parent? (h : t.Ordered) {s o : ScopeId} (hp : t.parent? s = some o) :
    t.ancestors s = s :: t.ancestors o := by
  have ho := h s o hp
  simp [ancestors, ancestorsFrom, hp, ancestorsFrom_eq h ho (Nat.lt_succ_self o.raw)]

theorem mem_ancestors_self (t : ScopeTree) (s : ScopeId) : s ∈ t.ancestors s := by
  simp [ancestors, ancestorsFrom]

theorem lookupFrom_eq (t : ScopeTree) (x : Name) (n : Nat) (s : ScopeId) :
    t.lookupFrom x n s = (t.ancestorsFrom n s).findSome? (t.lookupLocal · x) := by
  induction n generalizing s with
  | zero => rfl
  | succ n ih =>
    simp only [lookupFrom, ancestorsFrom, List.findSome?_cons]
    cases t.lookupLocal s x with
    | some v => rfl
    | none =>
      cases t.parent? s with
      | none => rfl
      | some o => exact ih o

theorem lookup_eq (t : ScopeTree) (s : ScopeId) (x : Name) :
    t.lookup s x = (t.ancestors s).findSome? (t.lookupLocal · x) :=
  t.lookupFrom_eq x (s.raw + 1) s

theorem lookup_isSome {s : ScopeId} {x : Name} :
    (t.lookup s x).isSome ↔ ∃ a ∈ t.ancestors s, (t.lookupLocal a x).isSome := by
  rw [lookup_eq, List.findSome?_isSome_iff]

theorem lookup_of_parent? (h : t.Ordered) {s o : ScopeId} (hp : t.parent? s = some o) (x : Name) :
    t.lookup s x = (t.lookupLocal s x).or (t.lookup o x) := by
  rw [lookup_eq, lookup_eq, ancestors_of_parent? h hp, List.findSome?_cons]
  cases t.lookupLocal s x <;> rfl

end ScopeTree

end ConfigClasses

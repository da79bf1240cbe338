import ConfigClasses.Proofs.Ensures
import ConfigClasses.Proofs.InternalError
import ConfigClasses.Proofs.Representation

namespace ConfigClasses

open Eval

namespace ScopeTree

inductive Finding (t : ScopeTree) (x : Name) : ScopeId → Option Value → Prop
  | here {s : ScopeId} {v : Value} (h : t.lookupLocal s x = some v) : Finding t x s (some v)
  | last {s : ScopeId} (hs : s.raw < t.size) (h : t.lookupLocal s x = none)
      (hp : t.parent? s = none) : Finding t x s none
  | further {s o : ScopeId} {found : Option Value} (h : t.lookupLocal s x = none)
      (hp : t.parent? s = some o) (ho : Finding t x o found) : Finding t x s found

/-- No scope on the way from `s` out to `u` binds the variable, `u` itself not counted. -/
def Sees (t : ScopeTree) (s u : ScopeId) (x : Name) : Prop :=
  u ∈ t.ancestors s ∧ ∀ a ∈ (t.ancestors s).takeWhile (· ≠ u), t.lookupLocal a x = none

instance (t : ScopeTree) (s u : ScopeId) (x : Name) : Decidable (t.Sees s u x) :=
  inferInstanceAs (Decidable (_ ∧ _))

variable {t : ScopeTree} {s u o : ScopeId} {x y : Name} {v : Value}

theorem Formed.finding (h : t.Formed) (hs : s.raw < t.size) (x : Name) :
    t.Finding x s (t.lookup s x) := by
  generalize hn : s.raw = n
  induction n using Nat.strongRecOn generalizing s with
  | ind n ih =>
    subst hn
    cases hx : t.lookupLocal s x with
    | some v =>
      have hfound : t.lookup s x = some v := by simp [lookup, lookupFrom, hx]
      exact hfound ▸ .here hx
    | none =>
      rcases h.top_or_parent hs with ⟨-, hp⟩ | ⟨o, hp, ho⟩
      · have hnone : t.lookup s x = none := by simp [lookup, lookupFrom, hx, hp]
        exact hnone ▸ .last hs hx hp
      · rw [lookup_of_parent? h.ordered hp, hx]
        exact .further hx hp (ih o.raw ho (Nat.lt_trans ho hs) rfl)

theorem ancestorsFrom_bind (n : Nat) :
    (t.bind u x v).ancestorsFrom n s = t.ancestorsFrom n s := by
  induction n generalizing s with
  | zero => rfl
  | succ n ih =>
    simp only [ancestorsFrom, parent?_bind]
    cases t.parent? s with
    | none => rfl
    | some o => simp [ih]

theorem ancestors_bind : (t.bind u x v).ancestors s = t.ancestors s :=
  ancestorsFrom_bind _

theorem lookupLocal_bind (hu : u.raw < t.size) (hx : t.lookupLocal u x = none) :
    (t.bind u x v).lookupLocal s y = if s = u ∧ y = x then some v else t.lookupLocal s y := by
  rw [lookupLocal, lookupLocal, find?_bind]
  by_cases hs : s = u
  · subst hs
    obtain ⟨scope, hscope⟩ : ∃ scope, t.find? s = some scope := ⟨_, Array.getElem?_eq_getElem hu⟩
    have hnew : x ∉ scope.bindings := by
      rw [lookupLocal, hscope, Option.bind_some] at hx
      rw [← Std.TreeMap.isSome_getElem?_iff_mem, hx]
      simp
    have hsame : compare x y = .eq ↔ y = x := Std.LawfulEqCmp.compare_eq_iff_eq.trans eq_comm
    simp [hscope, Scope.bind, Std.TreeMap.getElem?_insertIfNew, hnew, hsame]
  · simp [hs]

theorem findSome?_of_new {f g : ScopeId → Option Value}
    (hg : ∀ a, g a = if a = u then some v else f a) (l : List ScopeId) :
    l.findSome? g =
      if u ∈ l ∧ ∀ a ∈ l.takeWhile (· ≠ u), f a = none then some v else l.findSome? f := by
  induction l with
  | nil => simp
  | cons a l ih =>
    rw [List.findSome?_cons, List.findSome?_cons, hg]
    by_cases ha : a = u
    · simp [ha]
    · rw [if_neg ha, ih]
      cases hf : f a with
      | some w => simp [ha, hf]
      | none => simp [ha, hf, Ne.symm ha]

theorem lookup_bind (hu : u.raw < t.size) (hx : t.lookupLocal u x = none) :
    (t.bind u x v).lookup s y = if y = x ∧ t.Sees s u x then some v else t.lookup s y := by
  rw [lookup_eq, lookup_eq, ancestors_bind]
  by_cases hy : y = x
  · subst hy
    have hnew (a : ScopeId) :
        (t.bind u y v).lookupLocal a y = if a = u then some v else t.lookupLocal a y := by
      simp [lookupLocal_bind hu hx]
    rw [findSome?_of_new hnew]
    simp [Sees]
  · simp [lookupLocal_bind hu hx, hy]

theorem lookupLocal_nest (hs : s.raw < t.size) (r : Resource) :
    (t.nest o r).lookupLocal s x = t.lookupLocal s x := by
  rw [lookupLocal, lookupLocal, find?_nest_of_lt o r hs]

theorem lookupFrom_nest (h : t.Ordered) (r : Resource) (n : Nat) (hs : s.raw < t.size) :
    (t.nest o r).lookupFrom x n s = t.lookupFrom x n s := by
  induction n generalizing s with
  | zero => rfl
  | succ n ih =>
    simp only [lookupFrom, lookupLocal_nest hs, parent?_nest_of_lt o r hs]
    cases hp : t.parent? s with
    | none => rfl
    | some p => simp only [Option.bind_some, ih (Nat.lt_trans (h s p hp) hs)]

theorem lookup_nest (h : t.Ordered) (r : Resource) (hs : s.raw < t.size) :
    (t.nest o r).lookup s x = t.lookup s x :=
  lookupFrom_nest h r _ hs

theorem lookup_nest_next (h : t.Ordered) (r : Resource) (ho : o.raw < t.size) :
    (t.nest o r).lookup t.next x = t.lookup o x := by
  have hnone : (t.nest o r).lookupLocal t.next x = none := by
    simp [lookupLocal, find?_nest, Scope.fresh]
  rw [lookup_of_parent? (h.nest r ho) (parent?_nest_next o r), hnone, Option.none_or,
    lookup_nest h r ho]

end ScopeTree

theorem bindIn_of_lookupLocal {tr : Trace} {u : ScopeId} {x : Name} {scope : Scope}
    (hscope : tr.now.compilation.tree.find? u = some scope) (v : Value) :
    bindIn u x v tr = match tr.now.compilation.tree.lookupLocal u x with
      | some _ => .error (.failure (.rebinding x)) tr
      | none => .ok () (tr.record (.bound u x v)) := by
  rw [bindIn, bind_of_ok (scopeAt_of_find? hscope), ScopeTree.lookupLocal, hscope, Option.bind_some]
  cases scope.bindings[x]? <;> rfl

theorem nearest_binding (i : Instant) (k : Nat) :
    let t := (i.compilation k).tree
    (∀ s x, s.raw < t.size →
        t.Finding x s (t.lookup s x) ∧
          t.lookup s x = (t.ancestors s).findSome? (t.lookupLocal · x)) ∧
      ∀ tr : Trace, tr.now.compilation = i.compilation k → ∀ u, u.raw < t.size →
        (∀ x v w, t.lookupLocal u x = some w →
          bindIn u x v tr = .error (.failure (.rebinding x)) tr) ∧
        (∀ x v, t.lookupLocal u x = none →
          ∃ tr', bindIn u x v tr = .ok () tr' ∧ ∀ s y, tr'.now.compilation.tree.lookup s y =
            if y = x ∧ t.Sees s u x then some v else t.lookup s y) ∧
        ∀ owner r, ∃ tr', nest owner u r tr = .ok t.next tr' ∧
          (∀ s y, s.raw < t.size → tr'.now.compilation.tree.lookup s y = t.lookup s y) ∧
          ∀ y, tr'.now.compilation.tree.lookup t.next y = t.lookup u y := by
  intro t
  obtain ⟨_, _, hchronicle, -, hcomp⟩ := i.chronicle_any k
  have hformed : t.Formed := (hcomp ▸ hchronicle.formed).tree
  refine ⟨fun s x hs => ⟨hformed.finding hs x, t.lookup_eq s x⟩, fun tr htr u hu => ?_⟩
  have htree : tr.now.compilation.tree = t := congrArg Compilation.tree htr
  obtain ⟨scope, hscope⟩ : ∃ scope, tr.now.compilation.tree.find? u = some scope :=
    ⟨_, Array.getElem?_eq_getElem (htree ▸ hu)⟩
  have hbind (x : Name) (v : Value) := bindIn_of_lookupLocal (x := x) hscope v
  rw [htree] at hbind
  refine ⟨fun x v w hx => ?_, fun x v hx => ?_, fun owner r => ?_⟩
  · rw [hbind, hx]
  · refine ⟨tr.record (.bound u x v), by rw [hbind, hx], fun s y => ?_⟩
    rw [← ScopeTree.lookup_bind hu hx, ← htree]
    rfl
  · refine ⟨_, htree ▸ nest_of_find? hscope r, fun s y hs => ?_, fun y => ?_⟩
    · rw [← ScopeTree.lookup_nest hformed.ordered r hs, ← htree]
      rfl
    · rw [← ScopeTree.lookup_nest_next hformed.ordered r hu, ← htree]
      rfl

def boundAround : Instant :=
  .upTo
    [.define "base" none
      (some [.bind .top (.text "port") (.bool false), .nest .here .ofScope,
        .nest (.number ⟨2⟩) .ofScope, .bind (.number ⟨2⟩) (.text "port") (.bool true),
        .fail "no port"])]
    (.step (.evaluate (.named "base") .top (.titled (.number ⟨0⟩) (.number ⟨0⟩)))) 14

theorem boundAround_nearest :
    let t := (boundAround.compilation 0).tree
    let port : Name := ⟨3⟩
    t.Finding port ⟨3⟩ (some (.bool true)) ∧ t.Finding port ⟨1⟩ (some (.bool false)) ∧
      bindIn ⟨2⟩ port .undef boundAround.trace =
        .error (.failure (.rebinding port)) boundAround.trace ∧
      ∃ tr', bindIn ⟨1⟩ port .undef boundAround.trace = .ok () tr' ∧
        tr'.now.compilation.tree.lookup ⟨1⟩ port = some .undef ∧
        tr'.now.compilation.tree.lookup ⟨3⟩ port = some (.bool true) := by
  intro t port
  obtain ⟨hfound, hchanges⟩ := nearest_binding boundAround 0
  have hinner : t.lookup ⟨3⟩ port = some (.bool true) := by decide +kernel
  have houter : t.lookup ⟨1⟩ port = some (.bool false) := by decide +kernel
  have htr : boundAround.trace.now.compilation = boundAround.compilation 0 := rfl
  obtain ⟨-, hnew, -⟩ := hchanges _ htr ⟨1⟩ (by decide +kernel)
  obtain ⟨tr', hbind, hlookup⟩ := hnew port .undef (by decide +kernel)
  refine ⟨hinner ▸ (hfound ⟨3⟩ port (by decide +kernel)).1,
    houter ▸ (hfound ⟨1⟩ port (by decide +kernel)).1, ?_, tr', hbind, ?_, ?_⟩
  · exact (hchanges _ htr ⟨2⟩ (by decide +kernel)).1 port .undef (.bool true) (by decide +kernel)
  · rw [hlookup, if_pos (by decide +kernel)]
  · rw [hlookup, if_neg (by decide +kernel)]
    exact hinner

end ConfigClasses

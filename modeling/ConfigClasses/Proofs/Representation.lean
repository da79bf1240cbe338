import ConfigClasses.Proofs.Instant
import ConfigClasses.Proofs.Registration
import ConfigClasses.Proofs.ScopeOrder

namespace ConfigClasses

namespace ScopeTree

variable {t : ScopeTree}

def Inner (s : ScopeId) (scope : Scope) : Prop :=
  (∃ r, scope.resource = some r) ∧ ∃ o, scope.parent = some o ∧ o.raw < s.raw

structure Formed (t : ScopeTree) : Prop where
  top : ∃ scope, t.find? .top = some scope ∧ scope.parent = none ∧ scope.resource = none
  inner : ∀ s scope, t.find? s = some scope → s ≠ .top → Inner s scope
  namespaces : ∀ s scope, t.find? s = some scope → scope.namespaces.Nodup

/-- The scopes met on the way out from a scope, each the parent of the one before. The way ends at a
scope of the tree that has no parent. -/
inductive Outward (t : ScopeTree) : ScopeId → List ScopeId → Prop
  | last {s : ScopeId} (hs : s.raw < t.size) (h : t.parent? s = none) : Outward t s [s]
  | further {s o : ScopeId} {around : List ScopeId} (h : t.parent? s = some o)
      (ho : Outward t o around) : Outward t s (s :: around)

namespace Formed

theorem initial : ScopeTree.initial.Formed := by
  have htop {s : ScopeId} {scope : Scope} (h : ScopeTree.initial.find? s = some scope) :
      s = .top ∧ scope = .fresh none none := by
    have hs : s.raw < 1 := lt_size_of_find? h
    obtain rfl : s = .top := congrArg ScopeId.mk (by omega : s.raw = 0)
    exact ⟨rfl, (Option.some.inj h).symm⟩
  constructor
  case top => exact ⟨_, rfl, rfl, rfl⟩
  case inner => exact fun s scope h hs => (hs (htop h).1).elim
  case namespaces =>
    intro s scope h
    rw [(htop h).2]
    exact List.nodup_nil

theorem top_lt (h : t.Formed) : 0 < t.size := by
  obtain ⟨scope, hscope, -⟩ := h.top
  exact lt_size_of_find? hscope

theorem ordered (h : t.Formed) : t.Ordered := by
  intro s o hp
  obtain ⟨scope, hs, ho⟩ := Option.bind_eq_some_iff.1 hp
  by_cases htop : s = .top
  · obtain ⟨scope', hs', hnone, -⟩ := h.top
    subst htop
    cases hs.symm.trans hs'
    cases hnone.symm.trans ho
  · obtain ⟨-, o', ho', hlt⟩ := h.inner s scope hs htop
    cases ho'.symm.trans ho
    exact hlt

theorem nest (h : t.Formed) {outer : ScopeId} (r : Resource) (ho : outer.raw < t.size) :
    (t.nest outer r).Formed := by
  have htop : ScopeId.top ≠ t.next := fun he => Nat.ne_of_lt h.top_lt (congrArg ScopeId.raw he)
  constructor
  case top => simpa only [find?_nest, htop, if_false] using h.top
  case inner =>
    intro s scope hs hne
    rw [find?_nest] at hs
    split at hs
    · next hnew =>
      cases hs
      exact ⟨⟨r, rfl⟩, outer, rfl, hnew ▸ ho⟩
    · exact h.inner s scope hs hne
  case namespaces =>
    intro s scope hs
    rw [find?_nest] at hs
    split at hs
    · cases hs
      exact List.nodup_nil
    · exact h.namespaces s scope hs

theorem rewrite (h : t.Formed) {t' : ScopeTree} {u : ScopeId} {f : Scope → Scope}
    (hfind : ∀ s, t'.find? s = if s = u then (t.find? s).map f else t.find? s)
    (hparent : ∀ scope, (f scope).parent = scope.parent)
    (hresource : ∀ scope, (f scope).resource = scope.resource)
    (hnodup : ∀ scope, scope.namespaces.Nodup → (f scope).namespaces.Nodup) : t'.Formed := by
  have hold {s : ScopeId} {scope' : Scope} (hs : t'.find? s = some scope') :
      ∃ scope, t.find? s = some scope ∧ (scope' = f scope ∨ scope' = scope) := by
    rw [hfind] at hs
    split at hs
    · obtain ⟨scope, hscope, rfl⟩ := Option.map_eq_some_iff.1 hs
      exact ⟨scope, hscope, .inl rfl⟩
    · exact ⟨scope', hs, .inr rfl⟩
  constructor
  case top =>
    obtain ⟨scope, hscope, hp, hr⟩ := h.top
    rw [hfind, hscope]
    split
    · exact ⟨f scope, rfl, (hparent scope).trans hp, (hresource scope).trans hr⟩
    · exact ⟨scope, rfl, hp, hr⟩
  case inner =>
    intro s scope' hs hne
    obtain ⟨scope, hscope, rfl | rfl⟩ := hold hs
    · simpa only [Inner, hparent, hresource] using h.inner s scope hscope hne
    · exact h.inner s scope' hscope hne
  case namespaces =>
    intro s scope' hs
    obtain ⟨scope, hscope, rfl | rfl⟩ := hold hs
    · exact hnodup scope (h.namespaces s scope hscope)
    · exact h.namespaces s scope' hscope

theorem addNamespace (h : t.Formed) (s : ScopeId) (ns : Name) : (t.addNamespace s ns).Formed :=
  h.rewrite (fun u => find?_addNamespace s u ns) (Scope.parent_addNamespace · ns)
    (Scope.resource_addNamespace · ns) fun _ hn => Scope.nodup_addNamespace hn ns

theorem bind (h : t.Formed) (s : ScopeId) (x : Name) (v : Value) : (t.bind s x v).Formed :=
  h.rewrite (fun u => find?_bind s u x v) (fun _ => rfl) (fun _ => rfl) fun _ hn => hn

theorem top_or_parent (h : t.Formed) {s : ScopeId} (hs : s.raw < t.size) :
    (s = .top ∧ t.parent? s = none) ∨ ∃ o, t.parent? s = some o ∧ o.raw < s.raw := by
  by_cases htop : s = .top
  · obtain ⟨scope, hscope, hp, -⟩ := h.top
    exact .inl ⟨htop, by simp [parent?, htop, hscope, hp]⟩
  · obtain ⟨scope, hscope⟩ : ∃ scope, t.find? s = some scope :=
      ⟨_, Array.getElem?_eq_getElem (by exact hs)⟩
    obtain ⟨-, o, hp, ho⟩ := h.inner s scope hscope htop
    exact .inr ⟨o, by simp [parent?, hscope, hp], ho⟩

theorem outward_ancestors (h : t.Formed) {s : ScopeId} (hs : s.raw < t.size) :
    t.Outward s (t.ancestors s) ∧ (t.ancestors s).getLast? = some .top := by
  generalize hn : s.raw = n
  induction n using Nat.strongRecOn generalizing s with
  | ind n ih =>
    subst hn
    rcases h.top_or_parent hs with ⟨htop, hp⟩ | ⟨o, hp, ho⟩
    · have hancestors : t.ancestors s = [s] := by simp [ancestors, ancestorsFrom, hp]
      rw [hancestors]
      exact ⟨.last hs hp, congrArg some htop⟩
    · obtain ⟨hout, hlast⟩ := ih o.raw ho (Nat.lt_trans ho hs) rfl
      rw [ancestors_of_parent? h.ordered hp]
      exact ⟨.further hp hout, by simp [List.getLast?_cons, hlast]⟩

end Formed

namespace Outward

variable {s : ScopeId} {around : List ScopeId}

theorem lt_size (h : t.Outward s around) : ∀ a ∈ around, a.raw < t.size := by
  induction h with
  | last hs hp => simpa using hs
  | further hp ho ih => exact List.forall_mem_cons.2 ⟨lt_size_of_parent? hp, ih⟩

theorem le_start (h : t.Outward s around) (ht : t.Ordered) : ∀ a ∈ around, a.raw ≤ s.raw := by
  induction h with
  | last hs hp => simp
  | further hp ho ih =>
    have hlt := ht _ _ hp
    exact List.forall_mem_cons.2
      ⟨Nat.le_refl _, fun a ha => Nat.le_of_lt (Nat.lt_of_le_of_lt (ih a ha) hlt)⟩

theorem decreasing (h : t.Outward s around) (ht : t.Ordered) :
    around.Pairwise fun a b => b.raw < a.raw := by
  induction h with
  | last hs hp => simp
  | further hp ho ih =>
    refine List.pairwise_cons.2 ⟨fun b hb => ?_, ih⟩
    exact Nat.lt_of_le_of_lt (ho.le_start ht b hb) (ht _ _ hp)

end Outward

end ScopeTree

namespace Compilation

variable {k : Compilation}

structure Formed (k : Compilation) : Prop where
  tree : k.tree.Formed
  tags_nodup : k.tags.toList.Nodup
  tagged : ∀ n, n ∈ k.tags.toList ↔ k.IsTagged n
  evaluated_nodup : k.evaluated.toList.Nodup
  listed : ∀ c, c ∈ k.evaluated.toList ↔ k.IsEvaluated c
  placed : ∀ c, k.IsEvaluated c ↔ (k.classScope c).isSome

theorem isEvaluated_iff_isSome {c : ClassId} : k.IsEvaluated c ↔ (k.classScope c).isSome := by
  rw [isEvaluated_iff, Option.isSome_iff_exists]

namespace Formed

theorem initial : Compilation.initial.Formed where
  tree := .initial
  tags_nodup := List.nodup_nil
  tagged n := by simp [Compilation.initial, IsTagged]
  evaluated_nodup := List.nodup_nil
  listed := listed_initial
  placed _ := isEvaluated_iff_isSome

theorem withTree (h : k.Formed) {t : ScopeTree} (ht : t.Formed) : Formed { k with tree := t } :=
  ⟨ht, h.tags_nodup, h.tagged, h.evaluated_nodup, h.listed, fun _ => isEvaluated_iff_isSome⟩

theorem tag (h : k.Formed) (name : Name) : (k.tag name).Formed := by
  by_cases hname : k.IsTagged name
  · rwa [Compilation.tag, if_pos hname]
  · have htags : (k.tag name).tags.toList = k.tags.toList ++ [name] := by simp [Compilation.tag, hname]
    constructor
    case tree => simpa using h.tree
    case tags_nodup =>
      rw [htags, ← List.concat_eq_append]
      exact List.Nodup.concat (mt (h.tagged name).1 hname) h.tags_nodup
    case tagged =>
      intro n
      rw [htags, isTagged_tag, ← h.tagged n, List.mem_append, List.mem_singleton, or_comm]
    case evaluated_nodup => simpa using h.evaluated_nodup
    case listed => exact Listed.tag h.listed name
    case placed => exact fun _ => isEvaluated_iff_isSome

theorem register (h : k.Formed) (c : ClassId) (s : ScopeId) : (k.register c s).Formed := by
  by_cases hc : k.IsEvaluated c
  · rwa [register_of_isEvaluated c s hc]
  · have hevaluated : (k.register c s).evaluated.toList = k.evaluated.toList ++ [c] := by
      simp [Compilation.register, hc]
    have htags : (k.register c s).tags = k.tags := by simp [Compilation.register, hc]
    constructor
    case tree => simpa using h.tree
    case tags_nodup => rw [htags]; exact h.tags_nodup
    case tagged => simpa [htags] using h.tagged
    case evaluated_nodup =>
      rw [hevaluated, ← List.concat_eq_append]
      exact List.Nodup.concat (mt (h.listed c).1 hc) h.evaluated_nodup
    case listed => exact Listed.register h.listed c s
    case placed => exact fun _ => isEvaluated_iff_isSome

end Formed

end Compilation

theorem ClassTable.Permits.nested_lt {β : Type} {t : ClassTable β} {tr : Trace}
    {owner : Option ClassId} {outer : ScopeId} {r : Resource}
    (h : t.Permits tr (.nested owner outer r)) : outer.raw < tr.now.compilation.tree.size := by
  cases owner with
  | none => exact h.2.2
  | some c => exact h.2.2.1

theorem ClassTable.Permits.formed {β : Type} {t : ClassTable β} {tr : Trace} {e : Event}
    (he : t.Permits tr e) (h : tr.now.compilation.Formed) :
    (tr.record e).now.compilation.Formed := by
  cases e with
  | opened a | closed a | interned text | raised e => exact h
  | tagged name => exact h.tag name
  | nested owner outer r => exact h.withTree (h.tree.nest r he.nested_lt)
  | namespaceAdded s ns => exact h.withTree (h.tree.addNamespace s ns)
  | bound s x v => exact h.withTree (h.tree.bind s x v)
  | placed c s | assigned c s => exact h.register c s
  | reset => exact .initial

theorem ClassTable.Chronicle.formed {β : Type} {t : ClassTable β} {tr : Trace}
    {Next : ClassTable β → ClassTable β → Prop} (h : Chronicle Next t tr) :
    tr.now.compilation.Formed := by
  induction h with
  | start => exact .initial
  | record h he ih => exact he.formed ih
  | resume h hp ht names ih => exact ih

theorem compilation_formed (i : Instant) (k : Nat) :
    (i.compilation k).Formed ∧
      ∀ s, s.raw < (i.compilation k).tree.size →
        let around := (i.compilation k).tree.ancestors s
        (i.compilation k).tree.Outward s around ∧
          around.Pairwise (fun a b => b.raw < a.raw) ∧
          (∀ a ∈ around, a.raw < (i.compilation k).tree.size) ∧
          around.getLast? = some .top := by
  obtain ⟨t, tr, h, -, hcomp⟩ := i.chronicle_any k
  have hformed := hcomp ▸ h.formed
  refine ⟨hformed, fun s hs => ?_⟩
  obtain ⟨hout, hlast⟩ := hformed.tree.outward_ancestors hs
  exact ⟨hout, hout.decreasing hformed.tree.ordered, hout.lt_size, hlast⟩

def resetInBody : Instant :=
  .upTo
    [.define "base" none
      (some [.reset, .assign (.number ⟨7⟩) (.number ⟨9⟩), .assign (.number ⟨7⟩) .top,
        .nest .top (.titled (.number ⟨0⟩) (.number ⟨0⟩)), .nest (.number ⟨1⟩) .ofScope,
        .addNamespace (.number ⟨2⟩) (.text "ssh"), .addNamespace (.number ⟨2⟩) (.text "ssh"),
        .fail "no port"])]
    (.step (.evaluate (.named "base") .top (.titled (.number ⟨0⟩) (.number ⟨0⟩)))) 17

theorem resetInBody_formed :
    let k := resetInBody.compilation 0
    k.classScope ⟨7⟩ = some ⟨9⟩ ∧ k.tree.size = 3 ∧ k.Formed ∧
      k.tree.Outward ⟨2⟩ (k.tree.ancestors ⟨2⟩) ∧ (k.tree.ancestors ⟨2⟩).getLast? = some .top := by
  intro k
  have hsize : k.tree.size = 3 := by decide +kernel
  obtain ⟨hformed, hancestors⟩ := compilation_formed resetInBody 0
  obtain ⟨hout, -, -, hlast⟩ := hancestors ⟨2⟩ (by decide +kernel)
  exact ⟨by decide +kernel, hsize, hformed, hout, hlast⟩

end ConfigClasses

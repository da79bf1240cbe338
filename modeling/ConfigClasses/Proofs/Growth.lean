import ConfigClasses.Proofs.Instant
import ConfigClasses.Proofs.Starts

namespace ConfigClasses

structure Scope.Continues (s s' : Scope) : Prop where
  parent : s'.parent = s.parent
  resource : s'.resource = s.resource
  namespaces : s.namespaces <+: s'.namespaces
  bindings : ∀ (x : Name) (v : Value), s.bindings[x]? = some v → s'.bindings[x]? = some v

namespace Scope.Continues

theorem refl (s : Scope) : s.Continues s := ⟨rfl, rfl, List.prefix_refl _, fun _ _ h => h⟩

theorem trans {s s' s'' : Scope} (h : s.Continues s') (h' : s'.Continues s'') :
    s.Continues s'' where
  parent := h'.parent.trans h.parent
  resource := h'.resource.trans h.resource
  namespaces := h.namespaces.trans h'.namespaces
  bindings x v hv := h'.bindings x v (h.bindings x v hv)

theorem addNamespace (s : Scope) (ns : Name) : s.Continues (s.addNamespace ns) := by
  unfold Scope.addNamespace
  split
  · exact refl s
  · exact ⟨rfl, rfl, List.prefix_append _ _, fun _ _ h => h⟩

theorem bind (s : Scope) (x : Name) (v : Value) : s.Continues (s.bind x v) := by
  refine ⟨rfl, rfl, List.prefix_refl _, fun y w hw => ?_⟩
  have hy : y ∈ s.bindings := by
    rw [← Std.TreeMap.isSome_getElem?_iff_mem, hw]
    rfl
  -- A variable that has a value keeps it.
  have hne : ¬ (compare x y = .eq ∧ x ∉ s.bindings) := by
    rintro ⟨heq, hx⟩
    exact hx (Std.LawfulEqCmp.eq_of_compare heq ▸ hy)
  simp only [Scope.bind, Std.TreeMap.getElem?_insertIfNew, if_neg hne, hw]

end Scope.Continues

structure ScopeTree.Continues (t t' : ScopeTree) : Prop where
  size : t.size ≤ t'.size
  scope : ∀ s scope, t.find? s = some scope →
    ∃ scope', t'.find? s = some scope' ∧ scope.Continues scope'

namespace ScopeTree.Continues

theorem refl (t : ScopeTree) : t.Continues t :=
  ⟨Nat.le_refl _, fun _ scope h => ⟨scope, h, .refl _⟩⟩

theorem trans {t t' t'' : ScopeTree} (h : t.Continues t') (h' : t'.Continues t'') :
    t.Continues t'' := by
  refine ⟨Nat.le_trans h.size h'.size, fun s scope hs => ?_⟩
  obtain ⟨scope', hs', hc⟩ := h.scope s scope hs
  obtain ⟨scope'', hs'', hc'⟩ := h'.scope s scope' hs'
  exact ⟨scope'', hs'', hc.trans hc'⟩

theorem nest (t : ScopeTree) (outer : ScopeId) (r : Resource) : t.Continues (t.nest outer r) := by
  refine ⟨by simp, fun s scope hs => ⟨scope, ?_, .refl _⟩⟩
  rw [find?_nest_of_lt outer r (lt_size_of_find? hs), hs]

theorem addNamespace (t : ScopeTree) (s : ScopeId) (ns : Name) :
    t.Continues (t.addNamespace s ns) := by
  refine ⟨by simp, fun u scope hu => ?_⟩
  rw [find?_addNamespace, hu]
  split
  · exact ⟨_, rfl, .addNamespace scope ns⟩
  · exact ⟨scope, rfl, .refl _⟩

theorem bind (t : ScopeTree) (s : ScopeId) (x : Name) (v : Value) :
    t.Continues (t.bind s x v) := by
  refine ⟨by simp, fun u scope hu => ?_⟩
  rw [find?_bind, hu]
  split
  · exact ⟨_, rfl, .bind scope x v⟩
  · exact ⟨scope, rfl, .refl _⟩

end ScopeTree.Continues

structure Compilation.Continues (k k' : Compilation) : Prop where
  tree : k.tree.Continues k'.tree
  tags : k.tags.toList <+: k'.tags.toList
  evaluated : k.evaluated.toList <+: k'.evaluated.toList
  classScope : ∀ c s, k.classScope c = some s → k'.classScope c = some s

namespace Compilation.Continues

variable {k k' k'' : Compilation}

theorem refl (k : Compilation) : k.Continues k :=
  ⟨.refl _, List.prefix_refl _, List.prefix_refl _, fun _ _ h => h⟩

theorem trans (h : k.Continues k') (h' : k'.Continues k'') : k.Continues k'' where
  tree := h.tree.trans h'.tree
  tags := h.tags.trans h'.tags
  evaluated := h.evaluated.trans h'.evaluated
  classScope c s hs := h'.classScope c s (h.classScope c s hs)

theorem isEvaluated (h : k.Continues k') {c : ClassId} (hc : k.IsEvaluated c) :
    k'.IsEvaluated c := by
  obtain ⟨s, hs⟩ := isEvaluated_iff.1 hc
  exact isEvaluated_of_classScope (h.classScope c s hs)

theorem withTree {t : ScopeTree} (h : k.tree.Continues t) : k.Continues { k with tree := t } :=
  ⟨h, List.prefix_refl _, List.prefix_refl _, fun _ _ h => h⟩

theorem register (k : Compilation) (c : ClassId) (s : ScopeId) :
    k.Continues (k.register c s) := by
  by_cases hc : k.IsEvaluated c
  · rw [register_of_isEvaluated c s hc]
    exact refl k
  · have hscope (d : ClassId) (u : ScopeId) (hu : k.classScope d = some u) :
        (k.register c s).classScope d = some u := classScope_register c d s hu
    rw [Compilation.register, if_neg hc] at hscope ⊢
    exact ⟨.refl _, List.prefix_refl _, by simp, hscope⟩

theorem tag (k : Compilation) (name : Name) : k.Continues (k.tag name) := by
  constructor
  case tree => simpa using .refl k.tree
  case tags =>
    unfold Compilation.tag
    split <;> simp
  case evaluated => simp
  case classScope => simp

end Compilation.Continues

theorem continues_after (m : Moment) {e : Event} (he : e ≠ .reset) :
    m.compilation.Continues (m.after e).compilation := by
  cases e with
  | reset => exact (he rfl).elim
  | tagged name => exact .tag _ name
  | placed c s | assigned c s => exact .register _ c s
  | nested owner outer r => exact .withTree (.nest _ outer r)
  | namespaceAdded s ns => exact .withTree (.addNamespace _ s ns)
  | bound s x v => exact .withTree (.bind _ s x v)
  | opened a | closed a | interned text | raised e => exact .refl _

theorem continues_ofJournal (past : List Event) {later : List Event} (h : .reset ∉ later) :
    (Moment.ofJournal past).compilation.Continues
      (Moment.ofJournal (later ++ past)).compilation := by
  induction later with
  | nil => exact .refl _
  | cons e later ih =>
    have hlater := ih (List.not_mem_of_not_mem_cons h)
    exact hlater.trans (continues_after _ (List.ne_of_not_mem_cons h).symm)

namespace Ending

def isReply : Ending → Bool
  | .reply _ => true
  | _ => false

end Ending

theorem Session.run_append (s : Session) {commands : List Command} (later : List Command)
    (h : ∀ r ∈ (s.run commands).1, r.ending.isReply = true) :
    s.run (commands ++ later) =
      ((s.run commands).1 ++ ((s.run commands).2.run later).1,
        ((s.run commands).2.run later).2) := by
  induction commands generalizing s with
  | nil => rfl
  | cons command commands ih =>
    simp only [List.cons_append, Session.run] at h ⊢
    split
    · next reply hreply =>
      rw [hreply] at h
      rw [ih _ fun r hr => h r (List.mem_cons_of_mem _ hr)]
      rfl
    · next hending =>
      exfalso
      have hreply : (s.report command).1.ending.isReply = true := by
        apply h
        split <;> exact List.mem_cons_self
      cases hcase : (s.report command).1.ending with
      | reply r => exact hending r hcase
      | _ => simp [hcase, Ending.isReply] at hreply

theorem Session.run_cons (s : Session) (command : Command) (commands : List Command) :
    ∃ reports, (s.run (command :: commands)).1 = (s.report command).1 :: reports := by
  simp only [run]
  split
  · exact ⟨_, rfl⟩
  · exact ⟨[], rfl⟩

theorem journalOf_suffix (ps : List Passage) (current active : Nat) (qs : List Passage)
    {events events' : List Event} (h : events <+: events') (k : Nat) :
    journalOf (ps ++ [⟨current, active, events⟩]) k <:+
      journalOf (ps ++ ⟨current, active, events'⟩ :: qs) k := by
  have hlast : journalOf [⟨current, active, events⟩] k <:+
      journalOf [⟨current, active, events'⟩] k := by
    simp only [journalOf_singleton]
    split
    · exact List.reverse_suffix.2 h
    · exact List.suffix_refl _
  obtain ⟨newer, hnewer⟩ := hlast
  refine ⟨journalOf qs k ++ newer, ?_⟩
  rw [← List.singleton_append (l := qs), journalOf_append, journalOf_append, journalOf_append,
    ← hnewer]
  simp only [List.append_assoc]

namespace Instant

def Reached (i : Instant) : Prop := ∀ r ∈ (Session.initial.run i.done).1, r.ending.isReply = true

instance (i : Instant) : Decidable i.Reached :=
  inferInstanceAs (Decidable (∀ r ∈ _, _ = true))

/-- Both are instants of one session, and `j` is not the earlier one. -/
def UpTo (i j : Instant) : Prop :=
  (i.done = j.done ∧ i.next = j.next ∧ i.events <+: j.events) ∨
    (i.Reached ∧ i.done ++ [i.next] <+: j.done)

theorem UpTo.journal {i j : Instant} (h : i.UpTo j) (k : Nat) : i.journal k <:+ j.journal k := by
  unfold Instant.journal passages
  rcases h with ⟨hdone, -, hevents⟩ | ⟨hreached, later, hdone⟩
  · rw [before, before, ← hdone]
    exact journalOf_suffix _ _ _ [] hevents k
  · obtain ⟨reports, hreports⟩ := i.before.run_cons i.next later
    rw [← hdone, List.append_assoc, Session.run_append _ _ hreached, List.cons_append,
      List.nil_append, ← before, hreports]
    simp only [List.map_append, List.map_cons, List.append_assoc, List.cons_append]
    exact journalOf_suffix _ _ _ _ i.begun k

end Instant

theorem compilation_continues {i j : Instant} (h : i.UpTo j) (k : Nat) :
    ∃ later, j.journal k = later ++ i.journal k ∧
      (.reset ∉ later → (i.compilation k).Continues (j.compilation k)) := by
  obtain ⟨later, hlater⟩ := h.journal k
  refine ⟨later, hlater.symm, fun hreset => ?_⟩
  obtain ⟨_, tr, htr, hjournal, hcomp⟩ := i.chronicle_any k
  obtain ⟨_, tr', htr', hjournal', hcomp'⟩ := j.chronicle_any k
  have hgrowth := continues_ofJournal (i.journal k) hreset
  rwa [hlater, ← hjournal, ← hjournal', htr.ofJournal.1, htr'.ofJournal.1, hcomp, hcomp'] at hgrowth

def parentFails : Instant :=
  .upTo
    [.define "base" none (some [.bind .here (.text "port") (.bool true), .fail "no port"]),
      .define "web" (some "base") (some [])]
    (.step (.evaluate (.named "web") .top (.titled (.number ⟨0⟩) (.number ⟨0⟩)))) 14

def parentFailed : Instant := .upTo (parentFails.done ++ [parentFails.next]) parentFails.next 20

theorem parentFailed_continues :
    parentFails.UpTo parentFailed ∧ .reset ∉ parentFailed.journal 0 ∧
      (parentFails.compilation 0).tree.lookupLocal ⟨1⟩ ⟨4⟩ = some (.bool true) ∧
      ¬ (parentFails.compilation 0).IsEvaluated ⟨1⟩ ∧
      (parentFailed.compilation 0).IsEvaluated ⟨1⟩ ∧
      (parentFails.compilation 0).Continues (parentFailed.compilation 0) := by
  have hupTo : parentFails.UpTo parentFailed :=
    .inr ⟨by decide +kernel, List.prefix_refl _⟩
  have hreset : .reset ∉ parentFailed.journal 0 := by decide +kernel
  obtain ⟨later, hlater, hcontinues⟩ := compilation_continues hupTo 0
  refine ⟨hupTo, hreset, by decide +kernel, by decide +kernel, by decide +kernel, hcontinues ?_⟩
  intro hmem
  exact hreset (hlater ▸ List.mem_append_left _ hmem)

end ConfigClasses

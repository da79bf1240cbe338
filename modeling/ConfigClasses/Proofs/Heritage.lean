import ConfigClasses.Proofs.Instant
import ConfigClasses.Proofs.Rooting

namespace ConfigClasses

theorem ScopeTree.Beneath.ancestors_subset {t : ScopeTree} (h : t.Ordered) {s o : ScopeId}
    (hb : t.Beneath s o) : t.ancestors o ⊆ t.ancestors s := by
  rcases hb with rfl | hp
  · exact List.Subset.refl _
  · rw [ancestors_of_parent? h hp]
    exact List.subset_cons_self s _

namespace ClassTable

variable {β : Type} {t : ClassTable β} {tr : Trace}

structure Heritage (t : ClassTable β) (k : Compilation) (c : ClassId) : Prop where
  listed : c ∈ k.evaluated.toList
  tagged : ∃ d, t.decl? c = some d ∧ k.IsTagged d.name
  lineage : ∃ above, t.lineage c = .ok above ∧ ∀ p ∈ above, k.IsEvaluated p ∧ k.Precedes p c
  parent : ∀ p, t.parentOf c = .ok (some p) →
    ∃ s o, k.classScope c = some s ∧ k.classScope p = some o ∧ k.tree.Beneath s o
  ancestors : ∀ a, t.inherits c a = true →
    ∃ s o, k.classScope c = some s ∧ k.classScope a = some o ∧ o ∈ k.tree.ancestors s ∧
      ∀ x, (k.tree.lookup o x).isSome → (k.tree.lookup s x).isSome

namespace Founded

theorem ancestry (h : t.Founded tr) {c : ClassId} (hc : tr.now.compilation.IsEvaluated c) :
    ∃ above, t.Ancestry c above ∧
      ∀ p ∈ above, tr.now.compilation.IsEvaluated p ∧ tr.now.compilation.Precedes p c := by
  -- Each step up leads to a class that was given its scope earlier.
  generalize hn : tr.now.compilation.evaluated.toList.idxOf c = n
  induction n using Nat.strongRecOn generalizing c with
  | ind n ih =>
    subst hn
    obtain ⟨s, hs⟩ := Compilation.isEvaluated_iff.1 hc
    rcases (h.rooted hs).parent with htop | ⟨p, o, hp, ho, hprecedes, -⟩
    · exact ⟨[], .top htop, by simp⟩
    · have hevaluated := Compilation.isEvaluated_of_classScope ho
      obtain ⟨above, habove, hall⟩ := ih _ hprecedes hevaluated rfl
      refine ⟨p :: above, .up hp habove, fun a ha => ?_⟩
      rcases List.mem_cons.1 ha with rfl | ha
      · exact ⟨hevaluated, hprecedes⟩
      · exact ⟨(hall a ha).1, Nat.lt_trans (hall a ha).2 hprecedes⟩

theorem beneath_parent (h : t.Founded tr) {c p : ClassId} {s : ScopeId}
    (hs : tr.now.compilation.classScope c = some s) (hp : t.parentOf c = .ok (some p)) :
    ∃ o, tr.now.compilation.classScope p = some o ∧ tr.now.compilation.tree.Beneath s o := by
  rcases (h.rooted hs).parent with htop | ⟨q, o, hq, ho, -, hbeneath⟩
  · cases htop.symm.trans hp
  · cases hq.symm.trans hp
    exact ⟨o, ho, hbeneath⟩

theorem ancestors_subset (h : t.Founded tr) {c a : ClassId} {above : List ClassId} {s : ScopeId}
    (habove : t.Ancestry c above) (ha : a ∈ above)
    (hs : tr.now.compilation.classScope c = some s) :
    ∃ o, tr.now.compilation.classScope a = some o ∧
      tr.now.compilation.tree.ancestors o ⊆ tr.now.compilation.tree.ancestors s := by
  induction habove generalizing s with
  | top => cases ha
  | up hp _ ih =>
    obtain ⟨o, ho, hbeneath⟩ := h.beneath_parent hs hp
    have hsub := hbeneath.ancestors_subset h.ordered
    rcases List.mem_cons.1 ha with rfl | ha
    · exact ⟨o, ho, hsub⟩
    · obtain ⟨u, hu, husub⟩ := ih ha ho
      exact ⟨u, hu, List.Subset.trans husub hsub⟩

theorem heritage (h : t.Founded tr) {c : ClassId} (hc : tr.now.compilation.IsEvaluated c) :
    t.Heritage tr.now.compilation c := by
  obtain ⟨s, hs⟩ := Compilation.isEvaluated_iff.1 hc
  obtain ⟨above, habove, hall⟩ := h.ancestry hc
  constructor
  case listed => exact (h.listed c).2 hc
  case tagged => exact (h.rooted hs).declared
  case lineage => exact ⟨above, lineage_eq_ok.2 habove, hall⟩
  case parent =>
    intro p hp
    obtain ⟨o, ho, hbeneath⟩ := h.beneath_parent hs hp
    exact ⟨s, o, hs, ho, hbeneath⟩
  case ancestors =>
    intro a ha
    obtain ⟨o, ho, hsub⟩ := h.ancestors_subset habove (habove.inherits_iff.1 ha) hs
    refine ⟨s, o, hs, ho, hsub (ScopeTree.mem_ancestors_self _ o), fun x hx => ?_⟩
    obtain ⟨u, hu, hbound⟩ := ScopeTree.lookup_isSome.1 hx
    exact ScopeTree.lookup_isSome.2 ⟨u, hsub hu, hbound⟩

end Founded

end ClassTable

theorem evaluated_heritage (i : Instant) (j k : Nat) (huses : i.UsesOnly j k)
    (hreset : .reset ∉ i.journal k) (hassigned : Unassigned (i.journal k))
    (hcallers : CallersInTree (i.journal k)) {c : ClassId}
    (hc : (i.compilation k).IsEvaluated c) : (i.table j).Heritage (i.compilation k) c := by
  obtain ⟨tr, h, hjournal, hcomp⟩ := huses.chronicle
  rw [← hjournal] at hreset hassigned hcallers
  rw [← hcomp] at hc ⊢
  exact (h.founded hreset hassigned hcallers).heritage hc

def includingInBody : Instant :=
  .upTo
    [.define "base" none (some [.bind .here (.text "port") (.bool true)]),
      .define "web" (some "base") (some [.includeClass "log" .here .ofScope]),
      .define "log" (some "base") (some [])]
    (.step (.evaluate (.named "web") .top (.titled (.number ⟨0⟩) (.number ⟨0⟩)))) 20

theorem includingInBody_heritage :
    (includingInBody.compilation 0).IsEvaluated ⟨1⟩ ∧
      ¬ (includingInBody.compilation 0).IsEvaluated ⟨2⟩ ∧
      (includingInBody.table 0).Heritage (includingInBody.compilation 0) ⟨1⟩ := by
  have huses : includingInBody.UsesOnly 0 0 := by decide +kernel
  have hreset : .reset ∉ includingInBody.journal 0 := by decide +kernel
  have hassigned : Unassigned (includingInBody.journal 0) := by decide +kernel
  have hcallers : CallersInTree (includingInBody.journal 0) := by decide +kernel
  have hc : (includingInBody.compilation 0).IsEvaluated ⟨1⟩ := by decide +kernel
  exact ⟨hc, by decide +kernel,
    evaluated_heritage includingInBody 0 0 huses hreset hassigned hcallers hc⟩

end ConfigClasses

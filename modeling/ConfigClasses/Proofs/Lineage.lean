import ConfigClasses.Proofs.Ways

namespace ConfigClasses.ClassTable

variable {β : Type} {t : ClassTable β}

inductive Ancestry (t : ClassTable β) : ClassId → List ClassId → Prop
  | top {c : ClassId} (h : t.parentOf c = .ok none) : Ancestry t c []
  | up {c p : ClassId} {cs : List ClassId} (h : t.parentOf c = .ok (some p))
      (hp : Ancestry t p cs) : Ancestry t c (p :: cs)

namespace Ancestry

theorem unique {c : ClassId} {cs ds : List ClassId} (h : t.Ancestry c cs)
    (h' : t.Ancestry c ds) : cs = ds := by
  induction h generalizing ds with
  | top hc =>
    cases h' with
    | top => rfl
    | up hc' => simp [hc] at hc'
  | up hc hp ih =>
    cases h' with
    | top hc' => simp [hc] at hc'
    | up hc' hp' =>
      obtain rfl : _ = _ := Option.some.inj (Except.ok.inj (hc.symm.trans hc'))
      rw [ih hp']

theorem tail_of_mem {c a : ClassId} {cs : List ClassId} (h : t.Ancestry c cs) (ha : a ∈ cs) :
    ∃ ds, t.Ancestry a ds ∧ ds.length < cs.length := by
  induction h with
  | top => cases ha
  | @up c p cs hc hp ih =>
    rcases List.mem_cons.1 ha with rfl | ha
    · exact ⟨cs, hp, by simp⟩
    · obtain ⟨ds, hd, hl⟩ := ih ha
      exact ⟨ds, hd, by simp only [List.length_cons]; omega⟩

theorem subset {c a : ClassId} {cs ds : List ClassId} (h : t.Ancestry c cs) (ha : a ∈ cs)
    (h' : t.Ancestry a ds) : ds ⊆ cs := by
  induction h with
  | top => cases ha
  | @up c p cs hc hp ih =>
    rcases List.mem_cons.1 ha with rfl | ha
    · rw [hp.unique h']
      exact List.subset_cons_self _ _
    · exact List.Subset.trans (ih ha) (List.subset_cons_self _ _)

theorem not_mem {c : ClassId} {cs : List ClassId} (h : t.Ancestry c cs) : c ∉ cs := by
  intro hc
  obtain ⟨ds, hd, hl⟩ := h.tail_of_mem hc
  rw [h.unique hd] at hl
  exact Nat.lt_irrefl _ hl

theorem nodup {c : ClassId} {cs : List ClassId} (h : t.Ancestry c cs) : (c :: cs).Nodup := by
  induction h with
  | top => simp
  | up hc hp ih => exact List.nodup_cons.2 ⟨(Ancestry.up hc hp).not_mem, ih⟩

theorem leads {c : ClassId} {cs : List ClassId} (h : t.Ancestry c cs) :
    ∃ d, t.Leads c cs d ∧ t.parentOf d = .ok none := by
  induction h with
  | top hc => exact ⟨_, .here, hc⟩
  | up hc _ ih =>
    obtain ⟨d, hleads, hd⟩ := ih
    exact ⟨d, .up hc hleads, hd⟩

theorem way {c : ClassId} {cs : List ClassId} (h : t.Ancestry c cs) :
    ∃ d, t.Way c cs d ∧ t.parentOf d = .ok none := by
  obtain ⟨d, hleads, hd⟩ := h.leads
  exact ⟨d, ⟨hleads, h.nodup, by simp [hd]⟩, hd⟩

end Ancestry

theorem Leads.ancestry {c d : ClassId} {cs : List ClassId} (h : t.Leads c cs d)
    (hd : t.parentOf d = .ok none) : t.Ancestry c cs := by
  induction h with
  | here => exact .top hd
  | up hc _ ih => exact .up hc (ih hd)

theorem lineage_eq_ok {c : ClassId} {cs : List ClassId} :
    t.lineage c = .ok cs ↔ t.Ancestry c cs := by
  constructor
  · intro h
    obtain ⟨cs', d, hway⟩ := t.exists_way c
    rw [hway.lineage] at h
    split at h
    · next hd =>
      cases h
      exact hway.leads.ancestry hd
    · cases h
    · cases h
  · intro h
    obtain ⟨d, hway, hd⟩ := h.way
    rw [hway.lineage, hd]

theorem Ancestry.inherits_iff {c a : ClassId} {cs : List ClassId} (h : t.Ancestry c cs) :
    t.inherits c a = true ↔ a ∈ cs := by
  obtain ⟨d, hway, hd⟩ := h.way
  simp [hway.inherits_iff, hd]

end ConfigClasses.ClassTable

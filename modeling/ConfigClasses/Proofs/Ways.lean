import ConfigClasses.ClassTable.Lineage
import Mathlib.Data.List.Nodup
import Mathlib.Data.List.Perm.Subperm
import Mathlib.Logic.Relation

namespace ConfigClasses.ClassTable

variable {β : Type} {t : ClassTable β} {a b c d p : ClassId} {cs : List ClassId}

theorem declared_of_parentOf (h : t.parentOf c ≠ .ok none) : c.raw < t.size := by
  by_contra hc
  apply h
  have hd : t.decl? c = none := Array.getElem?_eq_none (by simpa [size] using hc)
  simp [parentOf, hd]

theorem declared_of_parent (h : t.parentOf c = .ok (some p)) : c.raw < t.size :=
  declared_of_parentOf (by simp [h])

theorem parentOf_error {e : TableError} (h : t.parentOf c = .error e) :
    ∃ d parent, t.decl? c = some d ∧ d.parent = some parent ∧ t.findName? parent = none ∧
      e = .unknownParent c parent := by
  unfold parentOf at h
  split at h
  · cases h
  · next parent hparent =>
    obtain ⟨d, hd, hp⟩ := Option.bind_eq_some_iff.1 hparent
    split at h
    · cases h
    · next hnone => exact ⟨d, parent, hd, hp, hnone, (Except.error.inj h).symm⟩

theorem length_le_size (hn : cs.Nodup) (hs : ∀ c ∈ cs, c.raw < t.size) : cs.length ≤ t.size := by
  have hinj : Function.Injective ClassId.raw := by
    rintro ⟨a⟩ ⟨b⟩ h
    exact congrArg ClassId.mk h
  have hsub : cs.map ClassId.raw ⊆ List.range t.size := by
    intro n h
    obtain ⟨c, hc, rfl⟩ := List.mem_map.1 h
    exact List.mem_range.2 (hs c hc)
  simpa using ((hn.map hinj).subperm hsub).length_le

theorem mem_insertMany {seen : Std.TreeSet ClassId} :
    a ∈ seen.insertMany cs ↔ a ∈ cs ∨ a ∈ seen := by
  rw [Std.TreeSet.mem_insertMany_list, List.contains_iff_mem, or_comm]

theorem new_insert {seen : Std.TreeSet ClassId} (hn : (p :: cs).Nodup)
    (hs : ∀ a ∈ p :: cs, a ∉ seen) : ∀ a ∈ cs, a ∉ seen.insert p := by
  intro a ha hm
  rcases Std.TreeSet.mem_insert.1 hm with heq | hm
  · exact (List.nodup_cons.1 hn).1 (Std.LawfulEqCmp.eq_of_compare heq ▸ ha)
  · exact hs a (List.mem_cons_of_mem _ ha) hm

theorem not_mem_singleton (hn : (c :: cs).Nodup) : ∀ a ∈ cs, a ∉ ({c} : Std.TreeSet ClassId) := by
  intro a ha hm
  have hca : compare c a = .eq := by simpa using hm
  exact (List.nodup_cons.1 hn).1 (Std.LawfulEqCmp.eq_of_compare hca ▸ ha)

def Up (t : ClassTable β) (c p : ClassId) : Prop := t.parentOf c = .ok (some p)

inductive Leads (t : ClassTable β) : ClassId → List ClassId → ClassId → Prop
  | here {c : ClassId} : Leads t c [] c
  | up {c p d : ClassId} {cs : List ClassId} (h : t.parentOf c = .ok (some p))
      (hp : Leads t p cs d) : Leads t c (p :: cs) d

namespace Leads

theorem step (h : t.Leads c cs d) (hp : t.parentOf d = .ok (some p)) :
    t.Leads c (cs ++ [p]) p := by
  induction h with
  | here => exact .up hp .here
  | up hc _ ih => exact .up hc (ih hp)

theorem last_mem (h : t.Leads c cs d) : d ∈ c :: cs := by
  induction h with
  | here => exact List.mem_singleton_self _
  | up _ _ ih => exact List.mem_cons_of_mem _ ih

theorem declared (h : t.Leads c cs d) (hd : d.raw < t.size) : ∀ a ∈ c :: cs, a.raw < t.size := by
  induction h with
  | here => simpa using hd
  | up hc _ ih => exact List.forall_mem_cons.2 ⟨declared_of_parent hc, ih hd⟩

theorem length_le (h : t.Leads c cs d) (hn : (c :: cs).Nodup) : cs.length ≤ t.size := by
  -- The last class need not have a parent, so that it may be one that is not declared.
  have hdeclared : ∀ a ∈ (c :: cs).dropLast, a.raw < t.size := by
    clear hn
    induction h with
    | here => simp
    | up hc _ ih => exact List.forall_mem_cons.2 ⟨declared_of_parent hc, ih⟩
  simpa using length_le_size (hn.sublist (List.dropLast_sublist _)) hdeclared

theorem next (h : t.Leads c cs d) (hb : b ∈ c :: cs) (hp : t.parentOf b = .ok (some a)) :
    a ∈ cs ∨ b = d := by
  induction h with
  | here => exact .inr (List.mem_singleton.1 hb)
  | up hc _ ih =>
    rcases List.mem_cons.1 hb with rfl | hb
    · obtain rfl := Option.some.inj (Except.ok.inj (hc.symm.trans hp))
      exact .inl List.mem_cons_self
    · exact (ih hb).imp_left (List.mem_cons_of_mem _)

theorem transGen (h : t.Leads c cs d) : ∀ a ∈ cs, Relation.TransGen t.Up c a := by
  induction h with
  | here => simp
  | up hc _ ih => exact List.forall_mem_cons.2 ⟨.single hc, fun a ha => (ih a ha).head hc⟩

theorem climb (h : t.Leads c cs d) (hn : cs.Nodup) (steps : Nat) {seen : Std.TreeSet ClassId}
    (hs : ∀ a ∈ cs, a ∉ seen) :
    t.climb (cs.length + steps) seen c =
        cs.foldr prepend (t.climb steps (seen.insertMany cs) d) ∧
      ∀ a, t.meets a (cs.length + steps) seen c =
        (decide (a ∈ cs) || t.meets a steps (seen.insertMany cs) d) := by
  induction h generalizing seen with
  | here => simp
  | @up c p d cs hc _ ih =>
    obtain ⟨hclimb, hmeets⟩ := ih hn.of_cons (new_insert hn hs)
    have hps := hs p List.mem_cons_self
    have hlength : (p :: cs).length + steps = cs.length + steps + 1 := by
      simp only [List.length_cons]
      omega
    rw [Std.TreeSet.insertMany_cons, hlength]
    refine ⟨?_, fun a => ?_⟩
    · rw [ClassTable.climb, hc]
      simp only [hps, if_false, hclimb, List.foldr_cons]
    · rw [meets, hc]
      by_cases hpa : p = a
      · simp [hpa]
      · simp [hpa, Ne.symm hpa, hps, hmeets]

end Leads

/-- The classes of `cs` are new, the last of them is `d`, and no new class follows it. -/
structure Way (t : ClassTable β) (c : ClassId) (cs : List ClassId) (d : ClassId) : Prop where
  leads : t.Leads c cs d
  nodup : (c :: cs).Nodup
  full : ∀ p, t.parentOf d = .ok (some p) → p ∈ c :: cs

theorem Leads.extend (h : t.Leads c cs d) (hn : (c :: cs).Nodup) {left : Nat}
    (hleft : t.size ≤ cs.length + left) : ∃ cs' d', t.Way c cs' d' := by
  induction left generalizing cs d with
  | zero =>
    refine ⟨cs, d, h, hn, fun p hp => ?_⟩
    have hlength := length_le_size hn (h.declared (declared_of_parent hp))
    simp only [List.length_cons] at hlength
    omega
  | succ left ih =>
    by_cases hfull : ∀ p, t.parentOf d = .ok (some p) → p ∈ c :: cs
    · exact ⟨cs, d, h, hn, hfull⟩
    · obtain ⟨p, hp, hnew⟩ : ∃ p, t.parentOf d = .ok (some p) ∧ p ∉ c :: cs := by
        simpa only [not_forall, exists_prop] using hfull
      refine ih (h.step hp) ?_ (by simp only [List.length_append, List.length_singleton]; omega)
      exact List.nodup_append.2 ⟨hn, List.nodup_singleton p, by grind⟩

theorem exists_way (t : ClassTable β) (c : ClassId) : ∃ cs d, t.Way c cs d :=
  Leads.here.extend (List.nodup_singleton c) (Nat.le_add_left _ _)

@[simp] theorem foldr_prepend_ok (cs ds : List ClassId) :
    cs.foldr prepend (.ok ds) = .ok (cs ++ ds) := by
  induction cs with
  | nil => rfl
  | cons c cs ih => simp [ih, prepend]

@[simp] theorem foldr_prepend_cyclic (cs ds : List ClassId) :
    cs.foldr prepend (.error (.cyclicInheritance ds)) = .error (.cyclicInheritance (cs ++ ds)) := by
  induction cs with
  | nil => rfl
  | cons c cs ih => simp [ih, prepend]

@[simp] theorem foldr_prepend_unknown (cs : List ClassId) (parent : Name) :
    cs.foldr prepend (.error (.unknownParent c parent)) = .error (.unknownParent c parent) := by
  induction cs with
  | nil => rfl
  | cons c cs ih => simp [ih, prepend]

namespace Way

theorem length_lt (h : t.Way c cs d) (hd : t.parentOf d ≠ .ok none) : cs.length < t.size :=
  length_le_size h.nodup (h.leads.declared (declared_of_parentOf hd))

theorem seen (h : t.Way c cs d) (hp : t.parentOf d = .ok (some p)) :
    p ∈ ({c} : Std.TreeSet ClassId).insertMany cs := by
  rw [mem_insertMany]
  rcases List.mem_cons.1 (h.full p hp) with rfl | hp
  · exact .inr (by simp)
  · exact .inl hp

theorem walk (h : t.Way c cs d) :
    ∃ (steps : Nat) (seen : Std.TreeSet ClassId),
      t.climb t.size {c} c = cs.foldr prepend (t.climb steps seen d) ∧
      (∀ a, t.inherits c a = (decide (a ∈ cs) || t.meets a steps seen d)) ∧
      (t.parentOf d ≠ .ok none → steps ≠ 0) ∧ ∀ p, t.parentOf d = .ok (some p) → p ∈ seen := by
  have hsteps : cs.length + (t.size - cs.length) = t.size :=
    Nat.add_sub_cancel' (h.leads.length_le h.nodup)
  obtain ⟨hclimb, hmeets⟩ :=
    h.leads.climb h.nodup.of_cons (t.size - cs.length) (not_mem_singleton h.nodup)
  rw [hsteps] at hclimb hmeets
  exact ⟨_, _, hclimb, hmeets, fun hd => Nat.sub_ne_zero_of_lt (h.length_lt hd), fun _ => h.seen⟩

theorem lineage (h : t.Way c cs d) :
    t.lineage c = match t.parentOf d with
      | .ok none => .ok cs
      | .ok (some p) => .error (.cyclicInheritance (c :: cs ++ [p]))
      | .error e => .error e := by
  obtain ⟨steps, seen, hclimb, -, hsteps, hseen⟩ := h.walk
  unfold ClassTable.lineage
  rw [hclimb]
  cases hd : t.parentOf d with
  | error e =>
    obtain ⟨-, parent, -, -, -, rfl⟩ := parentOf_error hd
    obtain ⟨steps, rfl⟩ := Nat.exists_eq_add_one_of_ne_zero (hsteps (by simp [hd]))
    simp [ClassTable.climb, hd]
  | ok parent =>
    cases parent with
    | none => cases steps <;> simp [ClassTable.climb, hd]
    | some p =>
      obtain ⟨steps, rfl⟩ := Nat.exists_eq_add_one_of_ne_zero (hsteps (by simp [hd]))
      simp [ClassTable.climb, hd, hseen p hd]

theorem inherits_iff (h : t.Way c cs d) :
    t.inherits c a = true ↔ a ∈ cs ∨ t.parentOf d = .ok (some a) := by
  obtain ⟨steps, seen, -, hmeets, hsteps, hseen⟩ := h.walk
  have hlast : t.meets a steps seen d = true ↔ t.parentOf d = .ok (some a) := by
    cases hd : t.parentOf d with
    | error e => cases steps <;> simp [meets, hd]
    | ok parent =>
      cases parent with
      | none => cases steps <;> simp [meets, hd]
      | some p =>
        obtain ⟨steps, rfl⟩ := Nat.exists_eq_add_one_of_ne_zero (hsteps (by simp [hd]))
        simp [meets, hd, hseen p hd]
  rw [hmeets, Bool.or_eq_true, decide_eq_true_eq, hlast]

theorem next (h : t.Way c cs d) (hb : b ∈ c :: cs) (hp : t.parentOf b = .ok (some a)) :
    a ∈ cs ∨ t.parentOf d = .ok (some a) := by
  rcases h.leads.next hb hp with ha | rfl
  · exact .inl ha
  · exact .inr hp

end Way

theorem leads_of_unknown {last : ClassId} {parent : Name}
    (h : t.lineage c = .error (.unknownParent last parent)) :
    ∃ cs, t.Leads c cs last ∧ t.parentOf last = .error (.unknownParent last parent) := by
  obtain ⟨cs, d, hway⟩ := t.exists_way c
  rw [hway.lineage] at h
  cases hd : t.parentOf d with
  | ok parent => cases parent <;> simp [hd] at h
  | error e =>
    obtain ⟨_, _, -, -, -, rfl⟩ := parentOf_error hd
    rw [hd] at h
    cases h
    exact ⟨cs, hway.leads, hd⟩

theorem findName?_of_unknown {last : ClassId} {parent : Name}
    (h : t.lineage c = .error (.unknownParent last parent)) : t.findName? parent = none := by
  obtain ⟨-, -, hunknown⟩ := leads_of_unknown h
  obtain ⟨_, _, -, -, hnone, heq⟩ := parentOf_error hunknown
  cases heq
  exact hnone

theorem inherits_iff : t.inherits c a = true ↔ Relation.TransGen t.Up c a := by
  obtain ⟨cs, d, hway⟩ := t.exists_way c
  rw [hway.inherits_iff]
  constructor
  · rintro (ha | ha)
    · exact hway.leads.transGen a ha
    · rcases List.mem_cons.1 hway.leads.last_mem with rfl | hd
      · exact .single ha
      · exact (hway.leads.transGen d hd).tail ha
  · intro h
    induction h with
    | single hp => exact hway.next List.mem_cons_self hp
    | tail _ hp ih =>
      exact hway.next (ih.elim (List.mem_cons_of_mem _) fun hb => hway.full _ hb) hp

end ConfigClasses.ClassTable

import ConfigClasses.Proofs.ParentSequence

namespace ConfigClasses

namespace ClassTable

variable {β : Type}

/-- The search for `a` above a class without a bound. It has come to `d`, and `seen` holds the classes
that were met. -/
inductive Searching (t : ClassTable β) (a : ClassId) : Std.TreeSet ClassId → ClassId → Bool → Prop
  | found {seen : Std.TreeSet ClassId} {d : ClassId} (h : t.parentOf d = .ok (some a)) :
      Searching t a seen d true
  | again {seen : Std.TreeSet ClassId} {d p : ClassId} (h : t.parentOf d = .ok (some p))
      (hne : p ≠ a) (hp : p ∈ seen) : Searching t a seen d false
  | onward {seen : Std.TreeSet ClassId} {d p : ClassId} {b : Bool}
      (h : t.parentOf d = .ok (some p)) (hne : p ≠ a) (hp : p ∉ seen)
      (hrest : Searching t a (seen.insert p) p b) : Searching t a seen d b
  | over {seen : Std.TreeSet ClassId} {d : ClassId} (h : ∀ p, t.parentOf d ≠ .ok (some p)) :
      Searching t a seen d false

variable {t : ClassTable β} {a b c d : ClassId} {cs : List ClassId}

theorem Leads.searching {last : ClassId} (h : t.Leads d cs last) (hn : cs.Nodup)
    {seen : Std.TreeSet ClassId} (hs : ∀ x ∈ cs, x ∉ seen) {found : Bool}
    (hmet : a ∈ cs → found = true)
    (hlast : a ∉ cs → t.Searching a (seen.insertMany cs) last found) :
    t.Searching a seen d found := by
  induction h generalizing seen with
  | here => simpa using hlast
  | @up d p last cs hd _ ih =>
    by_cases hp : p = a
    · subst hp
      rw [hmet List.mem_cons_self]
      exact .found hd
    · refine .onward hd hp (hs p List.mem_cons_self) (ih hn.of_cons (new_insert hn hs) ?_ ?_)
      · exact fun ha => hmet (List.mem_cons_of_mem p ha)
      · intro ha
        rw [← Std.TreeSet.insertMany_cons]
        exact hlast (List.not_mem_cons_of_ne_of_not_mem (Ne.symm hp) ha)

theorem searching_inherits (t : ClassTable β) (c a : ClassId) :
    t.Searching a {c} c (t.inherits c a) := by
  obtain ⟨cs, d, hway⟩ := t.exists_way c
  have hfound : t.inherits c a = true ↔ a ∈ cs ∨ t.parentOf d = .ok (some a) := hway.inherits_iff
  refine hway.leads.searching hway.nodup.of_cons (not_mem_singleton hway.nodup)
    (fun ha => hfound.2 (.inl ha)) fun ha => ?_
  by_cases hd : t.parentOf d = .ok (some a)
  · rw [hfound.2 (.inr hd)]
    exact .found hd
  · rw [Bool.eq_false_iff.2 fun h => (hfound.1 h).elim ha hd]
    by_cases hp : ∃ p, t.parentOf d = .ok (some p)
    · obtain ⟨p, hp⟩ := hp
      exact .again hp (fun he => hd (he ▸ hp)) (hway.seen hp)
    · exact .over (not_exists.1 hp)

theorem inherits_trans (h : t.inherits a b = true) (h' : t.inherits b c = true) :
    t.inherits a c = true :=
  inherits_iff.2 ((inherits_iff.1 h).trans (inherits_iff.1 h'))

theorem Ancestry.not_inherits_self (h : t.Ancestry c cs) : t.inherits c c = false :=
  Bool.eq_false_iff.2 fun hc => h.not_mem (h.inherits_iff.1 hc)

theorem Ancestry.comparable (h : t.Ancestry c cs) (ha : a ∈ cs) (hb : b ∈ cs) (hne : a ≠ b) :
    t.inherits a b = true ∨ t.inherits b a = true := by
  induction h with
  | top => cases ha
  | up _ hp ih =>
    rcases List.mem_cons.1 ha with rfl | hap
    · exact .inl (hp.inherits_iff.2 (List.mem_of_ne_of_mem hne.symm hb))
    · rcases List.mem_cons.1 hb with rfl | hbp
      · exact .inr (hp.inherits_iff.2 hap)
      · exact ih hap hbp

theorem transGen_of_sequence (ht : t.Indexed) {k : Nat} (h : t.sequence c (k + 1) = some a) :
    Relation.TransGen t.Up c a := by
  induction k generalizing a with
  | zero => exact .single ((above?_eq_some ht).1 h)
  | succ k ih =>
    obtain ⟨b, hb, ha⟩ := Option.bind_eq_some_iff.1 h
    exact (ih hb).tail ((above?_eq_some ht).1 ha)

theorem inherits_self_iff (ht : t.Indexed) :
    t.inherits c c = true ↔
      ∃ cs, t.Loops c cs c ∧ t.lineage c = .error (.cyclicInheritance (c :: cs ++ [c])) := by
  constructor
  · intro h
    obtain ⟨cs, d, hway⟩ := t.exists_way c
    rcases hway.inherits_iff.1 h with hc | hd
    · exact ((List.nodup_cons.1 hway.nodup).1 hc).elim
    · refine ⟨cs, hway.loops ht hd, ?_⟩
      rw [hway.lineage, hd]
  · rintro ⟨cs, hloops, -⟩
    exact inherits_iff.2 (transGen_of_sequence ht hloops.sequence_next)

structure Relates (t : ClassTable β) : Prop where
  searching : ∀ c a, t.Searching a {c} c (t.inherits c a)
  closure : ∀ c a, t.inherits c a = true ↔ Relation.TransGen t.Up c a
  trans : ∀ a b c, t.inherits a b = true → t.inherits b c = true → t.inherits a c = true
  chain : ∀ c cs, t.lineage c = .ok cs → ∀ a, t.inherits c a = true ↔ a ∈ cs
  irrefl : ∀ c cs, t.lineage c = .ok cs → t.inherits c c = false
  comparable : ∀ c cs, t.lineage c = .ok cs → ∀ a ∈ cs, ∀ b ∈ cs, a ≠ b →
    t.inherits a b = true ∨ t.inherits b a = true
  self : ∀ c, t.inherits c c = true ↔
    ∃ cs, t.Loops c cs c ∧ t.lineage c = .error (.cyclicInheritance (c :: cs ++ [c]))

end ClassTable

theorem inheritance_relates (i : Instant) (r : Nat) : (i.table r).Relates where
  searching := (i.table r).searching_inherits
  closure _ _ := ClassTable.inherits_iff
  trans _ _ _ := ClassTable.inherits_trans
  chain _ _ h _ := (ClassTable.lineage_eq_ok.1 h).inherits_iff
  irrefl _ _ h := (ClassTable.lineage_eq_ok.1 h).not_inherits_self
  comparable _ _ h _ ha _ hb hne := (ClassTable.lineage_eq_ok.1 h).comparable ha hb hne
  self _ := ClassTable.inherits_self_iff (i.definedOver r).growsTo.indexed

def loopAndLine : Instant :=
  .upTo
    [.define "web" (some "base") none, .define "base" (some "core") none,
      .define "core" (some "base") none, .define "mall" (some "town") none,
      .define "shop" (some "mall") none, .define "kiosk" (some "shop") none]
    (.define "town" none none) 0

theorem loopAndLine_relates :
    let t := loopAndLine.table 0
    t.inherits ⟨0⟩ ⟨2⟩ = true ∧ t.inherits ⟨0⟩ ⟨0⟩ = false ∧
      (∃ cs, t.Loops ⟨1⟩ cs ⟨1⟩) ∧ Relation.TransGen t.Up ⟨5⟩ ⟨3⟩ ∧
      t.lineage ⟨5⟩ = .error (.unknownParent ⟨3⟩ ⟨6⟩) ∧ t.inherits ⟨5⟩ ⟨9⟩ = false := by
  intro t
  have hrelates := inheritance_relates loopAndLine 0
  obtain ⟨cs, hloops, -⟩ := (hrelates.self ⟨1⟩).1 (by decide +kernel)
  exact ⟨by decide +kernel, by decide +kernel, ⟨cs, hloops⟩,
    (hrelates.closure ⟨5⟩ ⟨3⟩).1 (by decide +kernel), by decide +kernel, by decide +kernel⟩

end ConfigClasses

import ConfigClasses.Proofs.Development
import ConfigClasses.Proofs.Lineage
import ConfigClasses.Proofs.Wording

namespace ConfigClasses

namespace ClassTable

variable {β : Type}

section

variable (t : ClassTable β)

def parentName? (c : ClassId) : Option Name := (t.decl? c).bind ClassDecl.parent

def named? (n : Name) : Option ClassId := t.ids.find? fun c => (t.decl? c).any (·.name = n)

def above? (c : ClassId) : Option ClassId := (t.parentName? c).bind t.named?

def sequence (c : ClassId) : Nat → Option ClassId
  | 0 => some c
  | k + 1 => (sequence c k).bind t.above?

structure Ends (c : ClassId) (cs : List ClassId) (d : ClassId) : Prop where
  terms : ∀ k, t.sequence c k = (c :: cs)[k]?
  last : (c :: cs).getLast? = some d

/-- The sequence from `c` starts with `c` and `cs`, which are all different, and then comes to `p`,
which is one of them. -/
structure Loops (c : ClassId) (cs : List ClassId) (p : ClassId) : Prop where
  terms : ∀ k ≤ cs.length + 1, t.sequence c k = (c :: cs ++ [p])[k]?
  nodup : (c :: cs).Nodup
  again : p ∈ c :: cs

/-- The walk up from `c` without a bound. It has come to `d`, the classes of `chain` are those above
`c` so far, and `seen` holds the classes that were met. -/
inductive Climbing (c : ClassId) :
    Std.TreeSet ClassId → List ClassId → ClassId → Except TableError (List ClassId) → Prop
  | unknown {seen : Std.TreeSet ClassId} {chain : List ClassId} {d : ClassId} {e : TableError}
      (h : t.parentOf d = .error e) : Climbing c seen chain d (.error e)
  | top {seen : Std.TreeSet ClassId} {chain : List ClassId} {d : ClassId}
      (h : t.parentOf d = .ok none) : Climbing c seen chain d (.ok chain)
  | again {seen : Std.TreeSet ClassId} {chain : List ClassId} {d p : ClassId}
      (h : t.parentOf d = .ok (some p)) (hp : p ∈ seen) :
      Climbing c seen chain d (.error (.cyclicInheritance (c :: chain ++ [p])))
  | onward {seen : Std.TreeSet ClassId} {chain : List ClassId} {d p : ClassId}
      {found : Except TableError (List ClassId)} (h : t.parentOf d = .ok (some p)) (hp : p ∉ seen)
      (hrest : Climbing c (seen.insert p) (chain ++ [p]) p found) : Climbing c seen chain d found

end

variable {t : ClassTable β} {c d p : ClassId} {cs chain : List ClassId}

theorem named?_eq_some (h : t.Indexed) {n : Name} :
    t.named? n = some c ↔ ∃ d, t.decl? c = some d ∧ d.name = n := by
  constructor
  · intro hc
    have hfound := List.find?_some hc
    simpa [Option.any_eq_true] using hfound
  · rintro ⟨d, hd, rfl⟩
    have hmem : c ∈ t.ids := by
      obtain ⟨k⟩ := c
      exact List.mem_map.2 ⟨k, List.mem_range.2 (lt_size_of_decl? hd), rfl⟩
    -- The search comes to a class of this name, and no other class has it.
    cases hfound : t.named? d.name with
    | none =>
      have hnone := List.find?_eq_none.1 hfound c hmem
      simp [hd] at hnone
    | some c' =>
      obtain ⟨d', hd', hname⟩ : ∃ d', t.decl? c' = some d' ∧ d'.name = d.name := by
        have hc' := List.find?_some hfound
        simpa [Option.any_eq_true] using hc'
      rw [h.same_class hd' hd hname]

theorem findName?_eq_named? (h : t.Indexed) (n : Name) : t.findName? n = t.named? n :=
  Option.ext fun _ => (h n _).trans (named?_eq_some h).symm

theorem parentOf_eq (h : t.Indexed) (c : ClassId) :
    t.parentOf c = match t.parentName? c with
      | none => .ok none
      | some n => (t.named? n).elim (.error (.unknownParent c n)) fun p => .ok (some p) := by
  unfold parentOf
  rw [← parentName?]
  cases t.parentName? c with
  | none => rfl
  | some n =>
    simp only [findName?_eq_named? h]
    cases t.named? n <;> rfl

theorem above?_eq_some (h : t.Indexed) : t.above? c = some p ↔ t.parentOf c = .ok (some p) := by
  rw [above?, parentOf_eq h]
  cases t.parentName? c with
  | none => simp
  | some n => cases hn : t.named? n <;> simp [hn]

theorem parentName?_of_top (h : t.Indexed) (hc : t.parentOf c = .ok none) :
    t.parentName? c = none := by
  rw [parentOf_eq h] at hc
  cases hn : t.parentName? c with
  | none => rfl
  | some n =>
    simp only [hn] at hc
    cases hp : t.named? n <;> simp [hp] at hc

theorem sequence_succ (t : ClassTable β) (c : ClassId) (k : Nat) :
    t.sequence c (k + 1) = (t.above? c).bind (t.sequence · k) := by
  induction k with
  | zero => cases hc : t.above? c <;> simp [sequence, hc]
  | succ k ih =>
    rw [sequence, ih, Option.bind_assoc]
    rfl

theorem Leads.sequence (h : t.Leads c cs d) (ht : t.Indexed) :
    ∀ k ≤ cs.length, t.sequence c k = (c :: cs)[k]? := by
  induction h with
  | here =>
    intro k hk
    obtain rfl := Nat.le_zero.1 hk
    rfl
  | up hc _ ih =>
    intro k hk
    cases k with
    | zero => rfl
    | succ k =>
      rw [sequence_succ, (above?_eq_some ht).2 hc]
      exact ih k (Nat.le_of_succ_le_succ hk)

theorem Leads.getLast? (h : t.Leads c cs d) : (c :: cs).getLast? = some d := by
  induction h with
  | here => rfl
  | up _ _ ih => simpa [List.getLast?_cons_cons] using ih

theorem Leads.sequence_length (h : t.Leads c cs d) (ht : t.Indexed) :
    t.sequence c cs.length = some d := by
  rw [h.sequence ht cs.length (Nat.le_refl _), ← h.getLast?, List.getLast?_eq_getElem?]
  rfl

theorem Leads.ends (h : t.Leads c cs d) (ht : t.Indexed) (hd : t.above? d = none) :
    t.Ends c cs d := by
  refine ⟨fun k => ?_, h.getLast?⟩
  by_cases hk : k ≤ cs.length
  · exact h.sequence ht k hk
  · have hnone (j : Nat) : t.sequence c (cs.length + 1 + j) = none := by
      induction j with
      | zero => simp [ClassTable.sequence, h.sequence_length ht, hd]
      | succ j ih => simp [ClassTable.sequence, ih]
    obtain ⟨j, rfl⟩ := Nat.exists_eq_add_of_lt (Nat.lt_of_not_le hk)
    rw [Nat.add_right_comm, hnone]
    exact (List.getElem?_eq_none (by simp only [List.length_cons]; omega)).symm

theorem Way.loops (h : t.Way c cs d) (ht : t.Indexed) (hd : t.parentOf d = .ok (some p)) :
    t.Loops c cs p := by
  refine ⟨fun k hk => ?_, h.nodup, h.full p hd⟩
  rcases Nat.le_succ_iff.1 hk with hk | rfl
  · rw [h.leads.sequence ht k hk, List.getElem?_append_left (Nat.lt_succ_of_le hk)]
  · have hlast := h.leads.sequence_length ht
    simp [ClassTable.sequence, hlast, (above?_eq_some ht).2 hd]

namespace Ends

theorem unique (h : t.Ends c cs d) {cs' : List ClassId} {d' : ClassId} (h' : t.Ends c cs' d') :
    cs = cs' ∧ d = d' := by
  have hcs : c :: cs = c :: cs' := List.ext_getElem? fun k => (h.terms k).symm.trans (h'.terms k)
  obtain ⟨-, rfl⟩ := List.cons.inj hcs
  exact ⟨rfl, Option.some.inj (h.last.symm.trans h'.last)⟩

theorem sequence_eq_none (h : t.Ends c cs d) : t.sequence c (cs.length + 1) = none := by
  rw [h.terms]
  exact List.getElem?_eq_none (Nat.le_refl _)

theorem not_endless (h : t.Ends c cs d) : ¬ ∀ k, (t.sequence c k).isSome := by
  intro hsome
  have hlast := hsome (cs.length + 1)
  simp [h.sequence_eq_none] at hlast

end Ends

namespace Loops

theorem sequence_of_le (h : t.Loops c cs p) {k : Nat} (hk : k ≤ cs.length) :
    t.sequence c k = (c :: cs)[k]? := by
  rw [h.terms k (Nat.le_succ_of_le hk), List.getElem?_append_left (Nat.lt_succ_of_le hk)]

theorem sequence_next (h : t.Loops c cs p) : t.sequence c (cs.length + 1) = some p := by
  rw [h.terms _ (Nat.le_refl _)]
  simp

theorem recurs (h : t.Loops c cs p) (k : Nat) :
    ∃ j ≤ cs.length, t.sequence c k = t.sequence c j := by
  induction k with
  | zero => exact ⟨0, Nat.zero_le _, rfl⟩
  | succ k ih =>
    obtain ⟨j, hj, hsame⟩ := ih
    have hnext : t.sequence c (k + 1) = t.sequence c (j + 1) := by
      rw [ClassTable.sequence, ClassTable.sequence, hsame]
    rcases Nat.lt_or_eq_of_le hj with hlt | rfl
    · exact ⟨j + 1, hlt, hnext⟩
    -- The sequence has come to the class that it meets again, and goes on as after the first time.
    · obtain ⟨n, hn, hp⟩ := List.getElem_of_mem h.again
      have hn' : n ≤ cs.length := Nat.le_of_lt_succ hn
      refine ⟨n, hn', ?_⟩
      rw [hnext, h.sequence_next, h.sequence_of_le hn', List.getElem?_eq_getElem hn, hp]

theorem isSome (h : t.Loops c cs p) (k : Nat) : (t.sequence c k).isSome := by
  obtain ⟨j, hj, hsame⟩ := h.recurs k
  rw [hsame, h.sequence_of_le hj, List.getElem?_eq_getElem (Nat.lt_succ_of_le hj)]
  rfl

theorem not_ends (h : t.Loops c cs p) {cs' : List ClassId} : ¬ t.Ends c cs' d :=
  fun hends => hends.not_endless h.isSome

theorem length_le (h : t.Loops c cs p) {cs' : List ClassId} {p' : ClassId}
    (h' : t.Loops c cs' p') : cs'.length ≤ cs.length := by
  by_contra hlt
  -- The class that the shorter one meets again stands twice in the longer one.
  obtain ⟨n, hn, hp⟩ := List.getElem_of_mem h.again
  simp only [List.length_cons] at hn
  have hagain : (c :: cs')[n]? = (c :: cs')[cs.length + 1]? := by
    rw [← h'.sequence_of_le (by omega), ← h'.sequence_of_le (by omega), h.sequence_next,
      h.sequence_of_le (Nat.le_of_lt_succ hn), List.getElem?_eq_getElem hn, hp]
  have hsame := (List.getElem?_inj (by simp only [List.length_cons]; omega) h'.nodup).1 hagain
  omega

theorem unique (h : t.Loops c cs p) {cs' : List ClassId} {p' : ClassId} (h' : t.Loops c cs' p') :
    cs = cs' ∧ p = p' := by
  have hlength := Nat.le_antisymm (h'.length_le h) (h.length_le h')
  have hall : c :: cs ++ [p] = c :: cs' ++ [p'] := by
    refine List.ext_getElem? fun k => ?_
    by_cases hk : k ≤ cs.length + 1
    · rw [← h.terms k hk, ← h'.terms k (hlength ▸ hk)]
    · rw [List.getElem?_eq_none (by simp; omega), List.getElem?_eq_none (by simp; omega)]
  obtain ⟨hcs, hp⟩ := List.append_inj hall (by simp [hlength])
  exact ⟨(List.cons.inj hcs).2, List.singleton_inj.1 hp⟩

end Loops

theorem lineage_cases (ht : t.Indexed) (c : ClassId) :
    (∃ cs d, t.Ends c cs d ∧ t.parentName? d = none ∧ t.lineage c = .ok cs) ∨
    (∃ cs d n, t.Ends c cs d ∧ t.parentName? d = some n ∧ t.named? n = none ∧
      t.lineage c = .error (.unknownParent d n)) ∨
    ∃ cs p, t.Loops c cs p ∧ t.lineage c = .error (.cyclicInheritance (c :: cs ++ [p])) := by
  obtain ⟨cs, d, hway⟩ := t.exists_way c
  have hlineage := hway.lineage
  cases hd : t.parentOf d with
  | error e =>
    rw [hd] at hlineage
    obtain ⟨decl, n, hdecl, hn, hnone, rfl⟩ := parentOf_error hd
    have hname : t.parentName? d = some n := by rw [parentName?, hdecl, Option.bind_some, hn]
    rw [findName?_eq_named? ht] at hnone
    have hends := hway.leads.ends ht (by rw [above?, hname, Option.bind_some, hnone])
    exact .inr (.inl ⟨cs, d, n, hends, hname, hnone, hlineage⟩)
  | ok parent =>
    rw [hd] at hlineage
    cases parent with
    | none =>
      have hname := parentName?_of_top ht hd
      exact .inl ⟨cs, d, hway.leads.ends ht (by rw [above?, hname]; rfl), hname, hlineage⟩
    | some p => exact .inr (.inr ⟨cs, p, hway.loops ht hd, hlineage⟩)

theorem Leads.climbing {ds : List ClassId} {last : ClassId} (h : t.Leads d ds last) (hn : ds.Nodup)
    {seen : Std.TreeSet ClassId} (hs : ∀ a ∈ ds, a ∉ seen) {found : Except TableError (List ClassId)}
    (hlast : t.Climbing c (seen.insertMany ds) (chain ++ ds) last found) :
    t.Climbing c seen chain d found := by
  induction h generalizing seen chain with
  | here => simpa using hlast
  | @up d p last ds hd _ ih =>
    refine .onward hd (hs p List.mem_cons_self) (ih hn.of_cons (new_insert hn hs) ?_)
    simpa [Std.TreeSet.insertMany_cons] using hlast

theorem climbing_lineage (t : ClassTable β) (c : ClassId) :
    t.Climbing c {c} [] c (t.lineage c) := by
  obtain ⟨cs, d, hway⟩ := t.exists_way c
  refine hway.leads.climbing hway.nodup.of_cons (not_mem_singleton hway.nodup) ?_
  rw [hway.lineage]
  cases hd : t.parentOf d with
  | error e => exact .unknown hd
  | ok parent =>
    cases parent with
    | none => exact .top hd
    | some p => exact .again hd (hway.seen hd)

section

variable (ht : t.Indexed)
include ht

theorem lineage_ok_iff :
    t.lineage c = .ok cs ↔ ∃ d, t.Ends c cs d ∧ t.parentName? d = none := by
  rcases lineage_cases ht c with ⟨cs', d', hends, hname, hl⟩ | ⟨cs', d', n, hends, hname, -, hl⟩ |
    ⟨cs', p, hloops, hl⟩
  all_goals rw [hl]
  · constructor
    · rintro ⟨⟩
      exact ⟨d', hends, hname⟩
    · rintro ⟨d, hends', -⟩
      rw [(hends.unique hends').1]
  · refine ⟨nofun, ?_⟩
    rintro ⟨d, hends', hnone⟩
    rw [← (hends.unique hends').2, hname] at hnone
    cases hnone
  · exact ⟨nofun, fun ⟨d, hends, _⟩ => (hloops.not_ends hends).elim⟩

theorem lineage_unknown_iff {n : Name} :
    t.lineage c = .error (.unknownParent d n) ↔
      ∃ cs, t.Ends c cs d ∧ t.parentName? d = some n ∧ t.named? n = none := by
  rcases lineage_cases ht c with ⟨cs', d', hends, hname, hl⟩ |
    ⟨cs', d', n', hends, hname, hnone, hl⟩ | ⟨cs', p, hloops, hl⟩
  all_goals rw [hl]
  · refine ⟨nofun, ?_⟩
    rintro ⟨cs, hends', hsome, -⟩
    rw [← (hends.unique hends').2, hname] at hsome
    cases hsome
  · constructor
    · rintro ⟨⟩
      exact ⟨cs', hends, hname, hnone⟩
    · rintro ⟨cs, hends', hsome, -⟩
      obtain ⟨-, rfl⟩ := hends.unique hends'
      rw [Option.some.inj (hname.symm.trans hsome)]
  · exact ⟨nofun, fun ⟨cs, hends, _⟩ => (hloops.not_ends hends).elim⟩

theorem lineage_cyclic_iff {ds : List ClassId} :
    t.lineage c = .error (.cyclicInheritance ds) ↔
      ∃ cs p, t.Loops c cs p ∧ ds = c :: cs ++ [p] := by
  rcases lineage_cases ht c with ⟨cs', d', hends, -, hl⟩ | ⟨cs', d', n', hends, -, -, hl⟩ |
    ⟨cs', p', hloops, hl⟩
  all_goals rw [hl]
  · exact ⟨nofun, fun ⟨cs, p, hloops, _⟩ => (hloops.not_ends hends).elim⟩
  · exact ⟨nofun, fun ⟨cs, p, hloops, _⟩ => (hloops.not_ends hends).elim⟩
  · constructor
    · rintro ⟨⟩
      exact ⟨cs', p', hloops, rfl⟩
    · rintro ⟨cs, p, hloops', rfl⟩
      obtain ⟨rfl, rfl⟩ := hloops.unique hloops'
      rfl

theorem endless_iff : (∀ k, (t.sequence c k).isSome) ↔ ∃ cs p, t.Loops c cs p := by
  constructor
  · intro hsome
    rcases lineage_cases ht c with ⟨_, _, hends, -⟩ | ⟨_, _, _, hends, -⟩ | ⟨cs, p, hloops, -⟩
    · exact (hends.not_endless hsome).elim
    · exact (hends.not_endless hsome).elim
    · exact ⟨cs, p, hloops⟩
  · rintro ⟨cs, p, hloops⟩
    exact hloops.isSome

end

theorem mapError_eq_error {ε ε' α : Type} {found : Except ε α} {f : ε → ε'} {x : ε'} :
    found.mapError f = .error x ↔ ∃ e, found = .error e ∧ x = f e := by
  cases found <;> simp [Except.mapError, eq_comm]

structure Decides (t : ClassTable β) (names : Interner) (c : ClassId) : Prop where
  climbing : t.Climbing c {c} [] c (t.lineage c)
  ok : ∀ cs, t.lineage c = .ok cs ↔ ∃ d, t.Ends c cs d ∧ t.parentName? d = none
  distinct : ∀ cs, t.lineage c = .ok cs → (c :: cs).Nodup
  unknown : ∀ x y,
    (t.lineage c).mapError (TableError.told t names) = .error (.unknownParent x y) ↔
      ∃ cs d n, t.Ends c cs d ∧ t.parentName? d = some n ∧ t.named? n = none ∧
        x = t.display names d ∧ y = names.display n
  cyclic : (∃ shown,
    (t.lineage c).mapError (TableError.told t names) = .error (.cyclicInheritance shown)) ↔
      ∀ k, (t.sequence c k).isSome
  shown : ∀ shown,
    (t.lineage c).mapError (TableError.told t names) = .error (.cyclicInheritance shown) ↔
      ∃ cs p, t.Loops c cs p ∧ shown = (c :: cs ++ [p]).map (t.display names)

theorem told_cyclic_iff (ht : t.Indexed) (names : Interner) {shown : List String} :
    (t.lineage c).mapError (TableError.told t names) = .error (.cyclicInheritance shown) ↔
      ∃ cs p, t.Loops c cs p ∧ shown = (c :: cs ++ [p]).map (t.display names) := by
  rw [mapError_eq_error]
  constructor
  · rintro ⟨e, he, htold⟩
    cases e with
    | cyclicInheritance ds =>
      obtain ⟨cs, p, hloops, rfl⟩ := (lineage_cyclic_iff ht).1 he
      exact ⟨cs, p, hloops, Complaint.cyclicInheritance.inj htold⟩
    | _ => cases htold
  · rintro ⟨cs, p, hloops, rfl⟩
    exact ⟨_, (lineage_cyclic_iff ht).2 ⟨cs, p, hloops, rfl⟩, rfl⟩

theorem told_unknown_iff (ht : t.Indexed) (names : Interner) {x y : String} :
    (t.lineage c).mapError (TableError.told t names) = .error (.unknownParent x y) ↔
      ∃ cs d n, t.Ends c cs d ∧ t.parentName? d = some n ∧ t.named? n = none ∧
        x = t.display names d ∧ y = names.display n := by
  rw [mapError_eq_error]
  constructor
  · rintro ⟨e, he, htold⟩
    cases e with
    | unknownParent d n =>
      obtain ⟨cs, hends, hname, hnone⟩ := (lineage_unknown_iff ht).1 he
      obtain ⟨rfl, rfl⟩ := Complaint.unknownParent.inj htold
      exact ⟨cs, d, n, hends, hname, hnone, rfl, rfl⟩
    | _ => cases htold
  · rintro ⟨cs, d, n, hends, hname, hnone, rfl, rfl⟩
    exact ⟨_, (lineage_unknown_iff ht).2 ⟨cs, hends, hname, hnone⟩, rfl⟩

theorem nodup_of_lineage (h : t.lineage c = .ok cs) : (c :: cs).Nodup :=
  (lineage_eq_ok.1 h).nodup

end ClassTable

theorem lineage_decides (i : Instant) (r : Nat) (c : ClassId) :
    (i.table r).Decides (i.namesOf r) c := by
  have ht := (i.definedOver r).growsTo.indexed
  constructor
  case climbing => exact (i.table r).climbing_lineage c
  case ok => exact fun _ => ClassTable.lineage_ok_iff ht
  case distinct => exact fun _ => ClassTable.nodup_of_lineage
  case unknown => exact fun _ _ => ClassTable.told_unknown_iff ht _
  case cyclic =>
    rw [ClassTable.endless_iff ht]
    simp only [ClassTable.told_cyclic_iff ht]
    constructor
    · rintro ⟨_, cs, p, hloops, -⟩
      exact ⟨cs, p, hloops⟩
    · rintro ⟨cs, p, hloops⟩
      exact ⟨_, cs, p, hloops, rfl⟩
  case shown => exact fun _ => ClassTable.told_cyclic_iff ht _

def loopAndLoss : Instant :=
  .upTo
    [.define "web" (some "base") none, .define "base" (some "core") none,
      .define "core" (some "::Base") none, .define "kiosk" (some "") none,
      .define "" (some "mall") none]
    (.step (.lineage (.named "web"))) 2

theorem loopAndLoss_decides :
    let t := loopAndLoss.table 0
    let names := loopAndLoss.namesOf 0
    (∀ k, (t.sequence ⟨0⟩ k).isSome) ∧
      (∃ cs p, t.Loops ⟨0⟩ cs p ∧ ["web", "base", "core", "base"] =
        (⟨0⟩ :: cs ++ [p]).map (t.display names)) ∧
      ∃ cs d n, t.Ends ⟨3⟩ cs d ∧ t.parentName? d = some n ∧ t.named? n = none ∧
        "main" = t.display names d ∧ "mall" = names.display n := by
  intro t names
  have hcyclic : (t.lineage ⟨0⟩).mapError (TableError.told t names) =
      .error (.cyclicInheritance ["web", "base", "core", "base"]) := by decide +kernel
  have hunknown : (t.lineage ⟨3⟩).mapError (TableError.told t names) =
      .error (.unknownParent "main" "mall") := by decide +kernel
  have hloop := lineage_decides loopAndLoss 0 ⟨0⟩
  exact ⟨hloop.cyclic.1 ⟨_, hcyclic⟩, (hloop.shown _).1 hcyclic,
    ((lineage_decides loopAndLoss 0 ⟨3⟩).unknown _ _).1 hunknown⟩

end ConfigClasses

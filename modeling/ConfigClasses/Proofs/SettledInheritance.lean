import ConfigClasses.Proofs.TableIndex
import ConfigClasses.Proofs.Ways
import ConfigClasses.Proofs.Wording

namespace ConfigClasses

namespace ClassTable

variable {β : Type} {t t' : ClassTable β} {names names' : Interner} {a c d p : ClassId}
  {cs : List ClassId}

namespace Extends

theorem leads (h : t.Extends t') (hleads : t.Leads c cs d) : t'.Leads c cs d := by
  induction hleads with
  | here => exact .here
  | up hc _ ih =>
    obtain ⟨e, he⟩ := exists_decl (declared_of_parent hc)
    exact .up (h.parentOf he hc) ih

theorem up (h : t.Extends t') (hup : t.Up c p) : t'.Up c p := by
  obtain ⟨e, he⟩ := exists_decl (declared_of_parent hup)
  exact h.parentOf he hup

theorem inherits (h : t.Extends t') (ha : t.inherits c a = true) : t'.inherits c a = true :=
  inherits_iff.2 (Relation.TransGen.mono (fun _ _ => h.up) _ _ (inherits_iff.1 ha))

theorem parentOf_or (h : t.Extends t') (ht : t.Indexed) (ht' : t'.Indexed) (hc : c.raw < t.size) :
    t'.parentOf c = t.parentOf c ∨ ∃ parent p e,
      t.parentOf c = .error (.unknownParent c parent) ∧ t'.parentOf c = .ok (some p) ∧
        t.size ≤ p.raw ∧ t'.decl? p = some e ∧ e.name = parent := by
  cases hp : t.parentOf c with
  | ok parent =>
    obtain ⟨e, he⟩ := exists_decl hc
    exact .inl (h.parentOf he hp)
  | error e =>
    obtain ⟨e, parent, he, hparent, hnone, rfl⟩ := parentOf_error hp
    cases hfound : t'.findName? parent with
    | none => exact .inl (by simp [ClassTable.parentOf, h.decl he, hparent, hfound])
    | some p =>
      have hresolved : t'.parentOf c = .ok (some p) := by
        simp [ClassTable.parentOf, h.decl he, hparent, hfound]
      obtain ⟨e', he', hname⟩ := (ht' _ _).1 hfound
      refine .inr ⟨parent, p, e', rfl, hresolved, ?_, he', hname⟩
      by_contra hp'
      obtain ⟨e, he⟩ := exists_decl (Nat.lt_of_not_le hp')
      have hsame : e = e' := Option.some.inj ((h.decl he).symm.trans he')
      cases hnone.symm.trans ((ht _ _).2 ⟨e, he, hsame ▸ hname⟩)

theorem way (h : t.Extends t') (hway : t.Way c cs d) (hd : t'.parentOf d = t.parentOf d) :
    t'.Way c cs d :=
  ⟨h.leads hway.leads, hway.nodup, fun p hp => hway.full p (hd ▸ hp)⟩

end Extends

theorem Leads.last_declared (h : t.Leads c cs d) (ht : empty.GrowsTo t) (hc : c.raw < t.size) :
    d.raw < t.size := by
  induction h with
  | here => exact hc
  | up hc' _ ih =>
    obtain ⟨e, he⟩ := ht.parent_declared hc'
    exact ih (lt_size_of_decl? he)

theorem DefinedOver.told_ne (h : t.DefinedOver names) {e : ClassDecl β} {parent parent' : Name}
    (he : t.decl? c = some e) (hparent : e.parent = some parent)
    (hfound : t.findName? parent = some p)
    (hunknown : t.parentOf d = .error (.unknownParent d parent')) :
    (TableError.unknownParent d parent').told t names ≠
      (TableError.unknownParent c parent).told t names := by
  intro htold
  obtain ⟨e', _, he', hparent', hnone, heq⟩ := parentOf_error hunknown
  cases heq
  obtain ⟨hcls, hname⟩ := Complaint.unknownParent.inj htold
  simp only [ClassTable.display, he, he', Option.elim_some] at hcls
  have hissued := h.issued e (Array.mem_of_getElem? he)
  have hissued' := h.issued e' (Array.mem_of_getElem? he')
  have hindex := (h.growsTo.indexed _ _).2 ⟨e, he, rfl⟩
  have hindex' := (h.growsTo.indexed _ _).2 ⟨e', he', rfl⟩
  -- Either the names differ and so do the parents, so that both pairs are the top-level class and
  -- `main`; but of the parents one is missing. Or it is the same class with the same parent.
  rcases Interner.display_eq h.names_growsTo (hissued'.parent _ hparent') (hissued.parent _ hparent)
    hname with rfl | hpair
  · cases hnone.symm.trans hfound
  · rcases Interner.display_eq h.names_growsTo hissued'.name hissued.name hcls with hsame | hpair'
    · cases h.growsTo.indexed.same_class he' he hsame
      cases he.symm.trans he'
      cases hparent.symm.trans hparent'
      cases hnone.symm.trans hfound
    · grind

section

variable (t) (t') (names) (names')

def Has (x : String) : Prop := ∃ c d, t.decl? c = some d ∧ names.text d.name = x

/-- The walk up from `c` ends at `last`, and no class has the name of the parent of `last`. -/
structure Lacks (c last : ClassId) (parent : Name) : Prop where
  leads : ∃ walk, t.Leads c walk last
  declared : ∃ d, t.decl? last = some d ∧ d.parent = some parent
  lineage : t.lineage c = .error (.unknownParent last parent)

structure Later : Prop where
  before : t.DefinedOver names
  after : t'.DefinedOver names'
  table : t.GrowsTo t'
  interner : names.GrowsTo names'

structure Settled (c : ClassId) : Prop where
  chain : ∀ cs, t.lineage c = .ok cs → t'.lineage c = .ok cs
  cyclic : ∀ cs, t.lineage c = .error (.cyclicInheritance cs) →
    t'.lineage c = .error (.cyclicInheritance cs)
  child : ∀ a, t.inherits c a = true → t'.inherits c a = true
  parent : t'.parentOf c ≠ t.parentOf c → ∃ parent p e,
    t.parentOf c = .error (.unknownParent c parent) ∧ t'.parentOf c = .ok (some p) ∧
      t.size ≤ p.raw ∧ t'.decl? p = some e ∧ e.name = parent
  changed : t'.lineage c ≠ t.lineage c ↔
    ∃ last parent, t.Lacks c last parent ∧ t'.Has names' (names.text parent)
  told_parent : (t'.parentOf c).mapError (TableError.told t' names') =
    (t.parentOf c).mapError (TableError.told t names) ↔ t'.parentOf c = t.parentOf c
  told_chain : (t'.lineage c).mapError (TableError.told t' names') =
    (t.lineage c).mapError (TableError.told t names) ↔ t'.lineage c = t.lineage c

end

theorem mapError_congr {ε ε' α : Type} {found : Except ε α} {f g : ε → ε'}
    (h : ∀ e, found = .error e → f e = g e) : found.mapError f = found.mapError g := by
  cases found with
  | ok x => rfl
  | error e => exact congrArg Except.error (h e rfl)

theorem DefinedOver.parent_issued (h : t.DefinedOver names) {last : ClassId} {parent : Name}
    (hlacks : t.Lacks c last parent) : parent.raw < names.size := by
  obtain ⟨d, hd, hparent⟩ := hlacks.declared
  exact (h.issued d (Array.mem_of_getElem? hd)).parent parent hparent

namespace Later

theorem refl (h : t.DefinedOver names) : t.Later t names names := ⟨h, h, .refl, .refl names⟩

section

variable (h : t.Later t' names names')

include h

theorem parentOf_or (hc : c.raw < t.size) :
    t'.parentOf c = t.parentOf c ∨ ∃ parent p e,
      t.parentOf c = .error (.unknownParent c parent) ∧ t'.parentOf c = .ok (some p) ∧
        t.size ≤ p.raw ∧ t'.decl? p = some e ∧ e.name = parent :=
  h.table.toExtends.parentOf_or h.before.growsTo.indexed h.after.growsTo.indexed hc

theorem lineage_or (hc : c.raw < t.size) :
    t'.lineage c = t.lineage c ∨
      ∃ last parent p, t.Lacks c last parent ∧ t'.findName? parent = some p := by
  obtain ⟨walk, last, hway⟩ := t.exists_way c
  have hlast := hway.leads.last_declared h.before.growsTo hc
  rcases h.parentOf_or hlast with hsame | ⟨parent, p, e, hunknown, -, -, hp⟩
  · have hway' := h.table.toExtends.way hway hsame
    exact .inl (by rw [hway.lineage, hway'.lineage, hsame])
  · obtain ⟨d, _, hd, hparent, -, heq⟩ := parentOf_error hunknown
    cases heq
    have hlacks : t.Lacks c last parent :=
      ⟨⟨walk, hway.leads⟩, ⟨d, hd, hparent⟩, by rw [hway.lineage, hunknown]⟩
    exact .inr ⟨last, parent, p, hlacks, (h.after.growsTo.indexed _ _).2 ⟨e, hp⟩⟩

theorem has_iff {parent : Name} (hparent : parent.raw < names.size) :
    t'.Has names' (names.text parent) ↔ ∃ p, t'.findName? parent = some p := by
  constructor
  · rintro ⟨p, e, he, htext⟩
    have hissued := h.after.spelledIn e (Array.mem_of_getElem? he)
    have hfound := h.interner.within _ _ (h.before.sound.find?_text hparent)
    rw [← htext, h.after.sound.find?_text hissued] at hfound
    exact ⟨p, (h.after.growsTo.indexed _ _).2 ⟨e, he, Option.some.inj hfound⟩⟩
  · rintro ⟨p, hp⟩
    obtain ⟨e, he, rfl⟩ := (h.after.growsTo.indexed _ _).1 hp
    exact ⟨p, e, he, h.interner.text h.before.sound hparent⟩

theorem lineage_ne_iff (hc : c.raw < t.size) :
    t'.lineage c ≠ t.lineage c ↔
      ∃ last parent, t.Lacks c last parent ∧ t'.Has names' (names.text parent) := by
  constructor
  · intro hne
    obtain ⟨last, parent, p, hlacks, hp⟩ := (h.lineage_or hc).resolve_left hne
    exact ⟨last, parent, hlacks, (h.has_iff (h.before.parent_issued hlacks)).2 ⟨p, hp⟩⟩
  · rintro ⟨last, parent, hlacks, hhas⟩ hsame
    obtain ⟨p, hp⟩ := (h.has_iff (h.before.parent_issued hlacks)).1 hhas
    cases (findName?_of_unknown (hsame.trans hlacks.lineage)).symm.trans hp

theorem display (hc : c.raw < t.size) : t'.display names' c = t.display names c := by
  obtain ⟨e, he⟩ := exists_decl hc
  have hissued := h.before.issued e (Array.mem_of_getElem? he)
  rw [ClassTable.display, ClassTable.display, he, h.table.toExtends.decl he]
  exact h.interner.display h.before.sound hissued.name

theorem told_parentOf {e : TableError} (he : t.parentOf c = .error e) :
    e.told t' names' = e.told t names := by
  obtain ⟨d, parent, hd, hparent, -, rfl⟩ := parentOf_error he
  have hissued := (h.before.issued d (Array.mem_of_getElem? hd)).parent parent hparent
  rw [TableError.told, TableError.told, h.display (lt_size_of_decl? hd),
    h.interner.display h.before.sound hissued]

theorem told_lineage {e : TableError} (he : t.lineage c = .error e) :
    e.told t' names' = e.told t names := by
  obtain ⟨cs, d, hway⟩ := t.exists_way c
  rw [hway.lineage] at he
  cases hd : t.parentOf d with
  | error e' =>
    simp only [hd] at he
    cases he
    exact h.told_parentOf hd
  | ok parent =>
    cases parent with
    | none => simp [hd] at he
    | some p =>
      simp only [hd] at he
      cases he
      have hdeclared := hway.leads.declared (declared_of_parent hd)
      refine congrArg Complaint.cyclicInheritance (List.map_congr_left fun a ha => h.display ?_)
      rcases List.mem_append.1 ha with ha | ha
      · exact hdeclared a ha
      · exact hdeclared a (List.mem_singleton.1 ha ▸ hway.full p hd)

theorem told_parentOf_iff (hc : c.raw < t.size) :
    (t'.parentOf c).mapError (TableError.told t' names') =
      (t.parentOf c).mapError (TableError.told t names) ↔ t'.parentOf c = t.parentOf c := by
  rcases h.parentOf_or hc with hsame | ⟨parent, p, e, hunknown, hfound, -⟩
  · rw [hsame]
    exact ⟨fun _ => rfl, fun _ => mapError_congr fun e => h.told_parentOf⟩
  · simp [hunknown, hfound, Except.mapError]

theorem told_lineage_iff (hc : c.raw < t.size) :
    (t'.lineage c).mapError (TableError.told t' names') =
      (t.lineage c).mapError (TableError.told t names) ↔ t'.lineage c = t.lineage c := by
  constructor
  · intro htold
    refine (h.lineage_or hc).resolve_right fun ⟨last, parent, p, hlacks, hp⟩ => ?_
    rw [hlacks.lineage] at htold
    cases hlineage : t'.lineage c with
    | ok cs => simp [hlineage, Except.mapError] at htold
    | error e' =>
      rw [hlineage] at htold
      have hsame := (Except.error.inj htold).trans (h.told_lineage hlacks.lineage).symm
      cases e' with
      | unknownParent last' parent' =>
        obtain ⟨-, -, hunknown⟩ := leads_of_unknown hlineage
        obtain ⟨d, hd, hparent⟩ := hlacks.declared
        exact h.after.told_ne (h.table.toExtends.decl hd) hparent hp hunknown hsame
      | _ => cases hsame
  · intro hsame
    rw [hsame]
    exact mapError_congr fun e => h.told_lineage

theorem settled (hc : c.raw < t.size) : t.Settled t' names names' c := by
  have hchanged := h.lineage_ne_iff hc
  have hkept (found : Except TableError (List ClassId)) (hl : t.lineage c = found)
      (hother : ∀ last parent, found ≠ .error (.unknownParent last parent)) :
      t'.lineage c = found := by
    by_contra hne
    obtain ⟨last, parent, hlacks, -⟩ := hchanged.1 (hl ▸ hne)
    exact hother last parent (hl.symm.trans hlacks.lineage)
  constructor
  case chain => exact fun cs hl => hkept _ hl (by simp)
  case cyclic => exact fun cs hl => hkept _ hl (by simp)
  case child => exact fun a => h.table.toExtends.inherits
  case parent => exact (h.parentOf_or hc).resolve_left
  case changed => exact hchanged
  case told_parent => exact h.told_parentOf_iff hc
  case told_chain => exact h.told_lineage_iff hc

end

theorem define (h : t.Later t' names names') (name : String) (parent : Option String)
    (body : Option β) :
    t.Later (t'.define names' name parent body).2.1 names (t'.define names' name parent body).2.2 :=
  ⟨h.before, h.after.define name parent body, h.table.define names' name parent body,
    h.interner.trans (Interner.growsTo_define t' names' name parent body)⟩

theorem intern (h : t.Later t' names names') (x : String) : t.Later t' names (names'.intern x).2 :=
  ⟨h.before, h.after.intern x, h.table, h.interner.trans (.intern names' x)⟩

end Later

inductive Call (β : Type) where
  | define (name : String) (parent : Option String) (body : Option β)
  | intern (x : String)

def callAll (t : ClassTable β) (names : Interner) : List (Call β) → ClassTable β × Interner
  | [] => (t, names)
  | .define name parent body :: calls =>
    let (_, t, names) := t.define names name parent body
    t.callAll names calls
  | .intern x :: calls => t.callAll (names.intern x).2 calls

theorem Later.callAll (h : t.Later t' names names') (calls : List (Call β)) :
    t.Later (t'.callAll names' calls).1 names (t'.callAll names' calls).2 := by
  induction calls generalizing t' names' with
  | nil => exact h
  | cons call calls ih =>
    cases call with
    | define name parent body => exact ih (h.define name parent body)
    | intern x => exact ih (h.intern x)

namespace DefinedOver

variable {x : String}

theorem has_grow (h : t.DefinedOver names) (hgrows : names.GrowsTo names') :
    t.Has names' x ↔ t.Has names x :=
  exists_congr fun _ => exists_congr fun _ =>
    and_congr_right fun hd => by rw [h.text_grow hgrows hd]

theorem has_define (h : t.DefinedOver names) (name : String) (parent : Option String)
    (body : Option β) :
    (t.define names name parent body).2.1.Has (t.define names name parent body).2.2 x ↔
      t.Has names x ∨ ClassName.normalize name = x := by
  by_cases hold : t.Has names (ClassName.normalize name)
  · obtain ⟨c, d, hd, hname⟩ := hold
    simp only [h.define_duplicate parent body hd hname]
    exact ⟨.inl, fun hx => hx.elim id fun hx => ⟨c, d, hd, hname.trans hx⟩⟩
  · obtain ⟨t', names', d, hdefine, hdeclares⟩ := h.define_new parent body
      fun c d hd hname => hold ⟨c, d, hd, hname⟩
    have hgrows : names.GrowsTo names' := by
      simpa [hdefine] using Interner.growsTo_define t names name parent body
    have hdecl := hdeclares.decl?
    simp only [hdefine, ← h.has_grow hgrows]
    constructor
    · rintro ⟨c, e, he, hname⟩
      rw [hdecl] at he
      split at he
      · cases he
        exact .inr (hdeclares.spelled.symm.trans hname)
      · exact .inl ⟨c, e, he, hname⟩
    · rintro (⟨c, e, he, hname⟩ | hname)
      · refine ⟨c, e, ?_, hname⟩
        rw [hdecl, if_neg, he]
        rintro rfl
        exact Nat.lt_irrefl _ (lt_size_of_decl? he)
      · exact ⟨⟨t.size⟩, d, by rw [hdecl, if_pos rfl], hdeclares.spelled.trans hname⟩

theorem has_callAll (h : t.DefinedOver names) (calls : List (Call β)) :
    (t.callAll names calls).1.Has (t.callAll names calls).2 x ↔
      t.Has names x ∨ ∃ name parent body, Call.define name parent body ∈ calls ∧
        ClassName.normalize name = x := by
  induction calls generalizing t names with
  | nil => simp [ClassTable.callAll]
  | cons call calls ih =>
    cases call with
    | define name parent body =>
      refine (ih (h.define name parent body)).trans ?_
      rw [h.has_define name parent body, or_assoc]
      simp only [List.mem_cons, Call.define.injEq]
      grind
    | intern y =>
      refine (ih (h.intern y)).trans ?_
      rw [h.has_grow (.intern names y)]
      simp

end DefinedOver

end ClassTable

theorem inheritance_settled {β : Type} {t : ClassTable β} {names : Interner}
    (h : t.DefinedOver names) (calls : List (ClassTable.Call β)) {c : ClassId}
    (hc : c.raw < t.size) :
    t.Settled (t.callAll names calls).1 names (t.callAll names calls).2 c ∧
      ((t.callAll names calls).1.lineage c ≠ t.lineage c ↔
        ∃ last parent, t.Lacks c last parent ∧
          ∃ name above body, .define name above body ∈ calls ∧
            ClassName.normalize name = names.text parent) := by
  have hlater := (ClassTable.Later.refl h).callAll calls
  refine ⟨hlater.settled hc, (hlater.lineage_ne_iff hc).trans ?_⟩
  refine exists_congr fun last => exists_congr fun parent => and_congr_right fun hlacks => ?_
  have hnone : ¬ t.Has names (names.text parent) := by
    rw [(ClassTable.Later.refl h).has_iff (h.parent_issued hlacks)]
    rintro ⟨p, hp⟩
    cases (ClassTable.findName?_of_unknown hlacks.lineage).symm.trans hp
  rw [h.has_callAll calls, or_iff_right hnone]

def lostParent : ClassTable Unit × Interner :=
  ClassTable.empty.callAll .initial
    [.define "lost" (some "::Missing") none, .define "A" (some "b") none,
      .define "B" (some "::a") none, .define "app" (some "base") none]

def parentFound : List (ClassTable.Call Unit) :=
  [.define "::LOST" none none, .intern "other", .define "MISSING" (some "lost") none]

theorem lostParent_settled :
    let later := lostParent.1.callAll lostParent.2 parentFound
    later.1.lineage ⟨1⟩ = .error (.cyclicInheritance [⟨1⟩, ⟨2⟩, ⟨1⟩]) ∧
      later.1.lineage ⟨0⟩ ≠ lostParent.1.lineage ⟨0⟩ ∧
      lostParent.1.Settled later.1 lostParent.2 later.2 ⟨3⟩ := by
  intro later
  have h : lostParent.1.DefinedOver lostParent.2 :=
    ((ClassTable.Later.refl (.empty (.refl .initial))).callAll _).after
  have hsize : lostParent.1.size = 4 := by decide +kernel
  have hsettled (n : Nat) (hn : n < 4) :=
    inheritance_settled h parentFound (c := ⟨n⟩) (hsize ▸ hn)
  have hcycle : lostParent.1.lineage ⟨1⟩ = .error (.cyclicInheritance [⟨1⟩, ⟨2⟩, ⟨1⟩]) := by
    decide +kernel
  have hlost : lostParent.1.decl? ⟨0⟩ = some ⟨⟨2⟩, some ⟨3⟩, none⟩ := by rfl
  have hlacks : lostParent.1.Lacks ⟨0⟩ ⟨0⟩ ⟨3⟩ :=
    ⟨⟨[], .here⟩, ⟨_, hlost, rfl⟩, by decide +kernel⟩
  have hname : ClassName.normalize "MISSING" = lostParent.2.text ⟨3⟩ := by decide +kernel
  have hdefined : .define "MISSING" (some "lost") none ∈ parentFound := by simp [parentFound]
  exact ⟨(hsettled 1 (by decide)).1.cyclic _ hcycle,
    (hsettled 0 (by decide)).2.2 ⟨_, _, hlacks, _, _, _, hdefined, hname⟩, (hsettled 3 (by decide)).1⟩

theorem Instant.UpTo.later {i j : Instant} (h : i.UpTo j) (r : Nat) {c : ClassId}
    (hc : c.raw < (i.table r).size) :
    (i.table r).Later (j.table r) (i.namesOf r) (j.namesOf r) := by
  have hr : r < i.session.registries.size := by
    by_contra hr
    have hnone : i.session.registries[r]? = none := Array.getElem?_eq_none (Nat.le_of_not_lt hr)
    have hempty : (i.table r).size = 0 := by
      simp [Instant.table, Session.tableAt, Array.getD_eq_getD_getElem?, hnone, default,
        ClassTable.size, ClassTable.empty]
    omega
  exact ⟨i.definedOver r, j.definedOver r, h.develops.table r, h.develops.names hr⟩

theorem Instant.UpTo.settled {i j : Instant} (h : i.UpTo j) (r : Nat) {c : ClassId}
    (hc : c.raw < (i.table r).size) :
    (i.table r).Settled (j.table r) (i.namesOf r) (j.namesOf r) c :=
  (h.later r hc).settled hc

end ConfigClasses

import ConfigClasses.Proofs.Development

namespace ConfigClasses

namespace ClassTable

variable {β : Type} {t : ClassTable β} {names names' : Interner} {x : String} {c : ClassId}
  {d : ClassDecl β} {n : Name}

section

variable (t) (names)

structure Declares (name : String) (parent : Option String) (body : Option β) (t' : ClassTable β)
    (names' : Interner) (d : ClassDecl β) : Prop where
  decls : t'.decls = t.decls.push d
  spelled : names'.text d.name = ClassName.normalize name
  inherits : d.parent.map names'.text = parent.map ClassName.normalize
  runs : d.body = body
  named : ∀ n, t'.findName? n = if n = d.name then some ⟨t.size⟩ else t.findName? n
  found : ∀ x, t'.find? names' x =
    if ClassName.normalize x = ClassName.normalize name then some ⟨t.size⟩ else t.find? names x

structure Exact (t : ClassTable β) (names : Interner) : Prop where
  declared : t.declared names =
    t.decls.toList.zipIdx.map fun (d, i) => (⟨i⟩, names.text d.name, d.parent.map names.text)
  distinct : ∀ c c' d d', t.decl? c = some d → t.decl? c' = some d' → d.name = d'.name → c = c'
  named : ∀ n c, t.findName? n = some c ↔ ∃ d, t.decl? c = some d ∧ d.name = n
  found : ∀ x c, t.find? names x = some c ↔
    ∃ d, t.decl? c = some d ∧ names.text d.name = ClassName.normalize x
  steady : ∀ names', names.GrowsTo names' → ∀ x, t.find? names' x = t.find? names x
  duplicate : ∀ name parent body c d, t.decl? c = some d →
    names.text d.name = ClassName.normalize name →
      t.define names name parent body = (.error (.duplicateClass c), t, names)
  new : ∀ name parent body,
    (∀ c d, t.decl? c = some d → names.text d.name ≠ ClassName.normalize name) →
      ∃ t' names' d, t.define names name parent body = (.ok ⟨t.size⟩, t', names') ∧
        t.Declares names name parent body t' names' d

end

theorem Declares.decl? {name : String} {parent : Option String} {body : Option β}
    {t' : ClassTable β} (h : t.Declares names name parent body t' names' d) (c : ClassId) :
    t'.decl? c = if c = ⟨t.size⟩ then some d else t.decl? c := by
  rw [← decl?_add, ClassTable.decl?, ClassTable.decl?, h.decls]
  rfl

theorem declared_eq (t : ClassTable β) (names : Interner) :
    t.declared names =
      t.decls.toList.zipIdx.map fun (d, i) => (⟨i⟩, names.text d.name, d.parent.map names.text) := by
  have hall (ds : List (ClassDecl β)) :
      ((List.range ds.length).map ClassId.mk).filterMap (fun c => ds[c.raw]?.map fun d =>
        (c, names.text d.name, d.parent.map names.text)) =
      ds.zipIdx.map fun (d, i) => (⟨i⟩, names.text d.name, d.parent.map names.text) := by
    induction ds using List.reverseRecOn with
    | nil => rfl
    | append_singleton ds d ih =>
      rw [List.zipIdx_append, List.map_append, ← ih, List.length_append, List.length_singleton,
        List.range_succ, List.map_append, List.filterMap_append]
      congr 1
      · apply List.filterMap_congr
        intro c hc
        obtain ⟨i, hi, rfl⟩ := List.mem_map.1 hc
        rw [List.getElem?_append_left (List.mem_range.1 hi)]
      · simp
  simpa [declared, ids, size, decl?] using hall t.decls.toList

namespace DefinedOver

theorem text_grow (h : t.DefinedOver names) (hgrows : names.GrowsTo names')
    (hd : t.decl? c = some d) : names'.text d.name = names.text d.name :=
  hgrows.text h.sound (h.spelledIn d (Array.mem_of_getElem? hd))

theorem find?_iff (h : t.DefinedOver names) :
    t.find? names x = some c ↔ ∃ d, t.decl? c = some d ∧ names.text d.name = ClassName.normalize x := by
  rw [find?, Option.bind_eq_some_iff]
  constructor
  · rintro ⟨n, hn, hc⟩
    obtain ⟨d, hd, rfl⟩ := (h.growsTo.indexed n c).1 hc
    exact ⟨d, hd, h.sound.text_of_find? hn⟩
  · rintro ⟨d, hd, hname⟩
    have hissued := h.spelledIn d (Array.mem_of_getElem? hd)
    exact ⟨d.name, hname ▸ h.sound.find?_text hissued, (h.growsTo.indexed _ _).2 ⟨d, hd, rfl⟩⟩

theorem find?_grow (h : t.DefinedOver names) (hgrows : names.GrowsTo names') (x : String) :
    t.find? names' x = t.find? names x := by
  apply Option.ext
  intro c
  rw [(h.grow hgrows).find?_iff, h.find?_iff]
  exact exists_congr fun d => and_congr_right fun hd => by rw [h.text_grow hgrows hd]

theorem define_duplicate (h : t.DefinedOver names) {name : String} (parent : Option String)
    (body : Option β) (hd : t.decl? c = some d) (hname : names.text d.name = ClassName.normalize name) :
    t.define names name parent body = (.error (.duplicateClass c), t, names) := by
  have hissued := h.spelledIn d (Array.mem_of_getElem? hd)
  have hintern : names.intern (ClassName.normalize name) = (d.name, names) :=
    Interner.intern_of_find? (hname ▸ h.sound.find?_text hissued)
  have hfound : t.findName? d.name = some c := (h.growsTo.indexed _ _).2 ⟨d, hd, rfl⟩
  simp only [ClassTable.define, hintern, hfound]

theorem findName?_of_new (h : t.DefinedOver names) {name : String}
    (hnew : ∀ c d, t.decl? c = some d → names.text d.name ≠ ClassName.normalize name) :
    t.findName? (names.intern (ClassName.normalize name)).1 = none := by
  refine Option.eq_none_iff_forall_ne_some.2 fun c hc => ?_
  obtain ⟨d, hd, hname⟩ := (h.growsTo.indexed _ _).1 hc
  have hgrows := Interner.GrowsTo.intern names (ClassName.normalize name)
  apply hnew c d hd
  rw [← h.text_grow hgrows hd, hname]
  exact (hgrows.sound h.sound).text_of_find? (names.find?_intern _)

theorem text_internParent (h : names.Sound) (parent : Option String) :
    (internParent names parent).1.map (internParent names parent).2.text =
      parent.map ClassName.normalize := by
  cases parent with
  | none => rfl
  | some parent =>
    exact congrArg some ((h.intern _).text_of_find? (names.find?_intern _))

theorem define_new (h : t.DefinedOver names) {name : String} (parent : Option String)
    (body : Option β)
    (hnew : ∀ c d, t.decl? c = some d → names.text d.name ≠ ClassName.normalize name) :
    ∃ t' names' d, t.define names name parent body = (.ok ⟨t.size⟩, t', names') ∧
      t.Declares names name parent body t' names' d := by
  have hnone := h.findName?_of_new hnew
  have hover := h.define name parent body
  have hgrows := Interner.growsTo_define t names name parent body
  have hparent := text_internParent (h.sound.intern (ClassName.normalize name)) parent
  have hlater :=
    Interner.growsTo_internParent (names.intern (ClassName.normalize name)).2 parent
  simp only [ClassTable.define, hnone] at hover hgrows ⊢
  have hspelled := hover.sound.text_of_find?
    (hlater.within _ _ (names.find?_intern (ClassName.normalize name)))
  refine ⟨_, _, _, rfl, rfl, hspelled, hparent, rfl, fun n => findName?_add t _ n, fun x => ?_⟩
  split
  · next hsame => exact hover.find?_iff.2 ⟨_, by rw [decl?_add, if_pos rfl], hspelled.trans hsame.symm⟩
  · next hother =>
    apply Option.ext
    intro c
    rw [hover.find?_iff, h.find?_iff]
    constructor
    · rintro ⟨e, he, htext⟩
      rw [decl?_add] at he
      split at he
      · cases he
        exact (hother (htext.symm.trans hspelled)).elim
      · exact ⟨e, he, (h.text_grow hgrows he).symm.trans htext⟩
    · rintro ⟨e, he, htext⟩
      exact ⟨e, (extends_add hnone).decl he, (h.text_grow hgrows he).trans htext⟩

theorem exact (h : t.DefinedOver names) : t.Exact names where
  declared := declared_eq t names
  distinct _ _ _ _ hd hd' hname := h.growsTo.indexed.same_class hd hd' hname
  named := h.growsTo.indexed
  found _ _ := h.find?_iff
  steady _ hgrows := h.find?_grow hgrows
  duplicate _ parent body _ _ hd hname := h.define_duplicate parent body hd hname
  new _ parent body hnew := h.define_new parent body hnew

end DefinedOver

end ClassTable

theorem tables_index_exactly (i : Instant) (r : Nat) :
    (i.table r).Exact (i.namesOf r) ∧
      (∀ (other : ClassTable Body) (name : String) (parent : Option String) (body : Option Body) x,
        (i.table r).find? (other.define (i.namesOf r) name parent body).2.2 x =
          (i.table r).find? (i.namesOf r) x) ∧
      ∀ (evaluate : ClassId → ScopeId → Option Resource → Eval (Option Output)) (here : ScopeId)
        (tr : Trace) (x : String),
        Step.exec (i.table r) evaluate here (.findClass x) tr =
          .ok (.cls ((i.table r).find? tr.now.names x)) tr := by
  refine ⟨(i.definedOver r).exact, fun other name parent body x => ?_, fun _ _ _ _ => rfl⟩
  exact (i.definedOver r).find?_grow (Interner.growsTo_define other _ name parent body) x

def twoTables : Instant :=
  .upTo
    [.define "::Base" (some "web") none, .newTable false, .define "BASE" none none,
      .define "Web" (some "base") none, .useTable 0]
    (.step (.intern "host")) 2

theorem twoTables_exact :
    let names := twoTables.namesOf 0
    twoTables.namesOf 1 = names ∧ (twoTables.table 0).find? names "::base" = some ⟨0⟩ ∧
      (twoTables.table 0).find? names "web" = none ∧
      (twoTables.table 1).find? names "web" = some ⟨1⟩ ∧
      (twoTables.table 0).Exact names ∧ (twoTables.table 1).Exact names ∧
      (twoTables.table 1).define names "::WEB" (some "host") none =
        (.error (.duplicateClass ⟨1⟩), twoTables.table 1, names) := by
  intro names
  have hexact : (twoTables.table 1).Exact names := (tables_index_exactly twoTables 1).1
  have hfound : (twoTables.table 1).find? names "web" = some ⟨1⟩ := by decide +kernel
  obtain ⟨d, hd, htext⟩ := (hexact.found _ _).1 hfound
  have hnormal : ClassName.normalize "web" = ClassName.normalize "::WEB" := by decide +kernel
  exact ⟨rfl, by decide +kernel, by decide +kernel, hfound, (tables_index_exactly twoTables 0).1,
    hexact, hexact.duplicate "::WEB" _ _ _ d hd (htext.trans hnormal)⟩

end ConfigClasses

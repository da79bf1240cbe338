import ConfigClasses.Proofs.Interning

namespace ConfigClasses

open Eval

structure ClassDecl.IssuedBy {β : Type} (d : ClassDecl β) (names : Interner) : Prop where
  name : d.name.raw < names.size
  parent : ∀ n, d.parent = some n → n.raw < names.size

theorem ClassDecl.IssuedBy.grow {β : Type} {d : ClassDecl β} {names names' : Interner}
    (h : d.IssuedBy names) (hsize : names.size ≤ names'.size) : d.IssuedBy names' :=
  ⟨Nat.lt_of_lt_of_le h.name hsize, fun n hn => Nat.lt_of_lt_of_le (h.parent n hn) hsize⟩

namespace ClassTable

variable {β : Type} {t : ClassTable β} {names names' : Interner}

/-- Definitions made the table, over an interner in which others intern as well. -/
inductive DefinedOver : ClassTable β → Interner → Prop
  | empty {names : Interner} (h : Interner.initial.GrowsTo names) : DefinedOver .empty names
  | intern {t : ClassTable β} {names : Interner} (h : DefinedOver t names) (x : String) :
      DefinedOver t (names.intern x).2
  | define {t : ClassTable β} {names : Interner} (h : DefinedOver t names) (name : String)
      (parent : Option String) (body : Option β) :
      DefinedOver (t.define names name parent body).2.1 (t.define names name parent body).2.2

theorem DefinedOver.grow (h : t.DefinedOver names) (hgrows : names.GrowsTo names') :
    t.DefinedOver names' := by
  obtain ⟨texts, rfl⟩ := hgrows
  induction texts generalizing names with
  | nil => exact h
  | cons x texts ih => exact ih (h.intern x)

theorem DefinedOver.defineFrom {t : ClassTable Body} (h : t.DefinedOver names) (stem : String)
    (body : Option Body) (left i : Nat) (last : Option ClassId) :
    let defined := ConfigClasses.defineFrom stem body left i last t names
    defined.2.1.DefinedOver defined.2.2 := by
  induction left generalizing i last t names with
  | zero => exact h
  | succ left ih =>
    intro defined
    have hfirst := h.define (stem ++ toString i)
      (if i = 0 then none else some (stem ++ toString (i - 1))) body
    simp only [defined, ConfigClasses.defineFrom]
    split
    · next hdefine =>
      rw [hdefine] at hfirst
      exact ih hfirst (i + 1) (some _)
    · next hdefine =>
      rw [hdefine] at hfirst
      exact hfirst

theorem DefinedOver.growsTo (h : t.DefinedOver names) : ClassTable.empty.GrowsTo t := by
  induction h with
  | empty => exact .refl
  | intern h x ih => exact ih
  | define h name parent body ih => exact ih.define _ name parent body

theorem DefinedOver.names_growsTo (h : t.DefinedOver names) : Interner.initial.GrowsTo names := by
  induction h with
  | empty h => exact h
  | intern h x ih => exact ih.trans (.intern _ x)
  | define h name parent body ih => exact ih.trans (Interner.growsTo_define _ _ name parent body)

theorem DefinedOver.sound (h : t.DefinedOver names) : names.Sound :=
  h.names_growsTo.sound Interner.sound_initial

theorem internParent_issued (h : names.Sound) (parent : Option String) (n : Name)
    (hn : (internParent names parent).1 = some n) : n.raw < (internParent names parent).2.size := by
  cases parent with
  | none => cases hn
  | some parent =>
    obtain rfl := Option.some.inj hn
    exact (h.intern _).lt_size (names.find?_intern _)

def SpelledIn (t : ClassTable β) (names : Interner) : Prop := ∀ d ∈ t.decls, d.name.raw < names.size

theorem DefinedOver.issued (h : t.DefinedOver names) : ∀ d ∈ t.decls, d.IssuedBy names := by
  induction h with
  | empty => simp [ClassTable.empty]
  | @intern t names h x ih => exact fun d hd => (ih d hd).grow (names.size_le_intern x)
  | @define t names h name parent body ih =>
    have hname := names.size_le_intern (ClassName.normalize name)
    have hparent :=
      (Interner.growsTo_internParent (names.intern (ClassName.normalize name)).2 parent).size_le
    have hissued := (h.sound.intern _).lt_size (names.find?_intern (ClassName.normalize name))
    simp only [ClassTable.define]
    split
    · exact fun d hd => (ih d hd).grow hname
    · intro d hd
      rcases Array.mem_push.1 hd with hd | rfl
      · exact (ih d hd).grow (Nat.le_trans hname hparent)
      · exact ⟨Nat.lt_of_lt_of_le hissued hparent, internParent_issued (h.sound.intern _) parent⟩

theorem DefinedOver.spelledIn (h : t.DefinedOver names) : t.SpelledIn names :=
  fun d hd => (h.issued d hd).name

end ClassTable

namespace Session

variable {s : Session}

def Built (s : Session) : Prop :=
  ∀ r ∈ s.registries, r.table.DefinedOver (s.interners.getD r.interner default)

theorem built_initial : initial.Built := by
  intro r hr
  simp only [initial, List.mem_toArray, List.mem_singleton] at hr
  subst hr
  exact .empty (.refl _)

theorem Built.registry (h : s.Built) (hs : s.Sound) : s.registry.table.DefinedOver s.names :=
  h _ (registry_mem hs)

theorem growsTo_withNames {names : Interner} (hgrows : s.names.GrowsTo names) (n : Nat) :
    (s.interners.getD n default).GrowsTo ((s.withNames names).interners.getD n default) := by
  simp only [withNames, Array.getD_eq_getD_getElem?, Array.getElem?_setIfInBounds]
  split
  · next hn =>
    subst hn
    split
    · simpa [Session.names, Array.getD_eq_getD_getElem?] using hgrows
    · next hlt =>
      rw [Array.getElem?_eq_none (Nat.le_of_not_lt hlt)]
      exact .refl _
  · exact .refl _

theorem Built.withNames (h : s.Built) {names : Interner} (hgrows : s.names.GrowsTo names) :
    (s.withNames names).Built :=
  fun r hr => (h r hr).grow (growsTo_withNames hgrows r.interner)

theorem interners_declare (hs : s.Sound) (t : ClassTable Body) (names : Interner) :
    ((s.withTable t).withNames names).interners = (s.withNames names).interners := by
  have hregistry : (s.withTable t).registry = { s.registry with table := t } := by
    simp [registry, withTable, hs.current]
  simp only [Session.withNames, hregistry]
  rfl

theorem Built.declare (h : s.Built) (hs : s.Sound) (hn : s.Named) {t : ClassTable Body}
    {names : Interner} (hgrows : s.names.GrowsTo names) (ht : t.DefinedOver names) :
    ((s.withTable t).withNames names).Built := by
  intro r hr
  rw [interners_declare hs]
  rcases Array.mem_or_eq_of_mem_setIfInBounds hr with hr | rfl
  · exact (h r hr).grow (growsTo_withNames hgrows r.interner)
  · have hnames : (s.withNames names).interners.getD s.registry.interner default = names := by
      simp [Session.withNames, Array.getD_eq_getD_getElem?, hn.interner hs]
    exact hnames.symm ▸ ht

theorem Built.perform (h : s.Built) (hs : s.Sound) (hn : s.Named) (command : Command) :
    (s.perform command).2.2.Built := by
  cases command with
  | define name parent body =>
    simp only [Session.perform, declare_session]
    exact h.declare hs hn (Interner.growsTo_define _ _ name parent body)
      ((h.registry hs).define name parent body)
  | defineChain stem length body =>
    simp only [Session.perform, declare_session]
    exact h.declare hs hn (Interner.growsTo_defineFrom stem body length 0 none _ _)
      ((h.registry hs).defineFrom stem body length 0 none)
  | newTable ownNames =>
    simp only [Session.perform, newTable]
    split
    · intro r hr
      rcases Array.mem_push.1 hr with hr | rfl
      · have hlt := hn r hr
        simpa [Array.getD_eq_getD_getElem?, Array.getElem?_push_lt hlt, hlt] using h r hr
      · simpa [Array.getD_eq_getD_getElem?] using ClassTable.DefinedOver.empty (.refl .initial)
    · intro r hr
      rcases Array.mem_push.1 hr with hr | rfl
      · exact h r hr
      · exact .empty (h.registry hs).names_growsTo
  | useTable index | useCompilation index =>
    simp only [Session.perform]
    split <;> exact h
  | newCompilation => exact h
  | step step =>
    have hgrows := start_keeps (P := fun tr => s.names.GrowsTo tr.now.names)
      (fun tr e hgrows => hgrows.trans (tr.now.growsTo_after e)) s.registry.table
      (depthFor s.registry.table) (m := s.moment) (.refl _) step
    exact h.withNames hgrows

theorem built_run (commands : List Command) : (initial.run commands).2.Built := by
  have hall := run_keeps (P := fun s => (s.Sound ∧ s.Named) ∧ s.Built)
    (fun s command h => ⟨⟨h.1.1.perform command, h.1.2.perform h.1.1 command⟩,
      h.2.perform h.1.1 h.1.2 command⟩)
    ⟨⟨sound_initial, named_initial⟩, built_initial⟩ commands
  exact hall.2

def Spelled (s : Session) : Prop :=
  ∀ r ∈ s.registries, r.table.SpelledIn (s.interners.getD r.interner default)

theorem Spelled.names (h : s.Spelled) (hs : s.Sound) : s.registry.table.SpelledIn s.names :=
  h _ (registry_mem hs)

theorem spelled_run (commands : List Command) : (initial.run commands).2.Spelled :=
  fun r hr => (built_run commands r hr).spelledIn

end Session

end ConfigClasses

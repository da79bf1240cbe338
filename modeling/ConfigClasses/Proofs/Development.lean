import ConfigClasses.Proofs.Spelling

namespace ConfigClasses

open ClassTable

theorem Moment.replay_append (m : Moment) (events more : List Event) :
    m.replay (events ++ more) = (m.replay events).replay more :=
  List.foldl_append

namespace Session

variable {s s' s'' : Session}

def internerAt (s : Session) (n : Nat) : Interner := s.interners.getD n default

def namesOf (s : Session) (j : Nat) : Interner :=
  s.internerAt (s.registries.getD j default).interner

structure Develops (s s' : Session) : Prop where
  table : ∀ j, (s.tableAt j).GrowsTo (s'.tableAt j)
  interner : ∀ n, (s.internerAt n).GrowsTo (s'.internerAt n)
  shared : ∀ j, j < s.registries.size → j < s'.registries.size ∧
    (s'.registries.getD j default).interner = (s.registries.getD j default).interner

namespace Develops

theorem refl (s : Session) : s.Develops s :=
  ⟨fun _ => .refl, fun _ => .refl _, fun _ hj => ⟨hj, rfl⟩⟩

theorem trans (h : s.Develops s') (h' : s'.Develops s'') : s.Develops s'' := by
  refine ⟨fun j => (h.table j).trans (h'.table j), fun n => (h.interner n).trans (h'.interner n), ?_⟩
  intro j hj
  obtain ⟨hj', hsame⟩ := h.shared j hj
  obtain ⟨hj'', hsame'⟩ := h'.shared j hj'
  exact ⟨hj'', hsame'.trans hsame⟩

theorem names (h : s.Develops s') {j : Nat} (hj : j < s.registries.size) :
    (s.namesOf j).GrowsTo (s'.namesOf j) := by
  rw [namesOf, namesOf, (h.shared j hj).2]
  exact h.interner _

theorem of_interners (hregistries : s'.registries = s.registries)
    (h : ∀ n, (s.internerAt n).GrowsTo (s'.internerAt n)) : s.Develops s' := by
  refine ⟨fun j => ?_, h, fun j hj => ?_⟩
  · rw [tableAt, tableAt, hregistries]
    exact .refl
  · rw [hregistries]
    exact ⟨hj, rfl⟩

end Develops

theorem develops_leave {m : Moment} (hgrows : s.names.GrowsTo m.names) : s.Develops (s.leave m) :=
  .of_interners rfl (growsTo_withNames hgrows)

theorem leave_develops {m m' : Moment} (hs : s.Sound) (hn : s.Named)
    (hgrows : m.names.GrowsTo m'.names) : (s.leave m).Develops (s.leave m') := by
  have hnames : (s.leave m).names = m.names := congrArg Moment.names (moment_leave hs hn m)
  rw [← leave_leave s m m']
  exact develops_leave (hnames ▸ hgrows)

theorem develops_declare (hs : s.Sound) {t : ClassTable Body} {names : Interner}
    (ht : s.registry.table.GrowsTo t) (hgrows : s.names.GrowsTo names) :
    s.Develops ((s.withTable t).withNames names) := by
  refine ⟨s.growsTo_withTable ht names, ?_, fun j hj => ?_⟩
  · intro n
    simp only [internerAt, interners_declare hs]
    exact growsTo_withNames hgrows n
  · simp only [Session.withNames, withTable, Array.size_setIfInBounds, Array.getD_eq_getD_getElem?,
      Array.getElem?_setIfInBounds]
    refine ⟨hj, ?_⟩
    split
    · next heq =>
      subst heq
      simp [registry, Array.getD_eq_getD_getElem?, hj]
    · rfl

theorem internerAt_push (s : Session) (n : Nat) :
    (s.interners.push .initial).getD n default = s.internerAt n := by
  simp only [internerAt, Array.getD_eq_getD_getElem?, Array.getElem?_push]
  split
  · next hn => simp [hn, default]
  · rfl

theorem develops_newTable (s : Session) (ownNames : Bool) : s.Develops (s.newTable ownNames) := by
  refine ⟨s.growsTo_perform (.newTable ownNames), fun n => ?_, fun j hj => ?_⟩
  · unfold newTable
    split
    · exact (s.internerAt_push n).symm ▸ .refl _
    · exact .refl _
  · unfold newTable
    split <;> simp [Array.getD_eq_getD_getElem?, Array.getElem_push_lt hj, Nat.lt_succ_of_lt hj]

theorem develops_perform (hs : s.Sound) (command : Command) :
    s.Develops (s.perform command).2.2 := by
  cases command with
  | define name parent body =>
    simp only [perform, declare_session]
    exact develops_declare hs (GrowsTo.refl.define s.names name parent body)
      (Interner.growsTo_define _ _ name parent body)
  | defineChain stem length body =>
    simp only [perform, declare_session]
    exact develops_declare hs (growsTo_defineFrom stem body length 0 none _ _)
      (Interner.growsTo_defineFrom stem body length 0 none _ _)
  | newTable ownNames => exact s.develops_newTable ownNames
  | useTable index | useCompilation index =>
    simp only [perform]
    split <;> exact .of_interners rfl fun _ => .refl _
  | newCompilation => exact .of_interners rfl fun _ => .refl _
  | step step =>
    exact develops_leave (start_keeps (P := fun tr => s.names.GrowsTo tr.now.names)
      (fun tr e hgrows => hgrows.trans (tr.now.growsTo_after e)) s.registry.table
      (depthFor s.registry.table) (m := s.moment) (.refl _) step)

theorem develops_run (hs : s.Sound) (commands : List Command) : s.Develops (s.run commands).2 := by
  induction commands generalizing s with
  | nil => exact .refl s
  | cons command commands ih =>
    have hfirst := develops_perform hs command
    simp only [run]
    split
    · exact hfirst.trans (ih (hs.perform command))
    · exact hfirst

theorem perform_step (s : Session) (step : Step) :
    (s.perform (.step step)).2.2 = s.leave (s.moment.replay (s.perform (.step step)).2.1) := by
  obtain ⟨hpath, -⟩ := path_start s.registry.table (depthFor s.registry.table)
    (show s.moment.stack = [] from rfl) step
  obtain ⟨es, hj, hn, -⟩ := hpath.replay
  have hevents : (s.perform (.step step)).2.1 = es := by simp [perform, hj]
  rw [hevents, ← hn]
  rfl

theorem leave_develops_perform (hs : s.Sound) (hn : s.Named) {command : Command}
    {events : List Event} (he : events <+: (s.perform command).2.1) :
    (s.leave (s.moment.replay events)).Develops (s.perform command).2.2 := by
  by_cases h : ∀ step, command ≠ .step step
  · rw [s.perform_events h] at he
    have hnone : s.leave (s.moment.replay events) = s := by
      rw [List.prefix_nil.1 he]
      exact s.leave_moment
    exact hnone.symm ▸ develops_perform hs command
  · obtain ⟨step, rfl⟩ : ∃ step, command = .step step := by simpa using h
    obtain ⟨rest, hrest⟩ := he
    rw [perform_step, ← hrest, Moment.replay_append]
    exact leave_develops hs hn (Moment.growsTo_replay _ rest)

end Session

namespace Instant

variable {i j : Instant}

def interner (i : Instant) (n : Nat) : Interner := i.session.internerAt n

def namesOf (i : Instant) (r : Nat) : Interner := i.session.namesOf r

theorem session_eq (i : Instant) : i.session = i.before.leave i.moment := rfl

theorem UpTo.develops (h : i.UpTo j) : i.session.Develops j.session := by
  obtain ⟨hs, hn⟩ := Session.reachable i.done
  rcases h with ⟨hdone, -, rest, hevents⟩ | ⟨hreached, later, hdone⟩
  · have hbefore : j.before = i.before := by rw [before, before, hdone]
    have hmoment : j.moment = i.moment.replay rest := by
      rw [moment, moment, hbefore, ← hevents, Moment.replay_append]
    rw [session_eq, session_eq, hbefore, hmoment]
    exact Session.leave_develops hs hn (Moment.growsTo_replay _ rest)
  · have hbefore : j.before = (i.before.run (i.next :: later)).2 := by
      rw [before, ← hdone, List.append_assoc, Session.run_append _ _ hreached]
      rfl
    have hfirst := Session.leave_develops_perform hs hn i.begun
    have hrest : (i.before.perform i.next).2.2.Develops j.before := by
      rw [hbefore]
      simp only [Session.run]
      split
      · exact Session.develops_run (hs.perform i.next) later
      · exact .refl _
    have hlast : j.before.Develops j.session := Session.develops_leave (Moment.growsTo_replay _ _)
    exact (hfirst.trans hrest).trans hlast

theorem initial_develops (i : Instant) : Session.initial.Develops i.session :=
  (Session.develops_run Session.sound_initial i.done).trans
    (Session.develops_leave (Moment.growsTo_replay _ _))

theorem interner_growsTo (i : Instant) (n : Nat) : Interner.initial.GrowsTo (i.interner n) := by
  have hinitial : Session.initial.internerAt n = .initial := by
    unfold Session.internerAt Session.initial
    cases n <;> rfl
  exact hinitial ▸ i.initial_develops.interner n

theorem definedOver (i : Instant) (r : Nat) : (i.table r).DefinedOver (i.namesOf r) := by
  have hbuilt : i.session.Built :=
    (Session.built_run i.done).withNames (Moment.growsTo_replay _ _)
  simp only [table, Session.tableAt, namesOf, Session.namesOf]
  rw [Array.getD_eq_getD_getElem?]
  cases hr : i.session.registries[r]? with
  | none => exact .empty (i.interner_growsTo 0)
  | some registry => exact hbuilt registry (Array.mem_of_getElem? hr)

theorem definedOver_before (i : Instant) :
    i.before.registry.table.DefinedOver i.moment.names := by
  obtain ⟨hs, hn⟩ := Session.reachable i.done
  have hnames : i.session.names = i.moment.names :=
    congrArg Moment.names (Session.moment_leave hs hn i.moment)
  exact hnames ▸ i.definedOver i.before.current

end Instant

end ConfigClasses

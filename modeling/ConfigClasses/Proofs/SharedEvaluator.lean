import ConfigClasses.Proofs.Growth
import ConfigClasses.Proofs.Oblivious

namespace ConfigClasses

open Eval

namespace Session

def Named (s : Session) : Prop := ∀ r ∈ s.registries, r.interner < s.interners.size

theorem named_initial : initial.Named := by
  intro r hr
  simp only [initial, List.mem_toArray, List.mem_singleton] at hr
  subst hr
  decide

variable {s : Session}

theorem registry_mem (hs : s.Sound) : s.registry ∈ s.registries := by
  rw [registry, Array.getD_eq_getD_getElem?, Array.getElem?_eq_getElem hs.current]
  exact Array.getElem_mem hs.current

theorem Named.interner (h : s.Named) (hs : s.Sound) : s.registry.interner < s.interners.size :=
  h _ (registry_mem hs)

theorem Named.declare (h : s.Named) (hs : s.Sound) (t : ClassTable Body) (names : Interner) :
    ((s.withTable t).withNames names).Named := by
  intro r hr
  simp only [withNames, withTable, Array.size_setIfInBounds] at hr ⊢
  rcases Array.mem_or_eq_of_mem_setIfInBounds hr with hr | rfl
  · exact h r hr
  · exact h.interner hs

theorem Named.perform (h : s.Named) (hs : s.Sound) (command : Command) :
    (s.perform command).2.2.Named := by
  cases command with
  | define name parent body =>
    simp only [Session.perform, declare_session]
    exact h.declare hs _ _
  | defineChain stem length body =>
    simp only [Session.perform, declare_session]
    exact h.declare hs _ _
  | newTable ownNames =>
    simp only [Session.perform, newTable]
    split
    · intro r hr
      simp only [Array.size_push]
      rcases Array.mem_push.1 hr with hr | rfl
      · exact Nat.lt_succ_of_lt (h r hr)
      · exact Nat.lt_succ_self _
    · intro r hr
      rcases Array.mem_push.1 hr with hr | rfl
      · exact h r hr
      · exact h.interner hs
  | useTable index =>
    simp only [Session.perform]
    split <;> exact h
  | useCompilation index =>
    simp only [Session.perform]
    split <;> exact h
  | newCompilation => exact h
  | step step =>
    intro r hr
    simpa [Session.perform, withNames, withCompilation] using h r hr

theorem run_keeps {P : Session → Prop} (h : ∀ s command, P s → P (s.perform command).2.2)
    (hs : P s) (commands : List Command) : P (s.run commands).2 := by
  induction commands generalizing s with
  | nil => exact hs
  | cons command commands ih =>
    simp only [run]
    split
    · exact ih (h s command hs)
    · exact h s command hs

theorem reachable (commands : List Command) :
    (initial.run commands).2.Sound ∧ (initial.run commands).2.Named :=
  run_keeps (P := fun s => s.Sound ∧ s.Named)
    (fun _ command h => ⟨h.1.perform command, h.2.perform h.1 command⟩)
    ⟨sound_initial, named_initial⟩ commands

def calls (s : Session) : ClassId → ScopeId → Option Resource → Eval (Option Output) :=
  s.registry.table.evaluate (s.registry.table.runBody (depthFor s.registry.table))

def entry (s : Session) : Trace := ⟨s.moment.after (.opened .evaluator), []⟩

def leave (s : Session) (m : Moment) : Session :=
  (s.withNames m.names).withCompilation m.compilation

theorem setIfInBounds_getD {α : Type} (xs : Array α) (n : Nat) (x : α) :
    xs.setIfInBounds n (xs.getD n x) = xs := by
  apply Array.ext_getElem?
  intro i
  rw [Array.getElem?_setIfInBounds, Array.getD_eq_getD_getElem?]
  split
  · next h =>
    subst h
    split
    · next hlt => simp [hlt]
    · next hlt => rw [Array.getElem?_eq_none (Nat.le_of_not_lt hlt)]
  · rfl

theorem leave_moment (s : Session) : s.leave s.moment = s := by
  simp only [leave, moment, withNames, withCompilation, names, compilation, setIfInBounds_getD]

theorem leave_leave (s : Session) (m m' : Moment) : (s.leave m).leave m' = s.leave m' := by
  simp [leave, withNames, withCompilation, registry]

theorem moment_leave (hs : s.Sound) (hn : s.Named) (m : Moment) :
    (s.leave m).moment = { m with stack := [] } := by
  have hnames : (s.leave m).names = m.names := by
    change (s.interners.setIfInBounds s.registry.interner m.names).getD s.registry.interner _ = _
    simp only [Array.getD_eq_getD_getElem?, Array.getElem?_setIfInBounds, hn.interner hs, if_true,
      Option.getD_some]
  have hcompilation : (s.leave m).compilation = m.compilation := by
    simp [leave, withNames, withCompilation, compilation, hs.active]
  rw [moment, hnames, hcompilation]

end Session

theorem startsOf_append (events later : List Event) :
    startsOf (events ++ later) = startsOf events ++ startsOf later := by
  simp [startsOf]

namespace Session

variable {s : Session} {step : Step}

theorem start_eq (s : Session) (step : Step) :
    step.start s.registry.table (depthFor s.registry.table) s.moment =
      match answering s.registry.table (step.exec s.registry.table s.calls .top) s.entry with
      | .ok r tr => (.reply r, (tr.on [.opened .evaluator]).record (.closed .evaluator))
      | .error .stray tr => (.stray, (tr.on [.opened .evaluator]).record (.closed .evaluator))
      | .error _ tr => (.exhausted, (tr.on [.opened .evaluator]).record (.closed .evaluator)) := by
  have hentry : Trace.record ⟨s.moment, []⟩ (.opened .evaluator) =
      s.entry.on [.opened .evaluator] := rfl
  have honto := oblivious_step s.registry.table (depthFor s.registry.table) .top step s.entry
    [.opened .evaluator]
  unfold Step.start during answering calls
  rw [hentry, honto]
  cases step.exec s.registry.table _ .top s.entry with
  | ok r tr => rfl
  | error e tr => cases e <;> rfl

theorem report_of_start {ending : Ending} {tr : Trace}
    (h : step.start s.registry.table (depthFor s.registry.table) s.moment = (ending, tr)) :
    s.report (.step step) =
      (⟨s.current, s.active, ending, tr.journal.reverse, (s.leave tr.now).counts⟩,
        s.leave tr.now) := by
  simp only [report, perform, h, leave]

theorem report_of_answering (hs : s.Sound) (hn : s.Named) {r : Reply} {tr : Trace}
    (h : answering s.registry.table (step.exec s.registry.table s.calls .top) s.entry = .ok r tr) :
    (s.report (.step step)).1.ending = .reply r ∧
      startsOf (s.report (.step step)).1.events = startsOf tr.journal.reverse ∧
      (s.report (.step step)).2 = s.leave tr.now ∧ (s.leave tr.now).entry.now = tr.now := by
  have hstart := s.start_eq step
  rw [h] at hstart
  rw [report_of_start hstart]
  refine ⟨rfl, by simp [Trace.on, Trace.record, startsOf], rfl, ?_⟩
  have hbalanced := (balanced_step s.registry.table (depthFor s.registry.table) .top step).answering
    (t := s.registry.table)
  have hstack : tr.now.stack = [.evaluator] := final_of_ok h ▸ hbalanced.stack s.entry
  rw [entry, moment_leave hs hn]
  exact congrArg (Moment.mk _ _) hstack.symm

theorem answering_of_isReply (h : (s.report (.step step)).1.ending.isReply = true) :
    ∃ r tr,
      answering s.registry.table (step.exec s.registry.table s.calls .top) s.entry = .ok r tr := by
  have hstart := s.start_eq step
  cases hact : answering s.registry.table (step.exec s.registry.table s.calls .top) s.entry with
  | ok r tr => exact ⟨r, tr, rfl⟩
  | error e tr =>
    rw [hact] at hstart
    exfalso
    cases e <;> simp [report_of_start hstart, Ending.isReply] at h

theorem each_cons (hs : s.Sound) (hn : s.Named) {r : Reply} {tr : Trace}
    (h : answering s.registry.table (step.exec s.registry.table s.calls .top) s.entry = .ok r tr)
    (steps : List Step) :
    execEach s.registry.table s.calls .top (step :: steps) s.entry =
      match execEach s.registry.table s.calls .top steps (s.leave tr.now).entry with
      | .ok rs tr' => .ok (r :: rs) (tr'.on tr.journal)
      | .error e tr' => .error e (tr'.on tr.journal) := by
  obtain ⟨-, -, -, hentry⟩ := report_of_answering hs hn h
  have htrace : (s.leave tr.now).entry.on tr.journal = tr :=
    congrArg (Trace.mk · tr.journal) hentry
  have honto : execEach s.registry.table s.calls .top steps
      ((s.leave tr.now).entry.on tr.journal) = _ :=
    oblivious_each _ _ .top steps (s.leave tr.now).entry tr.journal
  rw [htrace] at honto
  have hfirst : execEach s.registry.table s.calls .top (step :: steps) s.entry =
      (execEach s.registry.table s.calls .top steps >>= fun rs => pure (r :: rs)) tr := by
    rw [execEach]
    exact bind_of_ok h
  rw [hfirst]
  cases hrest : execEach s.registry.table s.calls .top steps (s.leave tr.now).entry with
  | ok rs tr' => exact bind_of_ok (honto.trans (congrArg (resultOn tr.journal) hrest))
  | error e tr' => exact bind_of_error (honto.trans (congrArg (resultOn tr.journal) hrest))

theorem each_of_replies (hs : s.Sound) (hn : s.Named) {steps : List Step}
    (hreplies : ∀ report ∈ (s.run (steps.map .step)).1, report.ending.isReply = true) :
    ∃ replies tr, execEach s.registry.table s.calls .top steps s.entry = .ok replies tr := by
  induction steps generalizing s with
  | nil => exact ⟨[], s.entry, rfl⟩
  | cons step steps ih =>
    obtain ⟨reports, hreports⟩ := s.run_cons (.step step) (steps.map .step)
    obtain ⟨r, tr, hact⟩ := answering_of_isReply (hreplies _ (hreports ▸ List.mem_cons_self))
    obtain ⟨hending, -, hleave, -⟩ := report_of_answering hs hn hact
    have hs' : (s.leave tr.now).Sound := hleave ▸ hs.perform (.step step)
    have hn' : (s.leave tr.now).Named := hleave ▸ hn.perform hs (.step step)
    obtain ⟨rs, tr', hrest⟩ := ih hs' hn' fun report hreport =>
      hreplies report (by simp [run, hending, hleave, hreport])
    have hrest' : execEach s.registry.table s.calls .top steps (s.leave tr.now).entry =
      .ok rs tr' := hrest
    refine ⟨r :: rs, tr'.on tr.journal, ?_⟩
    rw [each_cons hs hn hact, hrest']

theorem run_apart (hs : s.Sound) (hn : s.Named) {steps : List Step} {replies : List Reply}
    {tr : Trace} (h : execEach s.registry.table s.calls .top steps s.entry = .ok replies tr) :
    (s.run (steps.map .step)).1.map Report.ending = replies.map .reply ∧
      startsOf ((s.run (steps.map .step)).1.flatMap Report.events) =
        startsOf tr.journal.reverse ∧
      (s.run (steps.map .step)).2 = s.leave tr.now := by
  induction steps generalizing s replies tr with
  | nil =>
    cases h
    exact ⟨rfl, rfl, s.leave_moment.symm⟩
  | cons step steps ih =>
    cases hact : answering s.registry.table (step.exec s.registry.table s.calls .top) s.entry with
    | error e tr₁ =>
      rw [execEach] at h
      cases (bind_of_error hact).symm.trans h
    | ok r tr₁ =>
      -- The next step begins at the moment at which this one has ended, in either way.
      obtain ⟨hending, hstarts, hleave, -⟩ := report_of_answering hs hn hact
      have hs' : (s.leave tr₁.now).Sound := hleave ▸ hs.perform (.step step)
      have hn' : (s.leave tr₁.now).Named := hleave ▸ hn.perform hs (.step step)
      rw [each_cons hs hn hact] at h
      cases hrest : execEach s.registry.table s.calls .top steps (s.leave tr₁.now).entry with
      | error e tr' => simp [hrest] at h
      | ok rs tr' =>
        simp only [hrest, EStateM.Result.ok.injEq] at h
        obtain ⟨rfl, rfl⟩ := h
        obtain ⟨hendings, hrests, hlast⟩ := ih hs' hn' hrest
        have hrun : s.run ((step :: steps).map .step) =
            ((s.report (.step step)).1 :: ((s.leave tr₁.now).run (steps.map .step)).1,
              ((s.leave tr₁.now).run (steps.map .step)).2) := by
          simp only [List.map_cons, run, hending, hleave]
        refine ⟨?_, ?_, ?_⟩
        · rw [hrun, List.map_cons, List.map_cons, hending, hendings]
        · rw [hrun, List.flatMap_cons, startsOf_append, hstarts, hrests, Trace.on,
            List.reverse_append, startsOf_append]
        · rw [hrun]
          exact hlast.trans (leave_leave s _ _)

theorem run_together (hs : s.Sound) (hn : s.Named) {steps : List Step} {replies : List Reply}
    {tr : Trace} (h : execEach s.registry.table s.calls .top steps s.entry = .ok replies tr) :
    (s.run [.step (.each steps)]).1.map Report.ending = [.reply (.each replies)] ∧
      startsOf ((s.run [.step (.each steps)]).1.flatMap Report.events) =
        startsOf tr.journal.reverse ∧
      (s.run [.step (.each steps)]).2 = s.leave tr.now := by
  have hact : answering s.registry.table (Step.exec s.registry.table s.calls .top (.each steps))
      s.entry = .ok (.each replies) tr := by
    simp only [answering, Step.exec, bind_of_ok h]
    rfl
  obtain ⟨hending, hstarts, hleave, -⟩ := report_of_answering hs hn hact
  simp [run, hending, hstarts, hleave]

end Session

end ConfigClasses

import ConfigClasses.Proofs.LawfulSteps
import ConfigClasses.Session
import Mathlib.Data.List.Infix

namespace ConfigClasses

open ClassTable

structure Passage where
  current : Nat
  active : Nat
  events : List Event

def Report.passage (r : Report) : Passage := ⟨r.current, r.active, r.events⟩

def journalOf (passages : List Passage) (k : Nat) : List Event :=
  ((passages.filter (·.active = k)).flatMap Passage.events).reverse

theorem journalOf_append (ps qs : List Passage) (k : Nat) :
    journalOf (ps ++ qs) k = journalOf qs k ++ journalOf ps k := by
  simp [journalOf]

theorem journalOf_singleton (p : Passage) (k : Nat) :
    journalOf [p] k = if p.active = k then p.events.reverse else [] := by
  by_cases h : p.active = k <;> simp [journalOf, h]

namespace Session

def tableAt (s : Session) (j : Nat) : ClassTable Body := (s.registries.getD j default).table

def compilationAt (s : Session) (k : Nat) : Compilation := s.compilations.getD k default

end Session

section Path

variable {β : Type} {t : ClassTable β}

theorem ClassTable.Path.replay {tr tr' : Trace} (h : t.Path tr tr') :
    ∃ es, tr'.journal = es.reverse ++ tr.journal ∧ tr'.now = tr.now.replay es ∧
      ∀ fs, fs <+: es → t.Path tr ⟨tr.now.replay fs, fs.reverse ++ tr.journal⟩ := by
  induction h with
  | refl =>
    refine ⟨[], rfl, rfl, fun fs hfs => ?_⟩
    rw [List.prefix_nil.1 hfs]
    exact .refl
  | @record tr' e h he ih =>
    obtain ⟨es, hj, hn, hp⟩ := ih
    have hnow : (tr'.record e).now = tr.now.replay (es ++ [e]) := by
      simp [Trace.record, Moment.replay, hn]
    have hjournal : (tr'.record e).journal = (es ++ [e]).reverse ++ tr.journal := by
      simp [Trace.record, hj]
    refine ⟨es ++ [e], hjournal, hnow, fun fs hfs => ?_⟩
    rcases List.prefix_concat_iff.1 hfs with rfl | hfs
    · rw [← hnow, ← hjournal]
      exact h.record he
    · exact hp fs hfs

end Path

namespace Session

/-- The compilation at `k` has gone through the events of `past`, latest first, over tables that are
seen in sessions by `T`. -/
def Tracks (Next : ClassTable Body → ClassTable Body → Prop) (T : Session → ClassTable Body)
    (k : Nat) (s : Session) (past : List Event) : Prop :=
  ∃ tr, Chronicle Next (T s) tr ∧ tr.Paused ∧ tr.journal = past ∧
    tr.now.compilation = s.compilationAt k

structure Sound (s : Session) : Prop where
  current : s.current < s.registries.size
  active : s.active < s.compilations.size

theorem sound_initial : initial.Sound := ⟨by decide, by decide⟩

theorem start_trace (t : ClassTable Body) (depth : Nat) (m : Moment) (step : Step) :
    (step.start t depth m).2 =
      (Eval.during .evaluator (step.exec t (t.evaluate (t.runBody depth)) .top)).final ⟨m, []⟩ := by
  unfold Step.start Eval.final
  split <;> simp_all

theorem path_start (t : ClassTable Body) (depth : Nat) {m : Moment} (hm : m.stack = [])
    (step : Step) :
    t.Path ⟨m, []⟩ (step.start t depth m).2 ∧ (step.start t depth m).2.Paused := by
  let act := step.exec t (t.evaluate (t.runBody depth)) .top
  have hidle : t.NothingDue ⟨m, []⟩ := fun c s h => by cases h
  have hopen : t.Permits ⟨m, []⟩ (.opened .evaluator) := ⟨.inr hidle, .inl hm⟩
  have hact : Eval.Abides t (Trace.record ⟨m, []⟩ (.opened .evaluator)) act fun _ _ => True :=
    free_step depth .top step _ (by trivial) _ rfl (fun c s h => by cases h) trivial
  have habides : Eval.Abides t ⟨m, []⟩ (Eval.during .evaluator act) fun _ _ => True :=
    .during hopen hact fun _ _ _ _ => trivial
  rw [start_trace]
  refine ⟨habides.path, habides.stack.trans hm, ?_⟩
  simp [Eval.final_during, Trace.record]

variable {Next : ClassTable Body → ClassTable Body → Prop} {T : Session → ClassTable Body}
  {k : Nat} {s : Session} {past : List Event}

theorem compilationAt_active (s : Session) : s.compilationAt s.active = s.compilation := rfl

theorem Sound.perform (h : s.Sound) (command : Command) : (s.perform command).2.2.Sound := by
  obtain ⟨hc, ha⟩ := h
  cases command with
  | define name parent body =>
    simp only [Session.perform, declare]
    split <;> exact ⟨by simpa [withTable, withNames] using hc, ha⟩
  | defineChain stem length body =>
    simp only [Session.perform, declare]
    split <;> exact ⟨by simpa [withTable, withNames] using hc, ha⟩
  | newTable ownNames =>
    simp only [Session.perform, newTable]
    split <;> exact ⟨by simp, ha⟩
  | useTable index =>
    simp only [Session.perform]
    split
    · next h => exact ⟨h, ha⟩
    · exact ⟨hc, ha⟩
  | newCompilation => exact ⟨hc, by simp [Session.perform, newCompilation]⟩
  | useCompilation index =>
    simp only [Session.perform]
    split
    · next h => exact ⟨hc, h⟩
    · exact ⟨hc, ha⟩
  | step step => exact ⟨hc, by simpa [Session.perform, withNames, withCompilation] using ha⟩

theorem perform_events (s : Session) {command : Command} (h : ∀ step, command ≠ .step step) :
    (s.perform command).2.1 = [] := by
  cases command with
  | step step => exact (h step rfl).elim
  | useTable index | useCompilation index =>
    simp only [Session.perform]
    split <;> rfl
  | _ => rfl

theorem path_perform (s : Session) (command : Command) :
    let events := (s.perform command).2.1
    let tr : Trace := ⟨s.moment.replay events, events.reverse⟩
    s.registry.table.Path ⟨s.moment, []⟩ tr ∧ tr.Paused := by
  by_cases h : ∀ step, command ≠ .step step
  · simp only [s.perform_events h]
    exact ⟨.refl, rfl, by simp⟩
  obtain ⟨step, rfl⟩ : ∃ step, command = .step step := by simpa using h
  obtain ⟨hpath, hpaused⟩ := path_start s.registry.table (depthFor s.registry.table)
    (show s.moment.stack = [] from rfl) step
  obtain ⟨es, hj, hn, -⟩ := hpath.replay
  have htrace : (step.start s.registry.table (depthFor s.registry.table) s.moment).2 =
      ⟨s.moment.replay es, es.reverse⟩ := by
    rw [← hn, ← List.append_nil es.reverse, ← hj]
  simp only [Session.perform, htrace, List.reverse_reverse] at hpath hpaused ⊢
  exact ⟨hpath, hpaused⟩

theorem compilationAt_perform (hs : s.Sound) (command : Command) (k : Nat) :
    (s.perform command).2.2.compilationAt k =
      if s.active = k then (s.moment.replay (s.perform command).2.1).compilation
      else s.compilationAt k := by
  have hsame : s.compilationAt k =
      if s.active = k then (s.moment.replay []).compilation else s.compilationAt k := by
    split
    · next h => rw [← h]; rfl
    · rfl
  -- Nothing but a step does anything in a compilation.
  cases command with
  | define name parent body =>
    refine Eq.trans ?_ hsame
    simp only [Session.perform, declare]
    split <;> rfl
  | defineChain stem length body =>
    refine Eq.trans ?_ hsame
    simp only [Session.perform, declare]
    split <;> rfl
  | newTable ownNames =>
    refine Eq.trans ?_ hsame
    simp only [Session.perform, newTable]
    split <;> rfl
  | newCompilation =>
    refine Eq.trans ?_ hsame
    simp only [Session.perform, newCompilation, compilationAt, Array.getD_eq_getD_getElem?,
      Array.getElem?_push]
    split
    · next h => simp [h]; rfl
    · rfl
  | useTable index =>
    simp only [Session.perform]
    split <;> exact hsame
  | useCompilation index =>
    simp only [Session.perform]
    split <;> exact hsame
  | step step =>
    obtain ⟨hpath, -⟩ := path_start s.registry.table (depthFor s.registry.table)
      (show s.moment.stack = [] from rfl) step
    obtain ⟨es, hj, hn, -⟩ := hpath.replay
    have hevents : (step.start s.registry.table (depthFor s.registry.table)
        s.moment).2.journal.reverse = es := by
      simp [hj]
    simp only [Session.perform, hevents, ← hn, compilationAt, withCompilation, withNames,
      Array.getD_eq_getD_getElem?, Array.getElem?_setIfInBounds, hs.active, if_true]
    split <;> rfl

theorem Tracks.begin (h : Tracks Next T k s past) (hr : ∀ t, Next t t) {command : Command}
    {events : List Event} (he : events <+: (s.perform command).2.1) (hk : s.active = k)
    (ht : events ≠ [] → T s = s.registry.table) :
    Chronicle Next (T s) ⟨s.moment.replay events, events.reverse ++ past⟩ := by
  obtain ⟨tr, hchronicle, hpaused, rfl, hcomp⟩ := h
  have hmoment : { tr.now with names := s.names } = s.moment := by
    rw [moment, ← compilationAt_active, hk, ← hcomp, ← hpaused.1]
  have hstart : Chronicle Next (T s) ⟨s.moment, tr.journal⟩ :=
    hmoment ▸ hchronicle.resume hpaused (hr _) s.names
  by_cases hempty : events = []
  · subst hempty
    exact hstart
  obtain ⟨hpath, -⟩ := s.path_perform command
  obtain ⟨es, hj, -, hp⟩ := (hpath.append hpaused.2).replay
  have hes : es = (s.perform command).2.1 := by simpa using hj.symm
  have hevents := hp events (hes ▸ he)
  rw [← ht hempty] at hevents
  exact hstart.follow hevents

theorem Tracks.perform (h : Tracks Next T k s past) (hr : ∀ t, Next t t) (hs : s.Sound)
    (command : Command) (hnext : Next (T s) (T (s.perform command).2.2))
    (ht : s.active = k → (s.perform command).2.1 ≠ [] → T s = s.registry.table) :
    Tracks Next T k (s.perform command).2.2
      ((if s.active = k then (s.perform command).2.1.reverse else []) ++ past) := by
  have hcomp := compilationAt_perform hs command k
  by_cases hk : s.active = k
  · simp only [hk, if_true] at hcomp ⊢
    obtain ⟨tr, -, hpaused, rfl, -⟩ := id h
    obtain ⟨-, hstack, hlast⟩ := s.path_perform command
    have hpaused' : Trace.Paused ⟨s.moment.replay (s.perform command).2.1,
        (s.perform command).2.1.reverse ++ tr.journal⟩ := by
      refine ⟨hstack, fun e he => ?_⟩
      cases hrev : (s.perform command).2.1.reverse with
      | nil => exact hpaused.2 e (by simpa [hrev] using he)
      | cons x xs => exact hlast e (by simpa [hrev] using he)
    refine ⟨_, (h.begin hr (List.prefix_refl _) hk (ht hk)).resume hpaused' hnext s.names, ?_⟩
    exact ⟨⟨hpaused'.1, hpaused'.2⟩, rfl, hcomp.symm⟩
  · simp only [hk, if_false, List.nil_append] at hcomp ⊢
    obtain ⟨tr, hchronicle, hpaused, rfl, hc⟩ := h
    refine ⟨_, hchronicle.resume hpaused hnext s.names, ⟨hpaused.1, hpaused.2⟩, rfl, ?_⟩
    rw [hcomp, ← hc]

theorem Tracks.run (h : Tracks Next T k s past) (hr : ∀ t, Next t t) (hs : s.Sound)
    (hnext : ∀ s command, Next (T s) (T (s.perform command).2.2)) {U : Nat → Prop}
    (hu : ∀ s, U s.current → T s = s.registry.table) (commands : List Command)
    (ht : ∀ p ∈ (s.run commands).1.map Report.passage, p.active = k → p.events ≠ [] → U p.current) :
    Tracks Next T k (s.run commands).2
        (journalOf ((s.run commands).1.map Report.passage) k ++ past) ∧
      (s.run commands).2.Sound := by
  induction commands generalizing s past with
  | nil => exact ⟨h, hs⟩
  | cons command commands ih =>
    let passage := (s.report command).1.passage
    have hfirst : passage ∈ (s.run (command :: commands)).1.map Report.passage := by
      simp only [Session.run]
      split <;> simp [passage]
    have htracks := h.perform hr hs command (hnext s command)
      fun hk he => hu s (ht passage hfirst hk he)
    have hsound := hs.perform command
    have hjournal : journalOf [passage] k =
        if s.active = k then (s.perform command).2.1.reverse else [] :=
      journalOf_singleton passage k
    rw [← hjournal] at htracks
    simp only [Session.run] at ht ⊢
    split
    · next reply heq =>
      have hrest := ih htracks hsound ?_
      · rw [← List.append_assoc, ← journalOf_append] at hrest
        exact hrest
      · intro p hmem
        apply ht p
        rw [heq]
        exact List.mem_cons_of_mem _ hmem
    · exact ⟨htracks, hsound⟩

end Session

end ConfigClasses

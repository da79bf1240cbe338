import ConfigClasses.Proofs.Instant
import ConfigClasses.Proofs.Invariance

namespace ConfigClasses

/-- The class that a scope was made for and not yet given to. -/
def expectant : List Event → Option ClassId
  | .nested (some c) _ _ :: _ => some c
  | .namespaceAdded _ _ :: journal | .closed (.ascent _) :: journal => expectant journal
  | _ => none

def ordinaryErrand (stack : List Activity) : Bool :=
  (errand stack).any fun e => !decide e.2.IsMain

def Timely (stack : List Activity) (due : Option ClassId) : Event → Prop
  | .placed c _ => due = if ordinaryErrand stack then some c else none
  | .namespaceAdded _ _ | .closed (.ascent _) => True
  | _ => due = none

/-- Scopes were given to the classes that they were made for, with nothing else in between. -/
def Prompt : List Event → Prop
  | [] => True
  | e :: journal => Timely (Moment.ofJournal journal).stack (expectant journal) e ∧ Prompt journal

def Clear (journal : List Event) : Prop := expectant journal = none ∧ Prompt journal

def Owed (c : ClassId) (r : Resource) (journal : List Event) : Prop :=
  (expectant journal = if r.IsMain then none else some c) ∧ Prompt journal

def Rested (journal : List Event) : Prop :=
  (Moment.ofJournal journal).stack = [] ∧ Clear journal

def Event.isHandover : Event → Bool
  | .nested (some _) _ _ | .placed _ _ => true
  | _ => false

section

variable {e : Event} {journal past : List Event}

theorem Clear.nil : Clear [] := ⟨rfl, trivial⟩

theorem Clear.cons (h : Clear journal) (he : e.isHandover = false) : Clear (e :: journal) := by
  obtain ⟨hnone, hprompt⟩ := h
  cases e with
  | nested owner outer r =>
    cases owner with
    | none => exact ⟨rfl, hnone, hprompt⟩
    | some c => cases he
  | placed c s => cases he
  | closed a => cases a <;> exact ⟨by simp [expectant, hnone], by simp [Timely, hnone], hprompt⟩
  | namespaceAdded s ns => exact ⟨hnone, trivial, hprompt⟩
  | _ => exact ⟨rfl, hnone, hprompt⟩

theorem Prompt.suffix (h : Prompt journal) (hp : past <:+ journal) : Prompt past := by
  induction journal with
  | nil => exact List.suffix_nil.1 hp ▸ trivial
  | cons e journal ih =>
    rcases List.suffix_cons_iff.1 hp with rfl | hp
    · exact h
    · exact ih h.2 hp

theorem stack_append (h : (Moment.ofJournal past).stack = []) :
    (Moment.ofJournal (journal ++ past)).stack = (Moment.ofJournal journal).stack := by
  induction journal with
  | nil => exact h
  | cons e journal ih =>
    simp only [List.cons_append, Moment.ofJournal]
    cases e <;> simp [Moment.after, ih]

theorem expectant_append (h : expectant past = none) :
    expectant (journal ++ past) = expectant journal := by
  induction journal with
  | nil => exact h
  | cons e journal ih =>
    cases e with
    | nested owner outer r => cases owner <;> rfl
    | closed a => cases a <;> first | rfl | exact ih
    | namespaceAdded s ns => exact ih
    | _ => rfl

theorem Rested.prompt_append (hp : Rested past) (h : Prompt journal) :
    Prompt (journal ++ past) := by
  induction journal with
  | nil => exact hp.2.2
  | cons e journal ih =>
    have htimely : Timely (Moment.ofJournal (journal ++ past)).stack
        (expectant (journal ++ past)) e := by
      rw [stack_append hp.1, expectant_append hp.2.1]
      exact h.1
    exact ⟨htimely, ih h.2⟩

theorem Rested.append (hp : Rested past) (h : Rested journal) : Rested (journal ++ past) :=
  ⟨(stack_append hp.1).trans h.1, (expectant_append hp.2.1).trans h.2.1, hp.prompt_append h.2.2⟩

theorem rested_journalOf {passages : List Passage}
    (h : ∀ p ∈ passages, Rested p.events.reverse) (k : Nat) : Rested (journalOf passages k) := by
  induction passages with
  | nil => exact ⟨rfl, .nil⟩
  | cons p passages ih =>
    have hfirst : Rested (journalOf [p] k) := by
      rw [journalOf_singleton]
      split
      · exact h p List.mem_cons_self
      · exact ⟨rfl, .nil⟩
    rw [← List.singleton_append, journalOf_append]
    exact hfirst.append (ih fun q hq => h q (List.mem_cons_of_mem p hq))

end

namespace Eval

variable {stack : List Activity}

def At (stack : List Activity) (P : List Event → Prop) (tr : Trace) : Prop :=
  tr.now.stack = stack ∧ tr.Shown ∧ P tr.journal

theorem At.record {P Q : List Event → Prop} {tr : Trace} (h : At stack P tr) (e : Event)
    {stack' : List Activity} (hstack : (tr.now.after e).stack = stack')
    (hq : ∀ journal, (Moment.ofJournal journal).stack = stack → P journal → Q (e :: journal)) :
    At stack' Q (tr.record e) := by
  obtain ⟨rfl, hshown, hp⟩ := h
  exact ⟨hstack, hshown.record e, hq _ hshown hp⟩

theorem At.clear {tr : Trace} (h : At stack Clear tr) (e : Event) {stack' : List Activity}
    (hstack : (tr.now.after e).stack = stack') (he : e.isHandover = false) :
    At stack' Clear (tr.record e) :=
  h.record e hstack fun _ _ hclear => hclear.cons he

theorem delivers :
    Invariance (fun stack => At stack Clear) (fun c r stack => At stack (Owed c r)) where
  stack h := h.1
  opened _ h := h.clear _ (congrArg (_ :: ·) h.1) rfl
  closed _ h := h.clear _ (congrArg List.tail h.1) rfl
  stepped {stack tr e} he h := by
    refine h.clear e (.trans ?_ h.1) ?_
    · cases e <;> first | rfl | cases he
    · cases e with
      | nested owner outer r => cases owner <;> first | rfl | cases he
      | placed c s => cases he
      | _ => rfl
  raised e h := h.clear _ h.1 rfl
  main c r hr := by
    rintro ⟨hstack, hshown, hnone, hprompt⟩
    exact ⟨hstack, hshown, by simp [hr, hnone], hprompt⟩
  nested c outer r hr h :=
    h.record _ h.1 fun _ _ hclear => ⟨by simp [expectant, hr], hclear.1, hclear.2⟩
  added s ns h := h.record _ h.1 fun _ _ howed => ⟨howed.1, trivial, howed.2⟩
  ended _ h := h.record _ (congrArg List.tail h.1) fun _ _ howed => ⟨howed.1, trivial, howed.2⟩
  placed s he h := by
    refine h.record _ h.1 fun journal hstack howed => ⟨rfl, ?_, howed.2⟩
    simp [Timely, howed.1, hstack, ordinaryErrand, he]

end Eval

open Eval

namespace Session

theorem rested_perform (s : Session) (command : Command) :
    Rested (s.perform command).2.1.reverse := by
  by_cases h : ∀ step, command ≠ .step step
  · rw [s.perform_events h]
    exact ⟨rfl, .nil⟩
  obtain ⟨step, rfl⟩ : ∃ step, command = .step step := by simpa using h
  have hstep : Keeps (At [] Clear) (during .evaluator (step.exec s.registry.table _ .top)) :=
    delivers.during (by simp)
      (delivers.step s.registry.table (depthFor s.registry.table) .top step [.evaluator])
  have hstart : At [] Clear ⟨s.moment, []⟩ := ⟨rfl, Trace.shown_start rfl, .nil⟩
  obtain ⟨hstack, hshown, hclear⟩ := hstep.final hstart
  simp only [perform, start_trace, List.reverse_reverse]
  exact ⟨hshown.trans hstack, hclear⟩

theorem rested_passages (s : Session) (commands : List Command) :
    ∀ p ∈ (s.run commands).1.map Report.passage, Rested p.events.reverse := by
  induction commands generalizing s with
  | nil => simp [run]
  | cons command commands ih =>
    have hfirst : Rested (s.report command).1.passage.events.reverse := s.rested_perform command
    simp only [run]
    split
    · simpa using ⟨hfirst, by simpa using ih _⟩
    · simpa using hfirst

end Session

namespace Instant

theorem prompt_journal (i : Instant) (k : Nat) : Prompt (i.journal k) := by
  rw [journal, passages, journalOf_append]
  apply (rested_journalOf (Session.initial.rested_passages i.done) k).prompt_append
  rw [journalOf_singleton]
  split
  · exact (i.before.rested_perform i.next).2.2.suffix (List.reverse_suffix.2 i.begun)
  · trivial

theorem rested_journal {i : Instant} (h : i.events = []) (k : Nat) : Rested (i.journal k) := by
  have hjournal : i.journal k = journalOf ((Session.initial.run i.done).1.map Report.passage) k := by
    rw [journal, passages, journalOf_append, journalOf_singleton, h]
    simp
  rw [hjournal]
  exact rested_journalOf (Session.initial.rested_passages i.done) k

end Instant

end ConfigClasses

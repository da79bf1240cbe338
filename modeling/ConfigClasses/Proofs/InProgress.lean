import ConfigClasses.Proofs.BodyOnce
import ConfigClasses.Proofs.InternalError
import ConfigClasses.Proofs.Invariance
import ConfigClasses.Proofs.SharedEvaluator
import Mathlib.Data.Finset.Basic

namespace ConfigClasses

open Eval

/-- The sets of the evaluators, innermost first. The last one belongs to no evaluator. -/
def keep (sets : List (Finset ClassId)) : Event → List (Finset ClassId)
  | .opened .evaluator => ∅ :: sets
  | .closed .evaluator => sets.tail
  | .opened (.ascent c) => sets.modifyHead (insert c)
  | .closed (.ascent c) => sets.modifyHead (·.erase c)
  | _ => sets

def kept : List Event → List (Finset ClassId)
  | [] => [∅]
  | e :: journal => keep (kept journal) e

def pendingSets : List Activity → List (Finset ClassId)
  | [] => [∅]
  | .evaluator :: stack => ∅ :: pendingSets stack
  | .ascent c :: stack => (pendingSets stack).modifyHead (insert c)
  | _ :: stack => pendingSets stack

def inProgress (journal : List Event) : Finset ClassId := (kept journal).headD ∅

def Trace.Faithful (tr : Trace) : Prop := kept tr.journal = pendingSets tr.now.stack

section

variable {stack : List Activity} {c : ClassId}

theorem pendingSets_ne_nil (stack : List Activity) : pendingSets stack ≠ [] := by
  induction stack with
  | nil => simp [pendingSets]
  | cons a stack ih => cases a <;> simp [pendingSets, ih]

theorem isPending_iff : isPending c stack = true ↔ c ∈ (pendingSets stack).headD ∅ := by
  induction stack with
  | nil => simp [isPending, pendingSets]
  | cons a stack ih =>
    cases a with
    | evaluator => simp [isPending, pendingSets]
    | ascent d =>
      obtain ⟨set, sets, hsets⟩ := List.exists_cons_of_ne_nil (pendingSets_ne_nil stack)
      simp only [hsets, List.headD_cons] at ih
      simp only [isPending, pendingSets, hsets, List.modifyHead_cons, List.headD_cons,
        Finset.mem_insert, Bool.or_eq_true, decide_eq_true_eq, ih]
      exact or_congr eq_comm Iff.rfl
    | _ => exact ih

theorem keep_closed {a : Activity} (h : ∀ c, a = .ascent c → isPending c stack = false) :
    keep (pendingSets (a :: stack)) (.closed a) = pendingSets stack := by
  cases a with
  | ascent c =>
    obtain ⟨set, sets, hsets⟩ := List.exists_cons_of_ne_nil (pendingSets_ne_nil stack)
    have hnew : c ∉ set := by
      intro hc
      have hpending : isPending c stack = true := isPending_iff.2 (by simpa [hsets] using hc)
      simp [h c rfl] at hpending
    simp [keep, pendingSets, hsets, Finset.erase_insert hnew]
  | _ => rfl

theorem keep_opened (a : Activity) (stack : List Activity) :
    keep (pendingSets stack) (.opened a) = pendingSets (a :: stack) := by
  cases a <;> rfl

theorem mem_ascents_of_pendingSets {set : Finset ClassId} (hset : set ∈ pendingSets stack)
    (hc : c ∈ set) : c ∈ ascents stack := by
  induction stack generalizing set with
  | nil => simp_all [pendingSets]
  | cons a stack ih =>
    cases a with
    | evaluator =>
      rcases List.mem_cons.1 hset with rfl | hset
      · simp at hc
      · exact ih hset hc
    | ascent d =>
      obtain ⟨first, sets, hsets⟩ := List.exists_cons_of_ne_nil (pendingSets_ne_nil stack)
      simp only [pendingSets, hsets, List.modifyHead_cons, List.mem_cons] at hset ih
      rcases hset with rfl | hset
      · rcases Finset.mem_insert.1 hc with rfl | hc
        · exact List.mem_cons_self
        · exact List.mem_cons_of_mem d (ih (.inl rfl) hc)
      · exact List.mem_cons_of_mem d (ih (.inr hset) hc)
    | _ => exact ih hset hc

def Distinct : List Activity → Prop
  | [] => True
  | .ascent c :: stack => isPending c stack = false ∧ Distinct stack
  | _ :: stack => Distinct stack

theorem Distinct.tail (h : Distinct stack) : Distinct stack.tail := by
  cases stack with
  | nil => trivial
  | cons a stack =>
    cases a with
    | ascent c => exact h.2
    | _ => exact h

end

section

variable {tr : Trace} {stack : List Activity}

theorem Trace.Faithful.opened (h : tr.Faithful) (a : Activity) :
    (tr.record (.opened a)).Faithful :=
  (congrArg (keep · _) h).trans (keep_opened a tr.now.stack)

theorem Trace.Faithful.closed (h : tr.Faithful) {a : Activity} (hstack : tr.now.stack = a :: stack)
    (ha : ∀ c, a = .ascent c → isPending c stack = false) :
    (tr.record (.closed a)).Faithful := by
  have hkept := keep_closed ha
  rw [← hstack, ← h] at hkept
  simpa [Faithful, Trace.record, Moment.after, kept, hstack] using hkept

end

namespace Eval

theorem faithful_invariance :
    Invariance (fun stack tr => tr.now.stack = stack ∧ tr.Faithful)
      (fun _ _ stack tr => tr.now.stack = stack ∧ tr.Faithful) where
  stack h := h.1
  opened _ h := ⟨congrArg (_ :: ·) h.1, h.2.opened _⟩
  closed ha h := ⟨congrArg List.tail h.1, h.2.closed h.1 ha⟩
  stepped {stack tr e} he h := by
    cases e with
    | opened a => cases he
    | closed a => cases he
    | _ => exact ⟨h.1, h.2⟩
  raised e h := ⟨h.1, h.2⟩
  main _ _ _ h := h
  nested _ _ _ _ h := ⟨h.1, h.2⟩
  added _ _ h := ⟨h.1, h.2⟩
  ended hc h := by
    refine ⟨congrArg List.tail h.1, h.2.closed h.1 ?_⟩
    rintro d ⟨⟩
    exact hc
  placed _ _ h := ⟨h.1, h.2⟩

end Eval

namespace ClassTable.Chronicle

variable {β : Type} {t : ClassTable β} {tr : Trace} {Next : ClassTable β → ClassTable β → Prop}

theorem distinct (h : Chronicle Next t tr) : Distinct tr.now.stack := by
  induction h with
  | start => trivial
  | @record t tr e h he ih =>
    cases e with
    | opened a =>
      cases a with
      | ascent c => exact ⟨he.2.2.2.2.2, ih⟩
      | _ => exact ih
    | closed a => exact ih.tail
    | _ => exact ih
  | resume h hp ht names ih => exact ih

theorem faithful (h : Chronicle Next t tr) : tr.Faithful := by
  induction h with
  | start => rfl
  | @record t tr e h he ih =>
    cases e with
    | opened a => exact ih.opened a
    | closed a =>
      obtain ⟨stack, hstack⟩ := List.head?_eq_some_iff.1 he.2
      refine ih.closed hstack ?_
      rintro c rfl
      have hdistinct := h.distinct
      rw [hstack] at hdistinct
      exact hdistinct.1
    | _ => exact ih
  | resume h hp ht names ih => exact ih

theorem claims_nodup (h : Chronicle Next t tr) (hone : OneEvaluator tr.journal) :
    (claims tr).Nodup ∧ ∀ c ∈ ascents tr.now.stack, isPending c tr.now.stack = true := by
  induction h with
  | start => simp [claims, ascents]
  | @record t tr e h he ih =>
    obtain ⟨hnodup, hpending⟩ := ih hone.2
    have hascents := hnodup.sublist (ascents_sublist tr)
    have hinside : e = .opened .evaluator → ∀ a ∈ tr.now.stack, a.isBody = false :=
      h.ofJournal.2 ▸ hone.1
    refine ⟨?_, pending_record hpending hascents he hinside⟩
    rcases claims_record he with hsub | ⟨c, rfl⟩ | ⟨c, s, rfl⟩
    · exact hascents.sublist hsub
    · obtain ⟨-, -, -, -, hnew⟩ := he.2
      refine List.nodup_cons.2 ⟨fun hc => ?_, hascents⟩
      simp [hpending c hc] at hnew
    · rw [claims_of_head he.2.2.1 (c := c) rfl] at hnodup
      exact hnodup
  | resume h hp ht names ih => exact ih hone

theorem not_isEvaluated_of_ascents (h : Chronicle Next t tr) (hone : OneEvaluator tr.journal)
    (hassigned : Unassigned tr.journal) :
    ∀ c ∈ ascents tr.now.stack, ¬ tr.now.compilation.IsEvaluated c := by
  induction h with
  | start => simp [ascents]
  | @record t tr e h he ih =>
    intro c hc hevaluated
    have hopen : c ∈ ascents tr.now.stack := by
      rcases claims_record he with hsub | ⟨d, rfl⟩ | ⟨d, s, rfl⟩
      · exact hsub.subset ((ascents_sublist _).subset hc)
      · rcases List.mem_cons.1 hc with rfl | hc
        · exact (he.2.2.2.2.1 hevaluated).elim
        · exact hc
      · exact hc
    -- The class has got its scope just now, and the claim that ended before was another one.
    rcases placed_or_isEvaluated hassigned hevaluated with ⟨s, rfl⟩ | hold
    · have hnodup := (h.claims_nodup hone.2).1
      rw [claims_of_head he.2.2.1 (c := c) rfl] at hnodup
      exact (List.nodup_cons.1 hnodup).1 hopen
    · exact ih hone.2 hassigned.tail c hopen hold
  | resume h hp ht names ih => exact ih hone hassigned

end ClassTable.Chronicle

def Eval.Restores {α : Type} (act : Eval α) : Prop :=
  ∀ tr : Trace, tr.Faithful →
    (act.final tr).now.stack = tr.now.stack ∧ kept (act.final tr).journal = kept tr.journal

theorem Eval.restores_of_keeps {α : Type} {act : Eval α}
    (h : ∀ stack, Keeps (fun tr => tr.now.stack = stack ∧ tr.Faithful) act) : act.Restores := by
  intro tr htr
  obtain ⟨hstack, hfaithful⟩ := (h tr.now.stack).final ⟨rfl, htr⟩
  refine ⟨hstack, ?_⟩
  rw [hfaithful, hstack, htr]

theorem Eval.Restores.inProgress {α : Type} {act : Eval α} {tr : Trace} (h : act.Restores)
    (htr : tr.Faithful) :
    (act.final tr).Faithful ∧ inProgress (act.final tr).journal = inProgress tr.journal := by
  obtain ⟨hstack, hkept⟩ := h tr htr
  refine ⟨?_, congrArg (List.headD · ∅) hkept⟩
  rw [Trace.Faithful, hkept, hstack]
  exact htr

theorem in_progress_restored :
    (∀ (t : ClassTable Body) (depth : Nat),
        (∀ c caller r, (t.evaluate (t.runBody depth) c caller r).Restores) ∧
          ∀ here (step : Step), (step.exec t (t.evaluate (t.runBody depth)) here).Restores) ∧
      (∀ i : Instant, i.trace.Faithful ∧
        (∀ c, c ∈ inProgress i.trace.journal ↔ isPending c i.moment.stack = true) ∧
        (OneEvaluator i.trace.journal → Unassigned i.trace.journal →
          ∀ set ∈ kept i.trace.journal, ∀ c ∈ set, ¬ i.moment.compilation.IsEvaluated c)) ∧
      ∀ (done : List Command) (steps : List Step),
        let s := (Session.initial.run done).2
        let apart := s.run (steps.map .step)
        let together := s.run [.step (.each steps)]
        (∀ report ∈ apart.1, report.ending.isReply = true) →
          ∃ replies, apart.1.map Report.ending = replies.map .reply ∧
            together.1.map Report.ending = [.reply (.each replies)] ∧
            startsOf (apart.1.flatMap Report.events) = startsOf (together.1.flatMap Report.events) ∧
            apart.2 = together.2 := by
  refine ⟨fun t depth => ⟨fun c caller r => ?_, fun here step => ?_⟩, fun i => ?_, ?_⟩
  · exact restores_of_keeps (faithful_invariance.call t depth c caller r)
  · exact restores_of_keeps (faithful_invariance.step t depth here step)
  · have hfaithful := i.chronicle_trace.faithful
    refine ⟨hfaithful, fun c => ?_, fun hone hassigned set hset c hc => ?_⟩
    · rw [isPending_iff, inProgress, hfaithful]
      rfl
    · have hopen := mem_ascents_of_pendingSets (hfaithful ▸ hset) hc
      exact i.chronicle_trace.not_isEvaluated_of_ascents hone hassigned c hopen
  · intro done steps s apart together hreplies
    obtain ⟨hs, hn⟩ := Session.reachable done
    obtain ⟨replies, tr, heach⟩ := s.each_of_replies hs hn hreplies
    obtain ⟨hendings, hstarts, hleave⟩ := s.run_apart hs hn heach
    obtain ⟨hending', hstarts', hleave'⟩ := s.run_together hs hn heach
    exact ⟨replies, hendings, hending', hstarts.trans hstarts'.symm, hleave.trans hleave'.symm⟩

def pendingAfterReset : Instant :=
  .upTo
    [.define "base" none
        (some [.reset, .each [.includeClass "web" .top (.titled (.number ⟨0⟩) (.number ⟨0⟩))],
          .fail "no port"]),
      .define "web" (some "base") (some [])]
    (.step (.evaluate (.named "web") .top (.titled (.number ⟨0⟩) (.number ⟨0⟩)))) 13

theorem pendingAfterReset_restored :
    let i := pendingAfterReset
    let t := i.before.registry.table
    let call := Step.exec t (t.evaluate (t.runBody 2)) ⟨1⟩ (.includeClass "web" .here .ofScope)
    let steps : List Step := [.evaluate (.named "web") .top (.titled (.number ⟨0⟩) (.number ⟨0⟩)),
      .evaluate (.named "base") .top .none, .describeState]
    kept i.trace.journal = [{⟨1⟩}, ∅] ∧ ¬ i.moment.compilation.IsEvaluated ⟨1⟩ ∧
      kept (call.final i.trace).journal = kept i.trace.journal ∧
      ∃ replies : List Reply,
        (i.before.run (steps.map .step)).1.map Report.ending = replies.map .reply ∧
        (i.before.run (steps.map .step)).2 = (i.before.run [.step (.each steps)]).2 := by
  intro i t call steps
  have hall := in_progress_restored
  have hkept : kept i.trace.journal = [{⟨1⟩}, ∅] := by decide +kernel
  obtain ⟨replies, hendings, -, -, hsame⟩ := hall.2.2 i.done steps (by decide +kernel)
  refine ⟨hkept, ?_, ?_, replies, hendings, hsame⟩
  · exact (hall.2.1 i).2.2 (by decide +kernel) (by decide +kernel) {⟨1⟩} (by simp [hkept]) ⟨1⟩
      (by simp)
  · exact (((hall.1 t 2).2 ⟨1⟩ _) i.trace (hall.2.1 i).1).2

end ConfigClasses

import ConfigClasses.Proofs.Instant
import ConfigClasses.Proofs.Starts

/-!
With one evaluator at a time, a body is started at most once. A class whose ascent is open, or over
without the body having been started yet, is claimed by an evaluation: no other evaluation claims
it, and its body was not started before.
-/

namespace ConfigClasses

def ascents : List Activity → List ClassId
  | [] => []
  | .ascent c :: stack => c :: ascents stack
  | _ :: stack => ascents stack

def Event.claim? : Event → Option ClassId
  | .closed (.ascent c) | .placed c _ => some c
  | _ => none

def claims (tr : Trace) : List ClassId :=
  (tr.journal.head?.bind Event.claim?).toList ++ ascents tr.now.stack

/-- Each claim is the only one for its class, the body of which was not started yet, and the
innermost evaluator knows every ascent. -/
structure Exclusive (tr : Trace) : Prop where
  pending : ∀ c ∈ ascents tr.now.stack, isPending c tr.now.stack = true
  once : (claims tr ++ started tr.journal).Nodup

/-- A claimed class has no scope yet, unless the last event has just given it one. -/
def Vacant (tr : Trace) : Prop :=
  ∀ c ∈ claims tr, tr.now.compilation.IsEvaluated c →
    ∃ s, tr.journal.head? = some (.placed c s) ∧ tr.now.compilation.classScope c = some s

section

open ClassTable

variable {β : Type} {t : ClassTable β} {tr : Trace} {e : Event}

theorem claims_record (he : t.Permits tr e) :
    (claims (tr.record e)).Sublist (ascents tr.now.stack) ∨ (∃ c, e = .opened (.ascent c)) ∨
      ∃ c s, e = .placed c s := by
  cases e with
  | opened a =>
    cases a with
    | ascent c => exact .inr (.inl ⟨c, rfl⟩)
    | _ => exact .inl (List.Sublist.refl _)
  | closed a =>
    obtain ⟨stack, hstack⟩ := List.head?_eq_some_iff.1 he.2
    have hclaims : claims (tr.record (.closed a)) = ascents tr.now.stack := by
      cases a <;> simp [claims, Trace.record, Moment.after, Event.claim?, hstack, ascents]
    exact .inl (hclaims ▸ List.Sublist.refl _)
  | placed c s => exact .inr (.inr ⟨c, s, rfl⟩)
  | _ => exact .inl (List.Sublist.refl _)

theorem ascents_sublist (tr : Trace) : (ascents tr.now.stack).Sublist (claims tr) :=
  List.sublist_append_right _ _

theorem claims_of_head {c : ClassId} (h : tr.journal.head? = some e) (hc : e.claim? = some c) :
    claims tr = c :: ascents tr.now.stack := by
  simp [claims, h, hc]

theorem pending_record (h : ∀ c ∈ ascents tr.now.stack, isPending c tr.now.stack = true)
    (hnodup : (ascents tr.now.stack).Nodup) (he : t.Permits tr e)
    (hone : e = .opened .evaluator → ∀ a ∈ tr.now.stack, a.isBody = false) :
    ∀ c ∈ ascents (tr.now.after e).stack, isPending c (tr.now.after e).stack = true := by
  intro c hc
  cases e with
  | opened a =>
    cases a with
    | evaluator =>
      -- Steps run in an evaluator here, and it would have hidden the claim before.
      have hmem : c ∈ ascents tr.now.stack := hc
      have hpending := h c hmem
      cases he.2 with
      | inl hempty => simp [hempty, ascents] at hmem
      | inr hruns =>
        cases hstack : tr.now.stack with
        | nil => simp [hstack, ascents] at hmem
        | cons a stack =>
          have hbody := hone rfl a (by simp [hstack])
          cases a <;> simp_all [RunsSteps, isPending, Activity.isBody]
    | ascent d =>
      rcases List.mem_cons.1 hc with rfl | hc
      · simp [Moment.after, isPending]
      · simp [Moment.after, isPending, h c hc]
    | _ => exact h c hc
  | closed a =>
    cases hstack : tr.now.stack with
    | nil => simp [Moment.after, hstack, ascents] at hc
    | cons b stack =>
      have hmem : c ∈ ascents stack := by simpa [Moment.after, hstack] using hc
      have hpending := h c
      rw [hstack] at hnodup hpending
      simp only [Moment.after, hstack, List.tail_cons]
      cases b with
      | evaluator => cases hpending hmem
      | ascent d =>
        have hne : d ≠ c := fun hd => (List.nodup_cons.1 hnodup).1 (hd ▸ hmem)
        simpa [isPending, hne] using hpending (List.mem_cons_of_mem d hmem)
      | _ => exact hpending hmem
  | _ => exact h c hc

namespace Exclusive

theorem record (h : Exclusive tr) (he : t.Permits tr e)
    (hone : e = .opened .evaluator → ∀ a ∈ tr.now.stack, a.isBody = false)
    (hstarted : ∀ c s, .opened (.body c s) ∈ tr.journal → tr.now.compilation.IsEvaluated c) :
    Exclusive (tr.record e) := by
  constructor
  case pending =>
    refine pending_record h.pending ?_ he hone
    exact h.once.sublist ((ascents_sublist tr).trans (List.sublist_append_left _ _))
  by_cases hbody : ∃ c s, e = .opened (.body c s)
  · -- The claim of the class turns into the start of its body.
    obtain ⟨c, s, rfl⟩ := hbody
    have hclaims := claims_of_head he.2.2.1 (c := c) rfl
    have honce := h.once
    rw [hclaims, List.cons_append] at honce
    exact List.perm_middle.nodup_iff.2 honce
  · have hsame : started (tr.record e).journal = started tr.journal :=
      started_cons (fun c s h => hbody ⟨c, s, h⟩) _
    rw [hsame]
    have hrest := h.once.sublist ((ascents_sublist tr).append_right (started tr.journal))
    rcases claims_record he with hsub | ⟨c, rfl⟩ | ⟨c, s, rfl⟩
    · exact hrest.sublist (hsub.append_right _)
    · obtain ⟨-, -, -, hevaluated, hpending⟩ := he.2
      refine List.nodup_cons.2 ⟨fun hmem => ?_, hrest⟩
      cases List.mem_append.1 hmem with
      | inl hmem => simp [h.pending c hmem] at hpending
      | inr hmem =>
        obtain ⟨s, hs⟩ := mem_started.1 hmem
        exact hevaluated (hstarted c s hs)
    · have hclaims := claims_of_head he.2.2.1 (c := c) rfl
      have honce := h.once
      rw [hclaims] at honce
      exact honce

end Exclusive

end

namespace ClassTable.Chronicle

variable {β : Type} {t : ClassTable β} {tr : Trace} {Next : ClassTable β → ClassTable β → Prop}

theorem exclusive (h : Chronicle Next t tr) (hreset : .reset ∉ tr.journal)
    (hone : OneEvaluator tr.journal) : Exclusive tr := by
  induction h with
  | start => exact ⟨by simp [ascents], by simp [claims, ascents, started, startsOf]⟩
  | @record t tr e h he ih =>
    have hexclusive := ih (List.not_mem_of_not_mem_cons hreset) hone.2
    have hstarted : ∀ c s, .opened (.body c s) ∈ tr.journal → tr.now.compilation.IsEvaluated c :=
      fun c s => h.isEvaluated_of_opened (List.not_mem_of_not_mem_cons hreset)
    apply hexclusive.record he ?_ hstarted
    rw [← h.ofJournal.2]
    exact hone.1
  | resume h hp ht names ih =>
    obtain ⟨hpending, honce⟩ := ih hreset hone
    exact ⟨hpending, honce⟩

theorem vacant (h : Chronicle Next t tr) (hreset : .reset ∉ tr.journal)
    (hone : OneEvaluator tr.journal) (hassigned : Unassigned tr.journal) : Vacant tr := by
  induction h with
  | start => exact fun c hc => by simp [claims, ascents] at hc
  | @record t tr e h he ih =>
    have hvacant := ih (List.not_mem_of_not_mem_cons hreset) hone.2 hassigned.tail
    have honce := (h.exclusive (List.not_mem_of_not_mem_cons hreset) hone.2).once
    intro c hc hevaluated
    by_cases hplaced : ∃ s, e = .placed c s
    · obtain ⟨s, rfl⟩ := hplaced
      refine ⟨s, rfl, ?_⟩
      have hnew : ¬ tr.now.compilation.IsEvaluated c := by
        intro hold
        have hmem : c ∈ claims tr := by simp [claims_of_head he.2.2.1 (c := c) rfl]
        obtain ⟨u, hu, -⟩ := hvacant c hmem hold
        cases he.2.2.1.symm.trans hu
      simp [Trace.record, Moment.after, Compilation.register_classScope c c s hnew]
    · have hold := (placed_or_isEvaluated hassigned hevaluated).resolve_left hplaced
      -- A claim that is left over is that of an open ascent, whose class has no scope yet.
      have hleft : c ∈ ascents tr.now.stack := by
        rcases claims_record he with hsub | ⟨d, rfl⟩ | ⟨d, s, rfl⟩
        · exact hsub.subset hc
        · rcases List.mem_cons.1 hc with rfl | hc
          · exact (he.2.2.2.2.1 hold).elim
          · exact hc
        · rcases List.mem_cons.1 hc with rfl | hc
          · exact (hplaced ⟨s, rfl⟩).elim
          · exact hc
      obtain ⟨s, hs, -⟩ := hvacant c ((ascents_sublist tr).subset hleft) hold
      rw [claims_of_head hs (c := c) rfl, List.cons_append] at honce
      exact ((List.nodup_cons.1 honce).1 (List.mem_append_left _ hleft)).elim
  | resume h hp ht names ih => exact ih hreset hone hassigned

theorem classScope_of_opened (h : Chronicle Next t tr) (hreset : .reset ∉ tr.journal)
    (hone : OneEvaluator tr.journal) (hassigned : Unassigned tr.journal) {c : ClassId} {s : ScopeId}
    (hs : .opened (.body c s) ∈ tr.journal) : tr.now.compilation.classScope c = some s := by
  induction h with
  | start => cases hs
  | @record t tr e h he ih =>
    have hreset' := List.not_mem_of_not_mem_cons hreset
    rcases List.mem_cons.1 hs with rfl | hs
    · have hplaced := he.2.2.1
      have hmem : c ∈ claims tr := by simp [claims_of_head hplaced (c := c) rfl]
      have hevaluated := h.isEvaluated_of_placed hreset' (List.mem_of_mem_head? hplaced)
      obtain ⟨u, hu, hscope⟩ := h.vacant hreset' hone.2 hassigned.tail c hmem hevaluated
      cases hplaced.symm.trans hu
      exact hscope
    · exact classScope_after (List.ne_of_not_mem_cons hreset).symm
        (ih hreset' hone.2 hassigned.tail hs)
  | resume h hp ht names ih => exact ih hreset hone hassigned hs

end ClassTable.Chronicle

theorem bodies_start_once (i : Instant) (k : Nat) (hreset : .reset ∉ i.journal k)
    (hone : OneEvaluator (i.journal k)) :
    (started (i.journal k)).Nodup ∧
      (Unassigned (i.journal k) → ∀ c s, (c, s) ∈ startsOf (i.journal k) →
        (i.compilation k).classScope c = some s) := by
  obtain ⟨t, tr, h, hjournal, hcomp⟩ := i.chronicle_any k
  rw [← hjournal] at hreset hone ⊢
  rw [← hcomp]
  refine ⟨(h.exclusive hreset hone).once.of_append_right, fun hassigned c s hs => ?_⟩
  exact h.classScope_of_opened hreset hone hassigned (mem_startsOf.1 hs)

def includedByParent : Instant :=
  .upTo
    [.define "base" none
        (some [.each [.includeClass "web" .top (.titled (.number ⟨0⟩) (.number ⟨0⟩))]]),
      .define "web" (some "base") (some [])]
    (.step (.evaluate (.named "web") .top (.titled (.number ⟨0⟩) (.number ⟨0⟩)))) 100

theorem includedByParent_starts_once :
    .reset ∉ includedByParent.journal 0 ∧ OneEvaluator (includedByParent.journal 0) ∧
      (started (includedByParent.journal 0)).length = 2 ∧
      (started (includedByParent.journal 0)).Nodup ∧
      (Unassigned (includedByParent.journal 0) → ∀ c s,
        (c, s) ∈ startsOf (includedByParent.journal 0) →
          (includedByParent.compilation 0).classScope c = some s) := by
  have hreset : .reset ∉ includedByParent.journal 0 := by decide +kernel
  have hone : OneEvaluator (includedByParent.journal 0) := by decide +kernel
  exact ⟨hreset, hone, by decide +kernel, bodies_start_once includedByParent 0 hreset hone⟩

end ConfigClasses

import ConfigClasses.Proofs.Instant
import ConfigClasses.Proofs.Starts

/-!
Evaluators at work inside one another know only their own ascents. When a class is given its scope
while an ascent of it is open further out, that ascent has been overtaken. A body is started a
second time, or in a scope that its class does not have, exactly if an evaluation goes on after that.
-/

namespace ConfigClasses

/-- The class was given a scope while an ascent of it was open. -/
def Overtaken (c : ClassId) (journal : List Event) : Prop :=
  ∃ s past, .placed c s :: past <:+ journal ∧ .ascent c ∈ (Moment.ofJournal past).stack

/-- After that an evaluation made a scope for the class, and started the body there. -/
def Overrun (c : ClassId) (journal : List Event) : Prop :=
  ∃ s past, .opened (.body c s) :: .placed c s :: past <:+ journal ∧ Overtaken c past

theorem Overtaken.suffix {c : ClassId} {past journal : List Event} (h : Overtaken c past)
    (hp : past <:+ journal) : Overtaken c journal := by
  obtain ⟨s, older, hs, hstack⟩ := h
  exact ⟨s, older, hs.trans hp, hstack⟩

theorem Overrun.suffix {c : ClassId} {past journal : List Event} (h : Overrun c past)
    (hp : past <:+ journal) : Overrun c journal := by
  obtain ⟨s, older, hs, hover⟩ := h
  exact ⟨s, older, hs.trans hp, hover⟩

namespace ClassTable

variable {β : Type} {t : ClassTable β} {tr : Trace} {Next : ClassTable β → ClassTable β → Prop}
  {c : ClassId}

namespace Chronicle

theorem overtaken (h : Chronicle Next t tr) (hassigned : Unassigned tr.journal)
    (hascends : Ascends c tr) (hevaluated : tr.now.compilation.IsEvaluated c) :
    Overtaken c tr.journal ∧ ((t.body? c).isSome → Launched c tr) := by
  induction h with
  | start => simp [Ascends] at hascends
  | @record t tr e h he ih =>
    rcases ascends_record he hascends with rfl | hopen
    · exact (he.2.2.2.2.1 hevaluated).elim
    -- An ascent begins before its class has a scope, so that the scope was given during the ascent.
    rcases placed_or_isEvaluated hassigned hevaluated with ⟨s, rfl⟩ | hold
    · exact ⟨⟨s, tr.journal, List.suffix_refl _, h.ofJournal.2 ▸ hopen⟩, fun _ => .inr ⟨s, rfl⟩⟩
    · obtain ⟨hover, hlaunched⟩ := ih hassigned.tail (.inl hopen) hold
      exact ⟨hover.suffix (List.suffix_cons e _), fun hbody => (hlaunched hbody).record he hbody⟩
  | resume h hp ht names ih => exact (hp.not_ascends hascends).elim

theorem of_placed (h : Chronicle Next t tr) {s : ScopeId} {past : List Event}
    (hj : tr.journal = .placed c s :: past) (hreset : .reset ∉ tr.journal)
    (hassigned : Unassigned tr.journal) (hover : ¬ Overtaken c past) :
    tr.now.compilation.classScope c = some s ∧ c ∉ started past := by
  obtain ⟨tr', h', rfl, he, rfl⟩ := h.last hj (by simp)
  have hnew : ¬ tr'.now.compilation.IsEvaluated c :=
    fun hold => hover (h'.overtaken hassigned.tail (.inr he.2.2.1) hold).1
  refine ⟨by simp [Trace.record, Moment.after, Compilation.register_classScope c c s hnew], ?_⟩
  intro hmem
  obtain ⟨u, hu⟩ := mem_started.1 hmem
  exact hnew (h'.isEvaluated_of_opened (List.not_mem_of_not_mem_cons hreset) hu)

theorem starts_of_not_overrun (h : Chronicle Next t tr) (hreset : .reset ∉ tr.journal)
    (hassigned : Unassigned tr.journal) (hover : ∀ c, ¬ Overrun c tr.journal) :
    (started tr.journal).Nodup ∧
      ∀ c s, .opened (.body c s) ∈ tr.journal → tr.now.compilation.classScope c = some s := by
  induction h with
  | start => exact ⟨List.nodup_nil, by simp⟩
  | @record t tr e h he ih =>
    have hreset' := List.not_mem_of_not_mem_cons hreset
    obtain ⟨honce, hscope⟩ := ih hreset' hassigned.tail
      fun c hc => hover c (hc.suffix (List.suffix_cons e _))
    have hkept : ∀ c s, .opened (.body c s) ∈ tr.journal →
        (tr.record e).now.compilation.classScope c = some s :=
      fun c s hs => classScope_after (List.ne_of_not_mem_cons hreset).symm (hscope c s hs)
    -- Only the start of a body adds to what is claimed, and its class was placed right before it.
    by_cases hbody : ∃ c s, e = .opened (.body c s)
    · obtain ⟨c, s, rfl⟩ := hbody
      obtain ⟨past, hpast⟩ := List.head?_eq_some_iff.1 he.2.2.1
      have hjournal : (tr.record (.opened (.body c s))).journal =
          .opened (.body c s) :: .placed c s :: past := by
        simp [Trace.record, hpast]
      obtain ⟨hplaced, hnew⟩ := h.of_placed hpast hreset' hassigned.tail
        fun ho => hover c ⟨s, past, hjournal ▸ List.suffix_refl _, ho⟩
      have hstarts : started (tr.record (.opened (.body c s))).journal = c :: started past := by
        rw [hjournal, started_opened, started_cons (by simp)]
      rw [hpast, started_cons (by simp)] at honce
      refine ⟨hstarts ▸ List.nodup_cons.2 ⟨hnew, honce⟩, fun d u hu => ?_⟩
      cases List.mem_cons.1 hu with
      | inl heq =>
        cases heq
        exact hplaced
      | inr hold => exact hkept d u hold
    · have hold := started_cons (fun c s h => hbody ⟨c, s, h⟩) tr.journal
      refine ⟨hold ▸ honce, fun d u hu => ?_⟩
      cases List.mem_cons.1 hu with
      | inl heq => exact (hbody ⟨d, u, heq.symm⟩).elim
      | inr hold => exact hkept d u hold
  | resume h hp ht names ih => exact ih hreset hassigned hover

theorem not_nodup_of_overrun (h : Chronicle Next t tr) (hreset : .reset ∉ tr.journal)
    (hassigned : Unassigned tr.journal) (hover : Overrun c tr.journal) :
    ¬ (started tr.journal).Nodup := by
  obtain ⟨s, past, hsuffix, u, older, hplaced, -⟩ := hover
  obtain ⟨t', tr₂, h₂, hj₂⟩ := h.suffix hsuffix
  obtain ⟨tr₁, h₁, hj₁, hstart, -⟩ := h₂.last hj₂ (by simp)
  obtain ⟨tr₀, h₀, rfl, hplace, -⟩ := h₁.last hj₁ (by simp)
  have hpast : tr₀.journal <:+ tr.journal :=
    ((List.suffix_cons _ _).trans (List.suffix_cons _ _)).trans hsuffix
  have hreset₀ : .reset ∉ tr₀.journal := fun hmem => hreset (hpast.subset hmem)
  have hassigned₀ : Unassigned tr₀.journal := fun e he => hassigned e (hpast.subset he)
  have hevaluated := h₀.isEvaluated_of_placed hreset₀ (hplaced.subset List.mem_cons_self)
  have hopened : c ∈ started tr₀.journal := by
    rcases (h₀.overtaken hassigned₀ (.inr hplace.2.2.1) hevaluated).2 hstart.2.2.2 with ho | ⟨v, hv⟩
    · exact ho
    · cases hplace.2.2.1.symm.trans hv
  have htwice : ¬ (started (.opened (.body c s) :: .placed c s :: tr₀.journal)).Nodup := by
    rw [started_opened, started_cons (by simp)]
    exact fun hnodup => (List.nodup_cons.1 hnodup).1 hopened
  exact fun hnodup => htwice (hnodup.sublist ((hsuffix.sublist.filterMap _).map _))

end Chronicle

end ClassTable

theorem starts_once_iff_not_overrun (i : Instant) (k : Nat) (hreset : .reset ∉ i.journal k)
    (hassigned : Unassigned (i.journal k)) :
    ((started (i.journal k)).Nodup ∧
        ∀ c s, (c, s) ∈ startsOf (i.journal k) → (i.compilation k).classScope c = some s) ↔
      ∀ c, ¬ Overrun c (i.journal k) := by
  obtain ⟨t, tr, h, hjournal, hcomp⟩ := i.chronicle_any k
  rw [← hjournal] at hreset hassigned ⊢
  simp only [← hcomp, mem_startsOf]
  constructor
  · exact fun ⟨honce, _⟩ c hover => h.not_nodup_of_overrun hreset hassigned hover honce
  · exact h.starts_of_not_overrun hreset hassigned

def childInFreshEvaluator : Instant :=
  .upTo
    [.define "base" none
        (some [.fresh (.evaluate (.number ⟨1⟩) .top (.titled (.number ⟨0⟩) (.number ⟨0⟩)))]),
      .define "web" (some "base") (some [])]
    (.step (.evaluate (.number ⟨1⟩) .top (.titled (.number ⟨0⟩) (.number ⟨0⟩)))) 100

theorem childInFreshEvaluator_starts_twice :
    .reset ∉ childInFreshEvaluator.journal 0 ∧ Unassigned (childInFreshEvaluator.journal 0) ∧
      ¬ (started (childInFreshEvaluator.journal 0)).Nodup ∧
      (⟨1⟩, ⟨3⟩) ∈ startsOf (childInFreshEvaluator.journal 0) ∧
      (childInFreshEvaluator.compilation 0).classScope ⟨1⟩ = some ⟨2⟩ := by
  decide +kernel

theorem childInFreshEvaluator_overrun :
    .reset ∉ childInFreshEvaluator.journal 0 ∧ Unassigned (childInFreshEvaluator.journal 0) ∧
      ∃ c, Overrun c (childInFreshEvaluator.journal 0) := by
  have hreset : .reset ∉ childInFreshEvaluator.journal 0 := by decide +kernel
  have hassigned : Unassigned (childInFreshEvaluator.journal 0) := by decide +kernel
  have htwice : ¬ (started (childInFreshEvaluator.journal 0)).Nodup := by decide +kernel
  refine ⟨hreset, hassigned, not_forall_not.1 fun hover => htwice ?_⟩
  exact ((starts_once_iff_not_overrun childInFreshEvaluator 0 hreset hassigned).2 hover).1

end ConfigClasses

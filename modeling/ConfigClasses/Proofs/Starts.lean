import ConfigClasses.Proofs.Conduct
import ConfigClasses.Proofs.Registration
import ConfigClasses.Session

namespace ConfigClasses

theorem mem_startsOf {events : List Event} {c : ClassId} {s : ScopeId} :
    (c, s) ∈ startsOf events ↔ .opened (.body c s) ∈ events := by
  simp only [startsOf, List.mem_filterMap]
  constructor
  · rintro ⟨e, he, h⟩
    split at h
    · cases h
      exact he
    · cases h
  · exact fun h => ⟨_, h, rfl⟩

def started (journal : List Event) : List ClassId := (startsOf journal).map Prod.fst

theorem mem_started {journal : List Event} {c : ClassId} :
    c ∈ started journal ↔ ∃ s, .opened (.body c s) ∈ journal := by
  simp [started, mem_startsOf]

theorem started_opened (c : ClassId) (s : ScopeId) (journal : List Event) :
    started (.opened (.body c s) :: journal) = c :: started journal := rfl

theorem started_cons {e : Event} (he : ∀ c s, e ≠ .opened (.body c s)) (journal : List Event) :
    started (e :: journal) = started journal := by
  simp only [started, startsOf]
  cases e with
  | opened a =>
    cases a with
    | body c s => exact (he c s rfl).elim
    | _ => rfl
  | _ => rfl

theorem classScope_after {m : Moment} {e : Event} {c : ClassId} {s : ScopeId} (he : e ≠ .reset)
    (h : m.compilation.classScope c = some s) : (m.after e).compilation.classScope c = some s := by
  cases e with
  | reset => exact (he rfl).elim
  | placed d u | assigned d u => exact Compilation.classScope_register d c u h
  | tagged name => simpa [Moment.after] using h
  | _ => exact h

theorem isEvaluated_after {m : Moment} {e : Event} {c : ClassId} (he : e ≠ .reset)
    (h : m.compilation.IsEvaluated c) : (m.after e).compilation.IsEvaluated c := by
  obtain ⟨s, hs⟩ := Compilation.isEvaluated_iff.1 h
  exact Compilation.isEvaluated_of_classScope (classScope_after he hs)

theorem isEvaluated_ofJournal {since past : List Event} {c : ClassId} {s : ScopeId}
    (hreset : .reset ∉ since) (h : .placed c s ∈ since) :
    (Moment.ofJournal (since ++ past)).compilation.IsEvaluated c := by
  induction since with
  | nil => cases h
  | cons e since ih =>
    rcases List.mem_cons.1 h with rfl | h
    · exact (Compilation.isEvaluated_register c c s).2 (.inl rfl)
    · have hold := ih (List.not_mem_of_not_mem_cons hreset) h
      exact isEvaluated_after (List.ne_of_not_mem_cons hreset).symm hold

theorem isTagged_after {m : Moment} {e : Event} {name : Name} (he : e ≠ .reset)
    (h : m.compilation.IsTagged name) : (m.after e).compilation.IsTagged name := by
  cases e with
  | reset => exact (he rfl).elim
  | placed d u | assigned d u => exact (Compilation.register_isTagged d u name).2 h
  | tagged other => exact (Compilation.isTagged_tag other name).2 (.inr h)
  | _ => exact h

theorem placed_or_isEvaluated {m : Moment} {e : Event} {journal : List Event} {c : ClassId}
    (hassigned : Unassigned (e :: journal)) (h : (m.after e).compilation.IsEvaluated c) :
    (∃ s, e = .placed c s) ∨ m.compilation.IsEvaluated c := by
  cases e with
  | reset => exact (Compilation.initial_isEvaluated c h).elim
  | placed d u =>
    rcases (Compilation.isEvaluated_register d c u).1 h with rfl | h
    · exact .inl ⟨u, rfl⟩
    · exact .inr h
  | assigned d u => exact (hassigned.ne d u rfl).elim
  | tagged name => exact .inr (by simpa [Moment.after] using h)
  | _ => exact .inr h

def Ascends (c : ClassId) (tr : Trace) : Prop :=
  .ascent c ∈ tr.now.stack ∨ tr.journal.head? = some (.closed (.ascent c))

/-- The body of the class was started, or is if there is one. -/
def Launched (c : ClassId) (tr : Trace) : Prop :=
  c ∈ started tr.journal ∨ ∃ s, tr.journal.head? = some (.placed c s)

section

variable {tr : Trace} {c : ClassId}

theorem Trace.Paused.not_ascends (h : tr.Paused) : ¬ Ascends c tr := by
  rintro (hopen | hlast)
  · simp [h.1] at hopen
  · cases h.2 _ hlast

theorem Trace.Paused.started (h : tr.Paused) (hc : Launched c tr) : c ∈ started tr.journal := by
  rcases hc with hc | ⟨s, hs⟩
  · exact hc
  · cases h.2 _ hs

variable {β : Type} {t : ClassTable β} {e : Event}

theorem ascends_record (he : t.Permits tr e) (h : Ascends c (tr.record e)) :
    e = .opened (.ascent c) ∨ .ascent c ∈ tr.now.stack := by
  cases e with
  | opened a =>
    cases h with
    | inl hopen =>
      rcases List.mem_cons.1 hopen with rfl | hopen
      · exact .inl rfl
      · exact .inr hopen
    | inr hlast => cases hlast
  | closed a =>
    cases h with
    | inl hopen => exact .inr (List.mem_of_mem_tail hopen)
    | inr hlast =>
      cases hlast
      exact .inr (List.mem_of_mem_head? he.2)
  | _ =>
    cases h with
    | inl hopen => exact .inr hopen
    | inr hlast => cases hlast

theorem Launched.record (h : Launched c tr) (he : t.Permits tr e) (hbody : (t.body? c).isSome) :
    Launched c (tr.record e) := by
  left
  rcases h with hc | ⟨s, hs⟩
  · exact (((List.sublist_cons_self e tr.journal).filterMap _).map _).subset hc
  · rcases he.1 with ⟨d, u, rfl⟩ | hdue
    · cases hs.symm.trans he.2.2.1
      exact List.mem_cons_self
    · simp [hdue c s hs] at hbody

end

namespace ClassTable.Chronicle

variable {β : Type} {t : ClassTable β} {tr : Trace} {Next : ClassTable β → ClassTable β → Prop}
  {c : ClassId} {s : ScopeId}

theorem placed_of_started (h : Chronicle Next t tr) {since past : List Event}
    (hs : tr.journal = since ++ .opened (.body c s) :: past) : past.head? = some (.placed c s) := by
  obtain ⟨_, _, hopened, hjournal⟩ := h.suffix (hs ▸ List.suffix_append since _)
  obtain ⟨_, -, hpast, hpermits, -⟩ := hopened.last hjournal (by simp)
  exact hpast ▸ hpermits.2.2.1

theorem isEvaluated_of_started (h : Chronicle Next t tr) {since past : List Event}
    (hs : tr.journal = since ++ .opened (.body c s) :: past) (hreset : .reset ∉ since) :
    tr.now.compilation.IsEvaluated c := by
  obtain ⟨past, rfl⟩ := List.head?_eq_some_iff.1 (h.placed_of_started hs)
  have hsplit : tr.journal = (since ++ [.opened (.body c s), .placed c s]) ++ past := by simp [hs]
  rw [← h.ofJournal.1, hsplit]
  exact isEvaluated_ofJournal (s := s) (by simpa using hreset) (by simp)

theorem isEvaluated_of_placed (h : Chronicle Next t tr) (hreset : .reset ∉ tr.journal)
    (hp : .placed c s ∈ tr.journal) : tr.now.compilation.IsEvaluated c := by
  rw [← h.ofJournal.1, ← List.append_nil tr.journal]
  exact isEvaluated_ofJournal hreset hp

theorem isEvaluated_of_opened (h : Chronicle Next t tr) (hreset : .reset ∉ tr.journal)
    (hs : .opened (.body c s) ∈ tr.journal) : tr.now.compilation.IsEvaluated c := by
  obtain ⟨since, past, hs⟩ := List.append_of_mem hs
  refine h.isEvaluated_of_started hs fun hr => hreset ?_
  exact hs ▸ List.mem_append_left _ hr

theorem declared_of_ascends (h : Chronicle Next t tr) (hreset : .reset ∉ tr.journal)
    (hascends : Ascends c tr) :
    ∃ d, t.decl? c = some d ∧ tr.now.compilation.IsTagged d.name := by
  induction h with
  | start => simp [Ascends] at hascends
  | @record t tr e h he ih =>
    have hne : e ≠ .reset := (List.ne_of_not_mem_cons hreset).symm
    have hdecl : ∃ d, t.decl? c = some d ∧ tr.now.compilation.IsTagged d.name := by
      rcases ascends_record he hascends with rfl | hopen
      · exact he.2.2.2.1
      · exact ih (List.not_mem_of_not_mem_cons hreset) (.inl hopen)
    obtain ⟨d, hd, htagged⟩ := hdecl
    exact ⟨d, hd, isTagged_after hne htagged⟩
  | resume h hp ht names ih => exact (hp.not_ascends hascends).elim

end ClassTable.Chronicle

end ConfigClasses

import ConfigClasses.Proofs.Tracking
import ConfigClasses.Proofs.TableGrowth

namespace ConfigClasses

open ClassTable

/-- An instant of a session: the commands of `done` are over, and of the next one the first `events`
have happened. -/
structure Instant where
  done : List Command
  next : Command
  events : List Event
  begun : events <+: ((Session.initial.run done).2.perform next).2.1

namespace Instant

variable (i : Instant)

def before : Session := (Session.initial.run i.done).2

def moment : Moment := i.before.moment.replay i.events

def session : Session := (i.before.withNames i.moment.names).withCompilation i.moment.compilation

def table (j : Nat) : ClassTable Body := i.session.tableAt j

def compilation (k : Nat) : Compilation := i.session.compilationAt k

def passages : List Passage :=
  (Session.initial.run i.done).1.map Report.passage ++
    [⟨i.before.current, i.before.active, i.events⟩]

def journal (k : Nat) : List Event := journalOf i.passages k

/-- Whatever happened in compilation `k` happened over table `j`. -/
def UsesOnly (j k : Nat) : Prop :=
  ∀ p ∈ i.passages, p.active = k → p.events ≠ [] → p.current = j

instance (j k : Nat) : Decidable (i.UsesOnly j k) :=
  inferInstanceAs (Decidable (∀ p ∈ i.passages, p.active = k → p.events ≠ [] → p.current = j))

def upTo (done : List Command) (next : Command) (n : Nat) : Instant :=
  ⟨done, next, ((Session.initial.run done).2.perform next).2.1.take n, List.take_prefix n _⟩

end Instant

namespace Session

theorem declare_session (s : Session)
    (r : Except TableError (Option ClassId) × ClassTable Body × Interner) :
    (s.declare r).2 = (s.withTable r.2.1).withNames r.2.2 := by
  obtain ⟨_ | _, t, names⟩ := r <;> rfl

theorem growsTo_withTable (s : Session) {t : ClassTable Body} (h : s.registry.table.GrowsTo t)
    (names : Interner) (j : Nat) :
    (s.tableAt j).GrowsTo (((s.withTable t).withNames names).tableAt j) := by
  have hset : ((s.withTable t).withNames names).tableAt j =
      if s.current = j ∧ j < s.registries.size then t else s.tableAt j := by
    simp only [tableAt, withTable, withNames, Array.getD_eq_getD_getElem?,
      Array.getElem?_setIfInBounds]
    by_cases hj : s.current = j <;> by_cases hlt : s.current < s.registries.size <;> grind
  rw [hset]
  split
  · next hj =>
    obtain ⟨rfl, -⟩ := hj
    exact h
  · exact .refl

theorem growsTo_push (s : Session) (n j : Nat) :
    (s.tableAt j).GrowsTo ((s.registries.push ⟨.empty, n⟩).getD j default).table := by
  have hpush : ((s.registries.push ⟨.empty, n⟩).getD j default).table = s.tableAt j := by
    simp only [tableAt, Array.getD_eq_getD_getElem?, Array.getElem?_push]
    split
    · next hj => simp [hj, default]
    · rfl
  rw [hpush]
  exact .refl

theorem growsTo_perform (s : Session) (command : Command) (j : Nat) :
    (s.tableAt j).GrowsTo ((s.perform command).2.2.tableAt j) := by
  cases command with
  | define name parent body =>
    simp only [perform, declare_session]
    exact s.growsTo_withTable (GrowsTo.refl.define s.names name parent body) _ j
  | defineChain stem length body =>
    simp only [perform, declare_session]
    exact s.growsTo_withTable
      (growsTo_defineFrom stem body length 0 none s.registry.table s.names) _ j
  | newTable ownNames =>
    simp only [perform, newTable]
    split <;> exact s.growsTo_push _ j
  | useTable index | useCompilation index =>
    simp only [perform]
    split <;> exact .refl
  | newCompilation | step _ => exact .refl

theorem growsTo_run (s : Session) (commands : List Command) (j : Nat) :
    (s.tableAt j).GrowsTo ((s.run commands).2.tableAt j) := by
  induction commands generalizing s with
  | nil => exact .refl
  | cons command commands ih =>
    have hperform := s.growsTo_perform command j
    simp only [run]
    split
    · exact hperform.trans (ih _)
    · exact hperform

theorem empty_growsTo_tableAt (commands : List Command) (j : Nat) :
    ClassTable.empty.GrowsTo ((initial.run commands).2.tableAt j) := by
  have hinitial : initial.tableAt j = .empty := by
    unfold tableAt initial
    cases j <;> rfl
  exact hinitial ▸ initial.growsTo_run commands j

theorem tracks_initial (Next : ClassTable Body → ClassTable Body → Prop)
    (T : Session → ClassTable Body) (k : Nat) : Tracks Next T k initial [] := by
  refine ⟨_, .start _ .initial, ⟨rfl, by simp⟩, rfl, ?_⟩
  unfold compilationAt initial
  cases k <;> rfl

end Session

namespace Instant

variable {Next : ClassTable Body → ClassTable Body → Prop} {T : Session → ClassTable Body}

theorem chronicle (i : Instant) (k : Nat) (hr : ∀ t, Next t t)
    (hnext : ∀ s command, Next (T s) (T (s.perform command).2.2)) {U : Nat → Prop}
    (hu : ∀ s, U s.current → T s = s.registry.table)
    (ht : ∀ p ∈ i.passages, p.active = k → p.events ≠ [] → U p.current) :
    ∃ tr, Chronicle Next (T i.before) tr ∧ tr.journal = i.journal k ∧
      tr.now.compilation = i.compilation k := by
  obtain ⟨htracks, hsound⟩ := (Session.tracks_initial Next T k).run hr Session.sound_initial hnext
    hu i.done fun p hp => ht p (List.mem_append_left _ hp)
  have hcomp : i.compilation k = if i.before.active = k then i.moment.compilation
      else i.before.compilationAt k := by
    have hactive : i.before.active < i.before.compilations.size := hsound.active
    simp only [compilation, session, Session.compilationAt, Session.withCompilation,
      Session.withNames, Array.getD_eq_getD_getElem?, Array.getElem?_setIfInBounds, hactive,
      if_true]
    split <;> rfl
  rw [List.append_nil] at htracks
  rw [hcomp, journal, passages, journalOf_append, journalOf_singleton]
  by_cases hk : i.before.active = k
  · simp only [hk, if_true]
    have hlast := ht ⟨i.before.current, i.before.active, i.events⟩ (by simp [passages]) hk
    exact ⟨_, htracks.begin hr i.begun hk fun he => hu _ (hlast he), rfl, rfl⟩
  · simp only [hk, if_false, List.nil_append]
    obtain ⟨tr, hchronicle, -, hjournal, hc⟩ := htracks
    exact ⟨tr, hchronicle, hjournal, hc⟩

theorem chronicle_any (i : Instant) (k : Nat) :
    ∃ (t : ClassTable Body) (tr : Trace), Chronicle (fun _ _ => True) t tr ∧
      tr.journal = i.journal k ∧ tr.now.compilation = i.compilation k :=
  ⟨i.before.registry.table, i.chronicle (T := fun s => s.registry.table) (U := fun _ => True) k
    (fun _ => trivial) (fun _ _ => trivial) (fun _ _ => rfl) fun _ _ _ _ => trivial⟩

theorem UsesOnly.chronicle {i : Instant} {j k : Nat} (h : i.UsesOnly j k) :
    ∃ tr, Chronicle Extends (i.table j) tr ∧ tr.journal = i.journal k ∧
      tr.now.compilation = i.compilation k :=
  i.chronicle (T := fun s => s.tableAt j) (U := fun c => c = j) k Extends.refl
    (fun s command => (s.growsTo_perform command j).toExtends) (fun _ hc => hc ▸ rfl) h

end Instant

end ConfigClasses

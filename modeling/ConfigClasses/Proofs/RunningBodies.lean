import ConfigClasses.Proofs.Starts

namespace ConfigClasses

def running : List Activity → List ClassId
  | [] => []
  | .body c _ :: stack => c :: running stack
  | _ :: stack => running stack

def NoBodyResets : List Event → Prop :=
  Always fun m e => e = .reset → running m.stack = []

instance (journal : List Event) : Decidable (NoBodyResets journal) :=
  Always.decidable journal

theorem mem_running_of_mem_tail {stack : List Activity} {c : ClassId}
    (h : c ∈ running stack.tail) : c ∈ running stack := by
  cases stack with
  | nil => exact h
  | cons a stack =>
    cases a with
    | body d s => exact List.mem_cons_of_mem d h
    | _ => exact h

def Apart : List Activity → Prop
  | [] => True
  | .ascent c :: stack | .body c _ :: stack => c ∉ running stack ∧ Apart stack
  | _ :: stack => Apart stack

theorem Apart.tail {stack : List Activity} (h : Apart stack) : Apart stack.tail := by
  cases stack with
  | nil => trivial
  | cons a stack =>
    cases a with
    | ascent c | body c s => exact h.2
    | _ => exact h

theorem Apart.nodup {stack : List Activity} (h : Apart stack) : (running stack).Nodup := by
  induction stack with
  | nil => exact List.nodup_nil
  | cons a stack ih =>
    cases a with
    | body c s => exact List.nodup_cons.2 ⟨h.1, ih h.2⟩
    | ascent c => exact ih h.2
    | _ => exact ih h

def Entering (c : ClassId) (tr : Trace) : Prop :=
  tr.journal.head? = some (.closed (.ascent c)) ∨ ∃ s, tr.journal.head? = some (.placed c s)

def Served (c : ClassId) (tr : Trace) : Prop :=
  ∃ s, tr.journal.head? = some (.placed c s) ∨ tr.journal.head? = some (.closed (.body c s))

structure Hosting (tr : Trace) : Prop where
  evaluated : ∀ c ∈ running tr.now.stack, tr.now.compilation.IsEvaluated c
  served : ∀ c, Served c tr → tr.now.compilation.IsEvaluated c
  apart : Apart tr.now.stack
  entering : ∀ c, Entering c tr → c ∉ running tr.now.stack

namespace Hosting

theorem start (m : Moment) (h : m.stack = []) : Hosting ⟨m, []⟩ := by
  constructor <;> simp [h, running, Apart, Served, Entering]

variable {β : Type} {t : ClassTable β} {tr : Trace} {e : Event}

theorem evaluated_record (h : Hosting tr) (he : t.Permits tr e)
    (hreset : e = .reset → running tr.now.stack = []) :
    ∀ c ∈ running (tr.record e).now.stack, (tr.record e).now.compilation.IsEvaluated c := by
  intro c hc
  by_cases heq : e = .reset
  -- A reset takes every class its scope, but then no body is running.
  · subst heq
    have hnone : running tr.now.stack = [] := hreset rfl
    simp [Trace.record, Moment.after, hnone] at hc
  apply isEvaluated_after heq
  cases e with
  | opened a =>
    cases a with
    | body d s =>
      rcases List.mem_cons.1 hc with rfl | hc
      · exact h.served c ⟨s, .inl he.2.2.1⟩
      · exact h.evaluated c hc
    | _ => exact h.evaluated c hc
  | closed a => exact h.evaluated c (mem_running_of_mem_tail hc)
  | _ => exact h.evaluated c hc

theorem served_record (h : Hosting tr) (he : t.Permits tr e) {c : ClassId}
    (hc : Served c (tr.record e)) : (tr.record e).now.compilation.IsEvaluated c := by
  obtain ⟨s, hs | hs⟩ := hc
  · obtain rfl : e = .placed c s := by simpa [Trace.record] using hs
    exact (Compilation.isEvaluated_register c c s).2 (.inl rfl)
  · obtain rfl : e = .closed (.body c s) := by simpa [Trace.record] using hs
    obtain ⟨stack, hstack⟩ := List.head?_eq_some_iff.1 he.2
    exact h.evaluated c (hstack ▸ List.mem_cons_self)

theorem apart_record (h : Hosting tr) (he : t.Permits tr e) : Apart (tr.record e).now.stack := by
  cases e with
  | opened a =>
    cases a with
    | ascent c => exact ⟨fun hc => he.2.2.2.2.1 (h.evaluated c hc), h.apart⟩
    | body c s => exact ⟨h.entering c (.inr ⟨s, he.2.2.1⟩), h.apart⟩
    | _ => exact h.apart
  | closed a => exact h.apart.tail
  | _ => exact h.apart

theorem entering_record (h : Hosting tr) (he : t.Permits tr e) {c : ClassId}
    (hc : Entering c (tr.record e)) : c ∉ running (tr.record e).now.stack := by
  rcases hc with hc | ⟨s, hc⟩
  · obtain rfl : e = .closed (.ascent c) := by simpa [Trace.record] using hc
    obtain ⟨stack, hstack⟩ := List.head?_eq_some_iff.1 he.2
    have hapart := h.apart
    rw [hstack] at hapart
    simpa [Trace.record, Moment.after, hstack] using hapart.1
  · obtain rfl : e = .placed c s := by simpa [Trace.record] using hc
    exact h.entering c (.inl he.2.2.1)

theorem record (h : Hosting tr) (he : t.Permits tr e)
    (hreset : e = .reset → running tr.now.stack = []) : Hosting (tr.record e) :=
  ⟨h.evaluated_record he hreset, fun _ => h.served_record he, h.apart_record he,
    fun _ => h.entering_record he⟩

end Hosting

namespace ClassTable

variable {β : Type} {t : ClassTable β} {tr : Trace}

theorem Chronicle.hosting {Next : ClassTable β → ClassTable β → Prop} (h : Chronicle Next t tr)
    (hreset : NoBodyResets tr.journal) : Hosting tr := by
  induction h with
  | start => exact .start _ rfl
  | record h he ih =>
    apply (ih hreset.2).record he
    rw [← h.ofJournal.2]
    exact hreset.1
  | resume h hp ht names ih =>
    obtain ⟨hevaluated, hserved, hapart, hentering⟩ := ih hreset
    exact ⟨hevaluated, hserved, hapart, hentering⟩

theorem Path.shown {tr' : Trace} (h : t.Path tr tr') (htr : tr.Shown) : tr'.Shown := by
  induction h with
  | refl => exact htr
  | record h he ih => exact ih.record _

theorem Path.hosting {m : Moment} (hm : m.stack = []) (h : t.Path ⟨m, []⟩ tr)
    (hreset : NoBodyResets tr.journal) : Hosting tr := by
  induction h with
  | refl => exact .start m hm
  | record h he ih =>
    apply (ih hreset.2).record he
    rw [← h.shown (Trace.shown_start hm)]
    exact hreset.1

theorem lt_size_of_body? {c : ClassId} (h : (t.body? c).isSome) : c.raw < t.size := by
  refine Nat.lt_of_not_le fun hc => ?_
  have hd : t.decl? c = none := Array.getElem?_eq_none hc
  simp [body?, hd] at h

theorem Path.declared {m : Moment} (hm : m.stack = []) (h : t.Path ⟨m, []⟩ tr) :
    ∀ c ∈ running tr.now.stack, c.raw < t.size := by
  induction h with
  | refl => simp [hm, running]
  | @record tr e h he ih =>
    intro c hc
    cases e with
    | opened a =>
      cases a with
      | body d s =>
        rcases List.mem_cons.1 hc with rfl | hc
        · exact lt_size_of_body? he.2.2.2
        · exact ih c hc
      | _ => exact ih c hc
    | closed a => exact ih c (mem_running_of_mem_tail hc)
    | _ => exact ih c hc

theorem Path.running_le {m : Moment} (hm : m.stack = []) (h : t.Path ⟨m, []⟩ tr)
    (hreset : NoBodyResets tr.journal) : (running tr.now.stack).length ≤ t.size :=
  length_le_size (h.hosting hm hreset).apart.nodup (h.declared hm)

end ClassTable

end ConfigClasses

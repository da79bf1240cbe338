import ConfigClasses.Proofs.Congruence
import ConfigClasses.Proofs.Conduct
import ConfigClasses.Proofs.Lawful

namespace ConfigClasses

namespace Eval

variable {β α γ : Type} {t : ClassTable β} {act : Eval α} {tr : Trace}

def answer (act : Eval α) (tr : Trace) : Except Halt α :=
  match act tr with
  | .ok x _ => .ok x
  | .error e _ => .error e

theorem answer_bind (next : α → Eval γ) :
    (act >>= next).answer tr = match act.answer tr with
      | .ok x => (next x).answer (act.final tr)
      | .error e => .error e := by
  cases hact : act tr with
  | ok x tr' => simp only [answer, final, bind_of_ok hact, hact]
  | error e tr' => simp only [answer, bind_of_error hact, hact]

theorem final_bind (next : α → Eval γ) :
    (act >>= next).final tr = match act.answer tr with
      | .ok x => (next x).final (act.final tr)
      | .error _ => act.final tr := by
  cases hact : act tr with
  | ok x tr' => simp only [answer, final, bind_of_ok hact, hact]
  | error e tr' => simp only [answer, final, bind_of_error hact, hact]

theorem answer_during (a : Activity) :
    (during a act).answer tr = act.answer (tr.record (.opened a)) := by
  unfold answer during
  cases act (tr.record (.opened a)) with
  | ok x tr' => rfl
  | error e tr' => rfl

theorem answer_answering (t : ClassTable β) (act : Eval Reply) (tr : Trace) :
    (answering t act).answer tr = match act.answer tr with
      | .error (.failure f) => .ok (.failed f (f.message? t (act.final tr).now.names))
      | answer => answer := by
  unfold answer final answering
  cases act tr with
  | ok x tr' => rfl
  | error e tr' => cases e <;> rfl

theorem final_answering (t : ClassTable β) (act : Eval Reply) (tr : Trace) :
    (answering t act).final tr = act.final tr := by
  unfold final answering
  cases act tr with
  | ok x tr' => rfl
  | error e tr' => cases e <;> rfl

structure Balanced (act : Eval α) : Prop where
  stack : ∀ tr, (act.final tr).now.stack = tr.now.stack
  shown : ∀ tr, tr.Shown → (act.final tr).Shown

theorem balanced_of_final (h : ∀ tr, act.final tr = tr) : Balanced act :=
  ⟨fun tr => by rw [h tr], fun tr => by simp only [h tr, imp_self]⟩

theorem Balanced.bind {next : α → Eval γ} (ha : Balanced act) (hn : ∀ x, Balanced (next x)) :
    Balanced (act >>= next) := by
  constructor
  · intro tr
    rw [final_bind]
    cases act.answer tr with
    | ok x => exact ((hn x).stack _).trans (ha.stack tr)
    | error e => exact ha.stack tr
  · intro tr htr
    rw [final_bind]
    cases act.answer tr with
    | ok x => exact (hn x).shown _ (ha.shown tr htr)
    | error e => exact ha.shown tr htr

theorem balanced_record {e : Event} (he : ∀ m : Moment, (m.after e).stack = m.stack) :
    Balanced (record e) :=
  ⟨fun tr => he tr.now, fun _ htr => htr.record e⟩

theorem balanced_now {next : Moment → Eval α} (h : ∀ m, Balanced (next m)) :
    Balanced (now >>= next) :=
  ⟨fun tr => (h tr.now).stack tr, fun tr => (h tr.now).shown tr⟩

theorem Balanced.during (h : Balanced act) (a : Activity) : Balanced (during a act) := by
  constructor
  · intro tr
    rw [final_during]
    exact congrArg List.tail (h.stack (tr.record (.opened a)))
  · intro tr htr
    rw [final_during]
    exact (h.shown _ (htr.record _)).record _

theorem Balanced.answering {act : Eval Reply} (h : Balanced act) : Balanced (answering t act) := by
  constructor
  · intro tr
    rw [final_answering, h.stack tr]
  · intro tr htr
    rw [final_answering]
    exact h.shown tr htr

theorem balanced_congruence (t : ClassTable β) : Congruence t fun _ act _ => Balanced act where
  pure _ := balanced_of_final fun _ => rfl
  bind := Balanced.bind
  now h := balanced_now fun m => h m m (.refl m)
  fail _ := balanced_of_final fun _ => rfl
  stray := balanced_of_final fun _ => rfl
  answering := Balanced.answering
  raise _ := (balanced_record fun _ => rfl).bind fun _ => balanced_of_final fun _ => rfl
  record := balanced_record
  during a h := h.during a

end Eval

end ConfigClasses

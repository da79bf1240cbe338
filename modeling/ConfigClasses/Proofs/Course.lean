import ConfigClasses.Proofs.Balance
import Mathlib.Data.List.Infix

namespace ConfigClasses

namespace Trace

variable {tr : Trace}

def follow (tr : Trace) (es : List Event) : Trace := es.foldl record tr

@[simp] theorem follow_nil : tr.follow [] = tr := rfl

@[simp] theorem follow_cons (e : Event) (es : List Event) :
    tr.follow (e :: es) = (tr.record e).follow es := rfl

theorem follow_append (es fs : List Event) : tr.follow (es ++ fs) = (tr.follow es).follow fs :=
  List.foldl_append

theorem journal_follow (es : List Event) : (tr.follow es).journal = es.reverse ++ tr.journal := by
  induction es generalizing tr with
  | nil => rfl
  | cons e es ih => simp [ih, record]

theorem now_follow (es : List Event) : (tr.follow es).now = tr.now.replay es := by
  induction es generalizing tr with
  | nil => rfl
  | cons e es ih => exact ih

def Reaches (tr tr' : Trace) : Prop := ∃ es, tr' = tr.follow es

theorem Reaches.refl (tr : Trace) : tr.Reaches tr := ⟨[], rfl⟩

theorem Reaches.follow {tr' : Trace} (h : tr.Reaches tr') (es : List Event) :
    tr.Reaches (tr'.follow es) := by
  obtain ⟨fs, rfl⟩ := h
  exact ⟨fs ++ es, (follow_append fs es).symm⟩

theorem Reaches.record {tr' : Trace} (h : tr.Reaches tr') (e : Event) :
    tr.Reaches (tr'.record e) := h.follow [e]

def onward (tr : Trace) : List Event → List Trace
  | [] => []
  | e :: es => tr.record e :: (tr.record e).onward es

theorem onward_append (es fs : List Event) :
    tr.onward (es ++ fs) = tr.onward es ++ (tr.follow es).onward fs := by
  induction es generalizing tr with
  | nil => rfl
  | cons e es ih => simp [onward, ih]

theorem mem_onward {tr' : Trace} {es : List Event} :
    tr' ∈ tr.onward es ↔ ∃ fs, fs ≠ [] ∧ fs <+: es ∧ tr' = tr.follow fs := by
  induction es generalizing tr with
  | nil => simp [onward]
  | cons e es ih =>
    simp only [onward, List.mem_cons, ih]
    constructor
    · rintro (rfl | ⟨fs, -, hfs, rfl⟩)
      · exact ⟨[e], by simp⟩
      · exact ⟨e :: fs, by simp [hfs]⟩
    · rintro ⟨fs, hne, hfs, rfl⟩
      obtain ⟨x, fs, rfl⟩ := List.exists_cons_of_ne_nil hne
      obtain ⟨rfl, htail⟩ := List.cons_prefix_cons.1 hfs
      by_cases hnil : fs = []
      · exact .inl (by simp [hnil])
      · exact .inr ⟨fs, hnil, htail, rfl⟩

theorem head_of_mem_onward {tr' : Trace} {es : List Event} (h : tr' ∈ tr.onward es) :
    ∃ e ∈ es, tr'.journal.head? = some e := by
  induction es generalizing tr with
  | nil => cases h
  | cons e es ih =>
    rcases List.mem_cons.1 h with rfl | h
    · exact ⟨e, List.mem_cons_self, rfl⟩
    · obtain ⟨x, hx, hhead⟩ := ih h
      exact ⟨x, List.mem_cons_of_mem e hx, hhead⟩

end Trace

namespace Eval

variable {β α γ : Type} {t : ClassTable β} {act : Eval α} {tr : Trace} {P Q : Trace → Prop}

/-- What the action records, earliest first. -/
def events (act : Eval α) (tr : Trace) : List Event :=
  ((act.final tr).journal.take ((act.final tr).journal.length - tr.journal.length)).reverse

theorem events_of_final {es : List Event} (h : act.final tr = tr.follow es) :
    act.events tr = es := by
  simp [events, h, Trace.journal_follow]

def course (act : Eval α) (tr : Trace) : List Trace := tr.onward (act.events tr)

def Along (act : Eval α) (tr : Trace) (P : Trace → Prop) : Prop := ∀ tr' ∈ act.course tr, P tr'

instance [DecidablePred P] : Decidable (act.Along tr P) :=
  inferInstanceAs (Decidable (∀ tr' ∈ act.course tr, P tr'))

theorem along_of_final {es : List Event} (h : act.final tr = tr.follow es) :
    act.Along tr P ↔ ∀ tr' ∈ tr.onward es, P tr' := by
  rw [Along, course, events_of_final h]

theorem Along.imp (h : act.Along tr P) (hpq : ∀ tr', P tr' → Q tr') : act.Along tr Q :=
  fun tr' htr' => hpq tr' (h tr' htr')

def Forward (act : Eval α) : Prop := ∀ tr, act.final tr = tr.follow (act.events tr)

theorem Forward.reaches (h : Forward act) {start : Trace} (htr : start.Reaches tr) :
    start.Reaches (act.final tr) := h tr ▸ htr.follow _

theorem forward_of_final (h : ∀ tr, ∃ es, act.final tr = tr.follow es) : Forward act := by
  intro tr
  obtain ⟨es, hes⟩ := h tr
  rw [events_of_final hes, hes]

theorem forward_of_silent (h : ∀ tr, act.final tr = tr) : Forward act :=
  forward_of_final fun tr => ⟨[], h tr⟩

theorem along_of_silent (h : act.final tr = tr) : act.Along tr P := by
  have hfinal : act.final tr = tr.follow [] := h
  simp [along_of_final hfinal, Trace.onward]

theorem forward_record (e : Event) : Forward (record e) := forward_of_final fun _ => ⟨[e], rfl⟩

theorem along_of_single {e : Event} (h : act.final tr = tr.record e) :
    act.Along tr P ↔ P (tr.record e) := by
  have hfinal : act.final tr = tr.follow [e] := h
  simp [along_of_final hfinal, Trace.onward]

theorem along_record (e : Event) : (record e).Along tr P ↔ P (tr.record e) := along_of_single rfl

section Bind

variable {next : α → Eval γ}

theorem Forward.events_bind (ha : Forward act) (hn : ∀ x, Forward (next x)) (tr : Trace) :
    (act >>= next).final tr = tr.follow ((act >>= next).events tr) ∧
      (act >>= next).events tr = act.events tr ++ match act.answer tr with
        | .ok x => (next x).events (act.final tr)
        | .error _ => [] := by
  let later := match act.answer tr with
    | .ok x => (next x).events (act.final tr)
    | .error _ => []
  have hfinal : (act >>= next).final tr = tr.follow (act.events tr ++ later) := by
    rw [final_bind, Trace.follow_append, ← ha tr]
    simp only [later]
    cases act.answer tr with
    | ok x => exact hn x (act.final tr)
    | error e => rfl
  exact ⟨events_of_final hfinal ▸ hfinal, events_of_final hfinal⟩

theorem bind_eq_ok {y : γ} {tr' : Trace} :
    (act >>= next) tr = .ok y tr' ↔ ∃ x tr₁, act tr = .ok x tr₁ ∧ next x tr₁ = .ok y tr' := by
  cases hact : act tr with
  | ok x tr₁ => simp [bind_of_ok hact]
  | error e tr₁ => simp [bind_of_error hact]

theorem Forward.bind (ha : Forward act) (hn : ∀ x, Forward (next x)) : Forward (act >>= next) :=
  fun tr => (ha.events_bind hn tr).1

theorem along_bind (ha : Forward act) (hn : ∀ x, Forward (next x)) :
    (act >>= next).Along tr P ↔
      act.Along tr P ∧ ∀ x tr', act tr = .ok x tr' → (next x).Along tr' P := by
  rw [Along, course, (ha.events_bind hn tr).2, Trace.onward_append, ← ha tr]
  simp only [List.mem_append, or_imp, forall_and]
  refine and_congr Iff.rfl ?_
  cases hact : act tr with
  | ok x tr' => simp [answer, final, hact, Along, course]
  | error e tr' => simp [answer, final, hact, Trace.onward]

end Bind

theorem final_map (f : α → γ) (act : Eval α) (tr : Trace) : (f <$> act).final tr = act.final tr := by
  simp only [final, Functor.map, EStateM.map]
  cases act tr <;> rfl

theorem answer_map (f : α → γ) (act : Eval α) (tr : Trace) :
    (f <$> act).answer tr = (act.answer tr).map f := by
  simp only [answer, Functor.map, EStateM.map]
  cases act tr <;> rfl

def halt? (act : Eval α) (tr : Trace) : Option Halt :=
  match act tr with
  | .ok _ _ => none
  | .error e _ => some e

theorem halt?_eq_none : act.halt? tr = none ↔ ∃ x tr', act tr = .ok x tr' := by
  unfold halt?
  cases act tr <;> simp

theorem halt?_eq_some {e : Halt} : act.halt? tr = some e ↔ ∃ tr', act tr = .error e tr' := by
  unfold halt?
  cases act tr <;> simp

theorem halt?_map (f : α → γ) (act : Eval α) (tr : Trace) :
    (f <$> act).halt? tr = act.halt? tr := by
  simp only [halt?, Functor.map, EStateM.map]
  cases act tr <;> rfl

theorem halt?_during (a : Activity) (act : Eval α) (tr : Trace) :
    (during a act).halt? tr = act.halt? (tr.record (.opened a)) := by
  simp only [halt?, during]
  cases act (tr.record (.opened a)) <;> rfl

theorem along_map (f : α → γ) : (f <$> act).Along tr P ↔ act.Along tr P := by
  simp only [Along, course, events, final_map]

theorem along_congr {act' : Eval α} (h : act tr = act' tr) : act.Along tr P ↔ act'.Along tr P := by
  simp only [Along, course, events, final, h]

section During

variable (a : Activity)

theorem Forward.events_during (h : Forward act) (tr : Trace) :
    (during a act).final tr = tr.follow ((during a act).events tr) ∧
      (during a act).events tr =
        .opened a :: act.events (tr.record (.opened a)) ++ [.closed a] := by
  have hfinal : (during a act).final tr =
      tr.follow (.opened a :: act.events (tr.record (.opened a)) ++ [.closed a]) := by
    rw [final_during, Trace.follow_append, Trace.follow_cons, h]
    rfl
  exact ⟨events_of_final hfinal ▸ hfinal, events_of_final hfinal⟩

theorem Forward.during (h : Forward act) : Forward (during a act) :=
  fun tr => (h.events_during a tr).1

theorem during_eq_ok {x : α} {tr' : Trace} :
    during a act tr = .ok x tr' ↔
      ∃ tr₁, act (tr.record (.opened a)) = .ok x tr₁ ∧ tr' = tr₁.record (.closed a) := by
  unfold Eval.during
  cases act (tr.record (.opened a)) with
  | ok y tr₁ => simp [eq_comm, and_comm]
  | error e tr₁ => simp

theorem along_during (h : Forward act) :
    (during a act).Along tr P ↔ P (tr.record (.opened a)) ∧
      act.Along (tr.record (.opened a)) P ∧
        P ((act.final (tr.record (.opened a))).record (.closed a)) := by
  rw [Along, course, (h.events_during a tr).2, Trace.onward_append, Trace.follow_cons, ← h]
  simp [Trace.onward, or_imp, forall_and, Along, course]

end During

theorem Forward.answering {act : Eval Reply} (h : Forward act) : Forward (answering t act) :=
  forward_of_final fun tr => ⟨act.events tr, (final_answering t act tr).trans (h tr)⟩

theorem along_answering {act : Eval Reply} (h : Forward act) :
    (answering t act).Along tr P ↔ act.Along tr P := by
  have hfinal : (answering t act).final tr = tr.follow (act.events tr) :=
    (final_answering t act tr).trans (h tr)
  rw [Along, course, events_of_final hfinal]
  rfl

structure Contained (act : Eval α) : Prop extends Balanced act where
  forward : Forward act
  within : ∀ tr, act.Along tr fun tr' => tr.now.stack <:+ tr'.now.stack

theorem contained_of_silent (h : ∀ tr, act.final tr = tr) : Contained act :=
  ⟨balanced_of_final h, forward_of_silent h, fun tr => along_of_silent (h tr)⟩

theorem contained_record {e : Event} (he : ∀ m : Moment, (m.after e).stack = m.stack) :
    Contained (record e) := by
  refine ⟨balanced_record he, forward_record e, fun tr => (along_record e).2 ?_⟩
  exact (he tr.now).symm ▸ List.suffix_refl _

theorem Contained.bind {next : α → Eval γ} (ha : Contained act) (hn : ∀ x, Contained (next x)) :
    Contained (act >>= next) := by
  refine ⟨ha.toBalanced.bind fun x => (hn x).toBalanced, ha.forward.bind fun x => (hn x).forward,
    fun tr => (along_bind ha.forward fun x => (hn x).forward).2 ⟨ha.within tr, fun x tr' hact => ?_⟩⟩
  have hstack : tr'.now.stack = tr.now.stack := final_of_ok hact ▸ ha.stack tr
  exact hstack ▸ (hn x).within tr'

theorem Contained.map (h : Contained act) (f : α → γ) : Contained (f <$> act) := by
  have hpure (x : α) : Contained (pure (f x)) := contained_of_silent fun _ => rfl
  exact h.bind hpure

theorem Contained.during (h : Contained act) (a : Activity) : Contained (during a act) := by
  refine ⟨h.toBalanced.during a, h.forward.during a, fun tr => (along_during a h.forward).2 ?_⟩
  have hopened : tr.now.stack <:+ (tr.record (.opened a)).now.stack := List.suffix_cons a _
  have hclosed : ((act.final (tr.record (.opened a))).record (.closed a)).now.stack =
      tr.now.stack := congrArg List.tail (h.stack _)
  exact ⟨hopened, (h.within _).imp fun _ => hopened.trans, hclosed.symm ▸ List.suffix_refl _⟩

theorem Contained.answering {act : Eval Reply} (h : Contained act) :
    Contained (answering t act) :=
  ⟨h.toBalanced.answering, h.forward.answering, fun tr => (along_answering h.forward).2 (h.within tr)⟩

theorem contained_congruence (t : ClassTable β) : Congruence t fun _ act _ => Contained act where
  pure _ := contained_of_silent fun _ => rfl
  bind := Contained.bind
  now h := by
    have hnow : Contained now := contained_of_silent fun _ => rfl
    exact hnow.bind fun m => h m m (.refl m)
  fail _ := contained_of_silent fun _ => rfl
  stray := contained_of_silent fun _ => rfl
  answering := Contained.answering
  raise _ := (contained_record fun _ => rfl).bind fun _ => contained_of_silent fun _ => rfl
  record := contained_record
  during a h := h.during a

end Eval

theorem contained_runBody (t : ClassTable Body) (depth : Nat) (s : ScopeId) (body : Body) :
    Eval.Contained (t.runBody depth s body) := by
  have h := Eval.contained_congruence t
  exact h.steps.runBody (Eval.contained_of_silent fun _ => rfl) h.calls depth s body

end ConfigClasses

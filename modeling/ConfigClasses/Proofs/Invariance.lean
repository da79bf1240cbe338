import ConfigClasses.Proofs.Ensures

namespace ConfigClasses

namespace Eval

/-- With the activities `stack` under way, `I stack` holds, or `J c r stack` once the scope of `c` for
the resource `r` is made and until it is given to `c`. -/
structure Invariance (I : List Activity → Trace → Prop)
    (J : ClassId → Resource → List Activity → Trace → Prop) : Prop where
  stack {stack : List Activity} {tr : Trace} (h : I stack tr) : tr.now.stack = stack
  opened {stack : List Activity} {tr : Trace} {a : Activity}
    (ha : ∀ c, a = .ascent c → isPending c stack = false) (h : I stack tr) :
    I (a :: stack) (tr.record (.opened a))
  closed {stack : List Activity} {tr : Trace} {a : Activity}
    (ha : ∀ c, a = .ascent c → isPending c stack = false) (h : I (a :: stack) tr) :
    I stack (tr.record (.closed a))
  stepped {stack : List Activity} {tr : Trace} {e : Event} (he : e.isOfStep = true)
    (h : I stack tr) : I stack (tr.record e)
  raised {stack : List Activity} {tr : Trace} (e : EvaluationError) (h : I stack tr) :
    I stack (tr.record (.raised e))
  main {stack : List Activity} {tr : Trace} (c : ClassId) {r : Resource} (hr : r.IsMain)
    (h : I stack tr) : J c r stack tr
  nested {stack : List Activity} {tr : Trace} (c : ClassId) (outer : ScopeId) {r : Resource}
    (hr : ¬ r.IsMain) (h : I stack tr) : J c r stack (tr.record (.nested (some c) outer r))
  added {stack : List Activity} {tr : Trace} {c : ClassId} {r : Resource} (s : ScopeId) (ns : Name)
    (h : J c r stack tr) : J c r stack (tr.record (.namespaceAdded s ns))
  ended {stack : List Activity} {tr : Trace} {c : ClassId} {r : Resource}
    (hc : isPending c stack = false) (h : J c r (.ascent c :: stack) tr) :
    J c r stack (tr.record (.closed (.ascent c)))
  placed {stack : List Activity} {tr : Trace} {c : ClassId} {r : Resource} {caller : ScopeId}
    (s : ScopeId) (he : errand stack = some (caller, r)) (h : J c r stack tr) :
    I stack (tr.record (.placed c s))

variable {β α : Type} {t : ClassTable β} {I : List Activity → Trace → Prop}
  {J : ClassId → Resource → List Activity → Trace → Prop} {stack : List Activity}
  {caller outer : ScopeId} {c : ClassId} {r : Resource}

namespace Invariance

variable (h : Invariance I J)
include h

theorem during {act : Eval α} {a : Activity} (ha : ∀ c, a = .ascent c → isPending c stack = false)
    (hact : Keeps (I (a :: stack)) act) : Keeps (I stack) (during a act) :=
  Ensures.during hact (fun _ => h.opened ha) (fun _ _ => h.closed ha) fun _ => h.closed ha

theorem raise {Q : α → Trace → Prop} (e : EvaluationError) :
    Ensures (I stack) (raise e) Q (I stack) :=
  ensures_raise fun _ => h.raised e

theorem nestFor (c : ClassId) (outer : ScopeId) (r : Resource) :
    Ensures (I stack) (nestFor c outer r) (fun _ => J c r stack) (I stack) := by
  unfold Eval.nestFor
  split
  · next hr => exact fun _ => h.main c hr
  · next hr =>
    refine ensures_scopeAt_bind (fun _ hi => hi) fun scope => ensures_compilation_bind fun k => ?_
    have hnested : Ensures (fun tr => (I stack tr ∧ tr.now.compilation.tree.find? outer = some scope) ∧
        tr.now.compilation = k) (record (.nested (some c) outer r)) (fun _ => J c r stack)
        (I stack) :=
      ensures_record fun _ hi => h.nested c outer hr hi.1.1
    exact hnested.bind fun _ => ensures_pure (Q := fun _ => J c r stack) _

theorem addNamespaces (s : ScopeId) (namespaces : List Name) :
    Ensures (J c r stack) (namespaces.forM fun ns => record (.namespaceAdded s ns))
      (fun _ => J c r stack) (I stack) := by
  induction namespaces with
  | nil => exact ensures_pure (Q := fun _ => J c r stack) _
  | cons ns namespaces ih =>
    have hadded : Ensures (J c r stack) (record (.namespaceAdded s ns)) (fun _ => J c r stack)
        (I stack) :=
      ensures_record fun _ hj => h.added s ns hj
    exact hadded.bind fun _ => ih

theorem nestBelow (c p : ClassId) (r : Resource) :
    Ensures (I stack) (nestBelow c p r) (fun _ => J c r stack) (I stack) := by
  refine ensures_compilation_bind fun k => ?_
  cases k.classScope p with
  | none => exact (h.raise _).before fun _ hi => hi.1
  | some outer =>
    refine ensures_scopeAt_bind (fun _ hi => hi.1) fun scope => ?_
    exact ((h.nestFor c outer r).before fun _ hi => hi.1.1).bind fun s =>
      (h.addNamespaces s scope.namespaces).bind fun _ => ensures_pure (Q := fun _ => J c r stack) s

section Evaluate

variable {run : ScopeId → β → Eval α} (hrun : ∀ stack s b, Keeps (I stack) (run s b))
include hrun

theorem settle (he : errand stack = some (caller, r)) {place : Eval ScopeId}
    (hplace : Ensures (I (.ascent c :: stack)) place (fun _ => J c r (.ascent c :: stack))
      (I (.ascent c :: stack))) :
    Keeps (I stack) (t.settle run c place) := by
  have hkeeps := keeps_compositional t (I stack)
  refine Ensures.bind hkeeps.compilation fun k => ?_
  split
  · exact hkeeps.pure none
  refine ensures_now_bind fun m => ensures_refusal (fun _ _ hi => h.raised _ hi.1) fun hnew => ?_
  rintro tr ⟨hi, rfl⟩
  have hpending : isPending c stack = false := by simpa [h.stack hi] using hnew
  have hascent : Ensures (I stack) (Eval.during (.ascent c) place) (fun _ => J c r stack)
      (I stack) := by
    have hclass : ∀ d, Activity.ascent c = .ascent d → isPending d stack = false := by
      rintro d ⟨⟩
      exact hpending
    exact hplace.during (fun _ => h.opened hclass) (fun _ _ => h.ended hpending)
      fun _ => h.closed hclass
  have hplaced (s : ScopeId) : Ensures (J c r stack) (record (.placed c s)) (fun _ => I stack)
      (I stack) :=
    ensures_record fun _ hj => h.placed s he hj
  have htagged (d : ClassDecl β) : Keeps (I stack) (record (.tagged d.name)) :=
    ensures_record fun _ hi => h.stepped rfl hi
  refine Ensures.bind (hkeeps.declAt c) (fun d => (htagged d).bind fun _ => hascent.bind fun s =>
    (hplaced s).bind fun _ => ?_) tr hi
  cases d.body with
  | none => exact hkeeps.pure none
  | some b => exact (h.during (by simp) (hrun _ s b)).bind fun x => hkeeps.pure (some x)

theorem descend (he : errand stack = some (caller, r)) (above : List ClassId) (c : ClassId) :
    Keeps (I stack) (t.descend run caller r above c) := by
  induction above generalizing c stack with
  | nil => exact h.settle hrun he (h.nestFor c caller r)
  | cons p above ih =>
    have hparent : Keeps (I (.ascent c :: stack)) (t.descend run caller r above p) :=
      ih (show errand (.ascent c :: stack) = some (caller, r) from he) p
    exact h.settle hrun he (hparent.bind fun _ => h.nestBelow c p r)

theorem evaluate (c : ClassId) (caller : ScopeId) (resource : Option Resource) :
    Keeps (I stack) (t.evaluate run c caller resource) := by
  have hkeeps := keeps_compositional t (I (.call c caller resource :: stack))
  refine h.during (by simp) ?_
  cases resource with
  | none => exact Ensures.bind (hkeeps.declAt c) fun _ => h.raise _
  | some r =>
    refine Ensures.bind hkeeps.compilation fun k => ?_
    split
    · exact hkeeps.pure none
    refine Ensures.bind (hkeeps.declAt c) fun _ => ?_
    cases t.lineage c with
    | error e => exact h.raise _
    | ok above => exact h.descend hrun rfl above c

end Evaluate

theorem steps (t : ClassTable β) : StepCongruence t fun _ act _ => ∀ stack, Keeps (I stack) act :=
  keeps_step_congruence t (fun _ _ _ he hi => h.stepped he hi) fun hact stack =>
    h.during (by simp) (hact (.evaluator :: stack))

section

variable {t : ClassTable Body}

theorem calls (run : ScopeId → Body → Eval Output) (hrun : ∀ s b stack, Keeps (I stack) (run s b))
    (c : ClassId) (s : ScopeId) (r : Option Resource) (stack : List Activity) :
    Keeps (I stack) (t.evaluate run c s r) :=
  h.evaluate (fun stack s b => hrun s b stack) c s r

theorem step (t : ClassTable Body) (depth : Nat) (here : ScopeId) (step : Step)
    (stack : List Activity) :
    Keeps (I stack) (step.exec t (t.evaluate (t.runBody depth)) here) :=
  (h.steps t).step (fun _ => ensures_throw _ fun _ hi => hi) h.calls depth here step stack

theorem call (t : ClassTable Body) (depth : Nat) (c : ClassId) (s : ScopeId) (r : Option Resource)
    (stack : List Activity) :
    Keeps (I stack) (t.evaluate (t.runBody depth) c s r) :=
  h.calls (t.runBody depth)
    ((h.steps t).runBody (fun _ => ensures_throw _ fun _ hi => hi) h.calls depth) c s r stack

end

end Invariance

end Eval

end ConfigClasses

import ConfigClasses.Compilation
import ConfigClasses.Failure

/-!
A journal lists what happens in a run, event by event. The state at any moment is what the events
before it make of the state at the start.
-/

namespace ConfigClasses

inductive Activity where
  | evaluator
  | call (cls : ClassId) (caller : ScopeId) (resource : Option Resource)
  /-- The classes above `cls` are evaluated on its behalf. -/
  | ascent (cls : ClassId)
  | body (cls : ClassId) (scope : ScopeId)
deriving DecidableEq, Repr

inductive Event where
  | opened (a : Activity)
  | closed (a : Activity)
  | interned (text : String)
  | tagged (name : Name)
  /-- A scope was made under `outer`, by the evaluation of `owner` or else by a step. -/
  | nested (owner : Option ClassId) (outer : ScopeId) (resource : Resource)
  | namespaceAdded (scope : ScopeId) (ns : Name)
  | bound (scope : ScopeId) (x : Name) (v : Value)
  /-- The evaluation of `cls` gave it its scope. -/
  | placed (cls : ClassId) (scope : ScopeId)
  /-- A step gave `cls` its scope. -/
  | assigned (cls : ClassId) (scope : ScopeId)
  | reset
  | raised (e : EvaluationError)
deriving DecidableEq, Repr

structure Moment where
  names : Interner
  compilation : Compilation
  stack : List Activity

def isPending (c : ClassId) : List Activity → Bool
  | [] => false
  | .evaluator :: _ => false
  | .ascent d :: stack => d = c || isPending c stack
  | _ :: stack => isPending c stack

namespace Moment

def after (m : Moment) : Event → Moment
  | .opened a => { m with stack := a :: m.stack }
  | .closed _ => { m with stack := m.stack.tail }
  | .interned text => { m with names := (m.names.intern text).2 }
  | .tagged name => { m with compilation := m.compilation.tag name }
  | .nested _ outer resource =>
    { m with compilation.tree := m.compilation.tree.nest outer resource }
  | .namespaceAdded scope ns =>
    { m with compilation.tree := m.compilation.tree.addNamespace scope ns }
  | .bound scope x v => { m with compilation.tree := m.compilation.tree.bind scope x v }
  | .placed cls scope => { m with compilation := m.compilation.register cls scope }
  | .assigned cls scope => { m with compilation := m.compilation.register cls scope }
  | .reset => { m with compilation := .initial }
  | .raised _ => m

def replay (m : Moment) (events : List Event) : Moment := events.foldl after m

end Moment

structure Trace where
  now : Moment
  journal : List Event

def Trace.record (t : Trace) (e : Event) : Trace := ⟨t.now.after e, e :: t.journal⟩

end ConfigClasses

import ConfigClasses.ClassTable.Lineage
import ConfigClasses.Journal

/-!
The evaluation of a class. It evaluates the classes above it first, gives the class a scope inside
the scope of its parent, and runs the body of the class there. A class that has a scope is not
evaluated again.
-/

namespace ConfigClasses

inductive Halt where
  | failure (f : Failure)
  /-- A number stands for no class of the table, or for no scope of the tree. -/
  | stray
  /-- More bodies run one inside another than were provided for. -/
  | exhausted
deriving DecidableEq, Repr

abbrev Eval := EStateM Halt Trace

namespace Eval

variable {α : Type}

def now : Eval Moment := fun tr => .ok tr.now tr

def record (e : Event) : Eval Unit := fun tr => .ok () (tr.record e)

def fail (f : Failure) : Eval α := throw (.failure f)

def stray : Eval α := throw .stray

def raise (e : EvaluationError) : Eval α := do
  record (.raised e)
  fail (.evaluation e)

def during (a : Activity) (act : Eval α) : Eval α := fun tr =>
  match act (tr.record (.opened a)) with
  | .ok x tr => .ok x (tr.record (.closed a))
  | .error h tr => .error h (tr.record (.closed a))

def compilation : Eval Compilation := fun tr => .ok tr.now.compilation tr

def scopeAt (s : ScopeId) : Eval Scope := do
  match (← compilation).tree.find? s with
  | some scope => return scope
  | none => stray

def nest (owner : Option ClassId) (outer : ScopeId) (r : Resource) : Eval ScopeId := do
  let _ ← scopeAt outer
  let s := (← compilation).tree.next
  record (.nested owner outer r)
  return s

def nestFor (c : ClassId) (outer : ScopeId) (r : Resource) : Eval ScopeId :=
  if r.IsMain then return outer else nest (some c) outer r

def nestBelow (c p : ClassId) (r : Resource) : Eval ScopeId := do
  match (← compilation).classScope p with
  | none => raise (.parentScopeMissing c p)
  | some outer =>
    let namespaces := (← scopeAt outer).namespaces
    let s ← nestFor c outer r
    namespaces.forM fun ns => record (.namespaceAdded s ns)
    return s

end Eval

namespace ClassTable

open Eval

variable {β α : Type} (t : ClassTable β) (run : ScopeId → β → Eval α)

def declAt (c : ClassId) : Eval (ClassDecl β) :=
  match t.decl? c with
  | some d => return d
  | none => stray

def settle (c : ClassId) (place : Eval ScopeId) : Eval (Option α) := do
  if (← compilation).IsEvaluated c then return none
  if isPending c (← now).stack then raise (.reentrant c)
  let d ← t.declAt c
  record (.tagged d.name)
  let s ← during (.ascent c) place
  record (.placed c s)
  match d.body with
  | none => return none
  | some b => some <$> during (.body c s) (run s b)

def descend (caller : ScopeId) (r : Resource) : List ClassId → ClassId → Eval (Option α)
  | [], c => t.settle run c (nestFor c caller r)
  | p :: above, c => t.settle run c do
    let _ ← descend caller r above p
    nestBelow c p r

def evaluateFor (c : ClassId) (caller : ScopeId) (r : Resource) : Eval (Option α) := do
  if (← compilation).IsEvaluated c then return none
  let _ ← t.declAt c
  match t.lineage c with
  | .error e => raise (.table e)
  | .ok above => t.descend run caller r above c

def evaluate (c : ClassId) (caller : ScopeId) (resource : Option Resource) : Eval (Option α) :=
  during (.call c caller resource) do
    match resource with
    | some r => t.evaluateFor run c caller r
    | none =>
      let _ ← t.declAt c
      raise (.missingResource c)

end ClassTable

end ConfigClasses

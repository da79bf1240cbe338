import ConfigClasses.ClassTable.Basic

namespace ConfigClasses

inductive EvaluationError where
  | missingResource (cls : ClassId)
  | parentScopeMissing (cls parent : ClassId)
  | reentrant (cls : ClassId)
  | table (e : TableError)
deriving DecidableEq, Repr

namespace EvaluationError

def isInternal : EvaluationError → Bool
  | parentScopeMissing _ _ => true
  | _ => false

def message {β : Type} (t : ClassTable β) (names : Interner) : EvaluationError → String
  | missingResource cls => "class '" ++ t.display names cls ++ "' requires a resource"
  | parentScopeMissing cls parent =>
    "internal compiler error: could not find scope for parent class '" ++ t.display names parent ++
      "' of class '" ++ t.display names cls ++ "'"
  | reentrant cls =>
    "class '" ++ t.display names cls ++ "' was included while evaluating its own parent classes"
  | table e => e.message t names

end EvaluationError

inductive Failure where
  | table (e : TableError)
  | evaluation (e : EvaluationError)
  | rebinding (x : Name)
  | body (message : String)
  | noClass
  | noScope
  | noResource
deriving DecidableEq, Repr

def Failure.message? {β : Type} (t : ClassTable β) (names : Interner) : Failure → Option String
  | table e => some (e.message t names)
  | evaluation e => some (e.message t names)
  | rebinding _ => some "variable is already bound in this scope"
  | body message => some message
  | noClass | noScope | noResource => none

end ConfigClasses

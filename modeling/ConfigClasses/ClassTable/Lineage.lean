import ConfigClasses.ClassTable.Basic
import Std.Data.TreeSet

namespace ConfigClasses.ClassTable

variable {β : Type} (t : ClassTable β)

def parentOf (c : ClassId) : Except TableError (Option ClassId) :=
  match (t.decl? c).bind ClassDecl.parent with
  | none => .ok none
  | some name =>
    match t.findName? name with
    | some p => .ok (some p)
    | none => .error (.unknownParent c name)

def prepend (c : ClassId) : Except TableError (List ClassId) → Except TableError (List ClassId)
  | .ok cs => .ok (c :: cs)
  | .error (.cyclicInheritance cs) => .error (.cyclicInheritance (c :: cs))
  | .error e => .error e

def climb : Nat → Std.TreeSet ClassId → ClassId → Except TableError (List ClassId)
  | 0, _, _ => .ok []
  | steps + 1, seen, c =>
    match t.parentOf c with
    | .error e => .error e
    | .ok none => .ok []
    | .ok (some p) =>
      if p ∈ seen then .error (.cyclicInheritance [p])
      else prepend p (climb steps (seen.insert p) p)

/-- The classes above `c`, nearest first. Every class that is met is new until the way ends, so the
way has no more steps than there are classes. -/
def lineage (c : ClassId) : Except TableError (List ClassId) :=
  match t.climb t.size {c} c with
  | .error (.cyclicInheritance cs) => .error (.cyclicInheritance (c :: cs))
  | found => found

def meets (a : ClassId) : Nat → Std.TreeSet ClassId → ClassId → Bool
  | 0, _, _ => false
  | steps + 1, seen, c =>
    match t.parentOf c with
    | .ok (some p) => if p = a then true else if p ∈ seen then false else meets a steps (seen.insert p) p
    | _ => false

def inherits (c a : ClassId) : Bool := t.meets a t.size {c} c

end ConfigClasses.ClassTable

import ConfigClasses.ClassName
import ConfigClasses.Interner

namespace ConfigClasses

structure ClassId where
  raw : Nat
deriving DecidableEq, Repr

namespace ClassId

instance : Ord ClassId := ⟨compareOn raw⟩

instance : Std.TransOrd ClassId := inferInstanceAs (Std.TransCmp (compareOn raw))

instance : Std.LawfulEqOrd ClassId where
  eq_of_compare {c d} h := by
    cases c
    cases d
    exact congrArg ClassId.mk (Nat.compare_eq_eq.1 h)

end ClassId

structure ClassDecl (β : Type) where
  name : Name
  parent : Option Name
  body : Option β

namespace ClassDecl

def IsMain {β : Type} (d : ClassDecl β) : Prop := d.name = .empty

instance {β : Type} (d : ClassDecl β) : Decidable d.IsMain := inferInstanceAs (Decidable (_ = _))

end ClassDecl

inductive TableError where
  | duplicateClass (cls : ClassId)
  | unknownClass (text : String)
  | unknownParent (cls : ClassId) (parent : Name)
  /-- Each class is the child of the next one, and the last is the first one met twice. -/
  | cyclicInheritance (chain : List ClassId)
deriving DecidableEq, Repr

structure ClassTable (β : Type) where
  decls : Array (ClassDecl β)
  byName : Std.TreeMap Name ClassId

namespace ClassTable

variable {β : Type}

def empty : ClassTable β := ⟨#[], ∅⟩

instance : Inhabited (ClassTable β) := ⟨empty⟩

def size (t : ClassTable β) : Nat := t.decls.size

def decl? (t : ClassTable β) (c : ClassId) : Option (ClassDecl β) := t.decls[c.raw]?

def findName? (t : ClassTable β) (name : Name) : Option ClassId := t.byName[name]?

def find? (t : ClassTable β) (names : Interner) (name : String) : Option ClassId :=
  (names.find? (ClassName.normalize name)).bind t.findName?

def add (t : ClassTable β) (d : ClassDecl β) : ClassTable β :=
  ⟨t.decls.push d, t.byName.insert d.name ⟨t.size⟩⟩

def internParent (names : Interner) : Option String → Option Name × Interner
  | none => (none, names)
  | some parent =>
    let (name, names) := names.intern (ClassName.normalize parent)
    (some name, names)

def define (t : ClassTable β) (names : Interner) (name : String) (parent : Option String)
    (body : Option β) : Except TableError ClassId × ClassTable β × Interner :=
  let (name, names) := names.intern (ClassName.normalize name)
  match t.findName? name with
  | some cls => (.error (.duplicateClass cls), t, names)
  | none =>
    let (parent, names) := internParent names parent
    (.ok ⟨t.size⟩, t.add ⟨name, parent, body⟩, names)

def ids (t : ClassTable β) : List ClassId := (List.range t.size).map ClassId.mk

end ClassTable

def Interner.display (names : Interner) (name : Name) : String :=
  if name = .empty then "main" else names.text name

def ClassTable.display {β : Type} (t : ClassTable β) (names : Interner) (c : ClassId) : String :=
  (t.decl? c).elim "" fun d => names.display d.name

def TableError.message {β : Type} (t : ClassTable β) (names : Interner) : TableError → String
  | duplicateClass cls => "class '" ++ t.display names cls ++ "' is already defined"
  | unknownClass text => "could not find class '" ++ text ++ "'"
  | unknownParent cls parent =>
    "could not find parent class '" ++ names.display parent ++ "' of class '" ++
      t.display names cls ++ "'"
  | cyclicInheritance chain =>
    "cyclic inheritance: " ++ " -> ".intercalate (chain.map (t.display names))

end ConfigClasses

import ConfigClasses.Resource
import ConfigClasses.Value

namespace ConfigClasses

structure ScopeId where
  raw : Nat
deriving DecidableEq, Repr

def ScopeId.top : ScopeId := ⟨0⟩

structure Scope where
  parent : Option ScopeId
  resource : Option Resource
  namespaces : List Name
  bindings : Std.TreeMap Name Value

namespace Scope

def fresh (parent : Option ScopeId) (resource : Option Resource) : Scope :=
  ⟨parent, resource, [], ∅⟩

instance : Inhabited Scope := ⟨fresh none none⟩

def addNamespace (s : Scope) (ns : Name) : Scope :=
  if ns ∈ s.namespaces then s else { s with namespaces := s.namespaces ++ [ns] }

def bind (s : Scope) (x : Name) (v : Value) : Scope :=
  { s with bindings := s.bindings.insertIfNew x v }

end Scope

structure ScopeTree where
  scopes : Array Scope

namespace ScopeTree

def initial : ScopeTree := ⟨#[.fresh none none]⟩

instance : Inhabited ScopeTree := ⟨initial⟩

def size (t : ScopeTree) : Nat := t.scopes.size

def find? (t : ScopeTree) (s : ScopeId) : Option Scope := t.scopes[s.raw]?

def parent? (t : ScopeTree) (s : ScopeId) : Option ScopeId := (t.find? s).bind Scope.parent

def ids (t : ScopeTree) : List ScopeId := (List.range t.size).map ScopeId.mk

def next (t : ScopeTree) : ScopeId := ⟨t.size⟩

def nest (t : ScopeTree) (outer : ScopeId) (resource : Resource) : ScopeTree :=
  ⟨t.scopes.push (.fresh (some outer) (some resource))⟩

def addNamespace (t : ScopeTree) (s : ScopeId) (ns : Name) : ScopeTree :=
  ⟨t.scopes.modify s.raw (·.addNamespace ns)⟩

def bind (t : ScopeTree) (s : ScopeId) (x : Name) (v : Value) : ScopeTree :=
  ⟨t.scopes.modify s.raw (·.bind x v)⟩

def lookupLocal (t : ScopeTree) (s : ScopeId) (x : Name) : Option Value :=
  (t.find? s).bind (·.bindings[x]?)

def lookupFrom (t : ScopeTree) (x : Name) : Nat → ScopeId → Option Value
  | 0, _ => none
  | steps + 1, s =>
    match t.lookupLocal s x with
    | some v => some v
    | none => (t.parent? s).bind (t.lookupFrom x steps)

def lookup (t : ScopeTree) (s : ScopeId) (x : Name) : Option Value :=
  t.lookupFrom x (s.raw + 1) s

def ancestorsFrom (t : ScopeTree) : Nat → ScopeId → List ScopeId
  | 0, _ => []
  | steps + 1, s => s :: (t.parent? s).elim [] (t.ancestorsFrom steps)

def ancestors (t : ScopeTree) (s : ScopeId) : List ScopeId := t.ancestorsFrom (s.raw + 1) s

end ScopeTree

end ConfigClasses

import ConfigClasses.ClassTable.Basic
import ConfigClasses.ScopeTree
import Std.Data.TreeSet

namespace ConfigClasses

/-- `classScopes` and `tagSet` answer what the lists `evaluated` and `tags` hold in order. -/
structure Compilation where
  tree : ScopeTree
  classScopes : Std.TreeMap ClassId ScopeId
  evaluated : Array ClassId
  tagSet : Std.TreeSet Name
  tags : Array Name

namespace Compilation

def initial : Compilation := ⟨.initial, ∅, #[], ∅, #[]⟩

instance : Inhabited Compilation := ⟨initial⟩

def classScope (k : Compilation) (c : ClassId) : Option ScopeId := k.classScopes[c]?

def IsEvaluated (k : Compilation) (c : ClassId) : Prop := c ∈ k.classScopes

instance (k : Compilation) (c : ClassId) : Decidable (k.IsEvaluated c) :=
  inferInstanceAs (Decidable (_ ∈ _))

def register (k : Compilation) (c : ClassId) (s : ScopeId) : Compilation :=
  if k.IsEvaluated c then k
  else { k with classScopes := k.classScopes.insert c s, evaluated := k.evaluated.push c }

def IsTagged (k : Compilation) (name : Name) : Prop := name ∈ k.tagSet

instance (k : Compilation) (name : Name) : Decidable (k.IsTagged name) :=
  inferInstanceAs (Decidable (_ ∈ _))

def tag (k : Compilation) (name : Name) : Compilation :=
  if k.IsTagged name then k
  else { k with tagSet := k.tagSet.insert name, tags := k.tags.push name }

end Compilation

end ConfigClasses

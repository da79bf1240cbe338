import ConfigClasses.ScopeTree
import ConfigClasses.ClassTable.Basic

namespace ConfigClasses

inductive NameRef where
  | number (n : Name)
  | text (s : String)
deriving DecidableEq, Repr

inductive ClassRef where
  | number (c : ClassId)
  | named (name : String)
deriving DecidableEq, Repr

inductive ScopeRef where
  | here
  | number (s : ScopeId)
  | top
  | around
  | ofClass (name : String)
deriving DecidableEq, Repr

inductive ResourceRef where
  | ofScope
  | none
  | main (type : NameRef)
  | titled (type title : NameRef)
deriving DecidableEq, Repr

inductive Step where
  | intern (text : String)
  | findName (text : String)
  | spell (n : NameRef)
  | countNames
  | findClass (name : String)
  | findClassNamed (n : NameRef)
  | describeClass (c : ClassRef)
  | listClasses
  | parentOf (c : ClassRef)
  | lineage (c : ClassRef)
  | inherits (c ancestor : ClassRef)
  | nest (s : ScopeRef) (r : ResourceRef)
  | describeScope (s : ScopeRef)
  | ancestors (s : ScopeRef)
  | addNamespace (s : ScopeRef) (ns : NameRef)
  | bind (s : ScopeRef) (x : NameRef) (v : Value)
  | lookup (s : ScopeRef) (x : NameRef)
  | lookupLocal (s : ScopeRef) (x : NameRef)
  | tag (n : NameRef)
  | isTagged (n : NameRef)
  | assign (c : ClassRef) (s : ScopeRef)
  | classScope (c : ClassRef)
  | isEvaluated (c : ClassRef)
  | reset
  | describeState
  | evaluate (c : ClassRef) (s : ScopeRef) (r : ResourceRef)
  | includeClass (name : String) (s : ScopeRef) (r : ResourceRef)
  | each (steps : List Step)
  /-- The step runs in an evaluator of its own. -/
  | fresh (step : Step)
  | fail (message : String)
deriving Repr

abbrev Body := List Step

end ConfigClasses

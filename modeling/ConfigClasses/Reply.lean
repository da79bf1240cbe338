import ConfigClasses.Journal

namespace ConfigClasses

structure ResourceView where
  type : String
  title : Option String
deriving DecidableEq, Repr

structure ScopeView where
  id : ScopeId
  parent : Option ScopeId
  resource : Option ResourceView
  namespaces : List String
deriving DecidableEq, Repr

structure StateView where
  scopes : List ScopeView
  tags : List String
  evaluated : List (ClassId × ScopeId)
deriving DecidableEq, Repr

structure ClassView where
  id : ClassId
  name : Name
  parent : Option Name
  steps : Option Nat
  isMain : Bool
  display : String
deriving DecidableEq, Repr

inductive Reply where
  | done
  | flag (b : Bool)
  | name (n : Option Name)
  | spelling (text : String) (n : Name)
  | names (size : Nat) (isPristine : Bool)
  | index (n : Nat)
  | cls (c : Option ClassId)
  | classes (cs : List ClassId)
  | classView (v : ClassView)
  | declared (classes : List (ClassId × String × Option String))
  | scope (s : Option ScopeId)
  | scopes (ss : List ScopeId)
  | scopeView (v : ScopeView)
  | value (v : Option Value)
  | stateView (v : StateView)
  | output (result : Option (ScopeId × List Reply))
  | each (replies : List Reply)
  | failed (f : Failure) (message : Option String)
deriving Repr

abbrev Output := ScopeId × List Reply

def Title.text? (names : Interner) : Title → Option String
  | main => none
  | named n => some (names.text n)

def Resource.view (names : Interner) (r : Resource) : ResourceView :=
  ⟨names.text r.type, r.title.text? names⟩

def Scope.view (names : Interner) (id : ScopeId) (s : Scope) : ScopeView :=
  ⟨id, s.parent, s.resource.map (·.view names), s.namespaces.map names.text⟩

def Compilation.view (names : Interner) (k : Compilation) : StateView where
  scopes := k.tree.ids.filterMap fun id => (k.tree.find? id).map (·.view names id)
  tags := k.tags.toList.map names.text
  evaluated := k.evaluated.toList.filterMap fun c => (k.classScope c).map (c, ·)

def ClassDecl.view {α : Type} (names : Interner) (id : ClassId) (d : ClassDecl (List α)) :
    ClassView where
  id := id
  name := d.name
  parent := d.parent
  steps := d.body.map List.length
  isMain := d.IsMain
  display := names.display d.name

def ClassTable.declared {β : Type} (t : ClassTable β) (names : Interner) :
    List (ClassId × String × Option String) :=
  t.ids.filterMap fun c =>
    (t.decl? c).map fun d => (c, names.text d.name, d.parent.map names.text)

end ConfigClasses

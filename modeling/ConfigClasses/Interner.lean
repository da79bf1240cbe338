import ConfigClasses.Name

namespace ConfigClasses

structure Interner where
  texts : Array String
  index : Std.TreeMap String Name

namespace Interner

def blank : Interner := ⟨#[], ∅⟩

def size (names : Interner) : Nat := names.texts.size

def find? (names : Interner) (text : String) : Option Name := names.index[text]?

def intern (names : Interner) (text : String) : Name × Interner :=
  match names.find? text with
  | some name => (name, names)
  | none =>
    let name : Name := ⟨names.size⟩
    (name, ⟨names.texts.push text, names.index.insert text name⟩)

def initial : Interner := ((blank.intern "").2.intern "main").2

instance : Inhabited Interner := ⟨initial⟩

def text (names : Interner) (name : Name) : String := names.texts.getD name.raw ""

def IsPristine (names : Interner) : Prop := names.size ≤ 2

instance (names : Interner) : Decidable names.IsPristine := inferInstanceAs (Decidable (_ ≤ _))

end Interner

end ConfigClasses

import ConfigClasses.Name

namespace ConfigClasses

/-- The main resource has a title of its own, which is not the title `"main"`. -/
inductive Title where
  | main
  | named (name : Name)
deriving DecidableEq, Repr

structure Resource where
  type : Name
  title : Title
deriving DecidableEq, Repr

namespace Resource

def IsMain (r : Resource) : Prop := r.title = .main

instance (r : Resource) : Decidable r.IsMain := inferInstanceAs (Decidable (_ = _))

end Resource

end ConfigClasses

import Std.Data.TreeMap

namespace ConfigClasses

structure Name where
  raw : Nat
deriving DecidableEq, Repr

namespace Name

def empty : Name := ⟨0⟩

def mainWord : Name := ⟨1⟩

instance : Ord Name := ⟨compareOn raw⟩

instance : Std.TransOrd Name := inferInstanceAs (Std.TransCmp (compareOn raw))

instance : Std.LawfulEqOrd Name where
  eq_of_compare {m n} h := by
    cases m
    cases n
    exact congrArg Name.mk (Nat.compare_eq_eq.1 h)

end Name

end ConfigClasses

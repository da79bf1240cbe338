namespace ConfigClasses

inductive Value where
  | undef
  | bool (b : Bool)
  | str (s : String)
  | array (items : List Value)
deriving Repr

namespace Value

instance : Inhabited Value := ⟨undef⟩

mutual

def same : Value → Value → Bool
  | undef, undef => true
  | bool a, bool b => a == b
  | str a, str b => a == b
  | array as, array bs => sameItems as bs
  | _, _ => false

def sameItems : List Value → List Value → Bool
  | [], [] => true
  | a :: as, b :: bs => same a b && sameItems as bs
  | _, _ => false

end

mutual

theorem same_iff (a b : Value) : same a b = true ↔ a = b := by
  cases a <;> cases b <;> simp [same, sameItems_iff]

theorem sameItems_iff (as bs : List Value) : sameItems as bs = true ↔ as = bs := by
  cases as <;> cases bs <;> simp [sameItems, same_iff, sameItems_iff]

end

instance : DecidableEq Value := fun a b => decidable_of_iff _ (same_iff a b)

def isUndef : Value → Bool
  | undef => true
  | _ => false

mutual

def display : Value → String
  | undef => ""
  | bool b => if b then "true" else "false"
  | str s => s
  | array items => "[" ++ displayItems items ++ "]"

def displayItems : List Value → String
  | [] => ""
  | [v] => display v
  | v :: w :: vs => display v ++ ", " ++ displayItems (w :: vs)

end

end Value

end ConfigClasses

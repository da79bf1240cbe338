import ConfigClasses.Text.LetterCase

namespace ConfigClasses.Text

def LetterRun.Covers (r : LetterRun) (n : Nat) : Prop :=
  r.first ≤ n ∧ n ≤ r.last ∧ (n - r.first) % r.step = 0

instance (r : LetterRun) (n : Nat) : Decidable (r.Covers n) :=
  inferInstanceAs (Decidable (_ ∧ _))

def lowerIn : List LetterRun → Nat → Nat
  | [], n => n
  | r :: rs, n =>
    if n < r.first then n
    else if r.Covers n then r.image + (n - r.first)
    else lowerIn rs n

def liesIn : List (Nat × Nat) → Nat → Bool
  | [], _ => false
  | (first, last) :: rs, n =>
    if n < first then false
    else if n ≤ last then true
    else liesIn rs n

def isCased (c : Char) : Bool := liesIn casedRanges c.toNat

def isCaseIgnorable (c : Char) : Bool := liesIn caseIgnorableRanges c.toNat

def lowerChar (c : Char) : List Char :=
  if c = 'İ' then ['i', '\u0307'] else [Char.ofNat (lowerIn letterRuns c.toNat)]

def startsCased : List Char → Bool
  | [] => false
  | c :: cs => if isCaseIgnorable c then startsCased cs else isCased c

/-- `inWord` tells whether the last character before the text that is not case-ignorable is
cased. A sigma is final when a word stands before it and none after it. -/
def lowerAfter (inWord : Bool) : List Char → List Char
  | [] => []
  | c :: cs =>
    (if c = 'Σ' then [if inWord && !startsCased cs then 'ς' else 'σ'] else lowerChar c) ++
      lowerAfter (if isCaseIgnorable c then inWord else isCased c) cs

def lowercase (cs : List Char) : List Char := lowerAfter false cs

end ConfigClasses.Text

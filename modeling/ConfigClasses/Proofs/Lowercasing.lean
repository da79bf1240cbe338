import ConfigClasses.Text.Lowercase

namespace ConfigClasses.Text

variable {n : Nat} {c d : Char} {cs ds before after : List Char}

namespace LetterRun

variable {r : LetterRun}

def count (r : LetterRun) : Nat := (r.last - r.first) / r.step + 1

def capitals (r : LetterRun) : List Nat := List.range' r.first r.count r.step

def images (r : LetterRun) : List Nat := List.range' r.image r.count r.step

theorem Covers.mem (h : r.Covers n) : n ∈ r.capitals ∧ r.image + (n - r.first) ∈ r.images := by
  obtain ⟨hfirst, hlast, hstep⟩ := h
  have hmul : r.step * ((n - r.first) / r.step) = n - r.first :=
    Nat.mul_div_cancel' (Nat.dvd_of_mod_eq_zero hstep)
  have hlt : (n - r.first) / r.step < r.count :=
    Nat.lt_succ_of_le (Nat.div_le_div_right (Nat.sub_le_sub_right hlast r.first))
  exact ⟨List.mem_range'.2 ⟨_, hlt, by omega⟩, List.mem_range'.2 ⟨_, hlt, by rw [hmul]⟩⟩

end LetterRun

def capitals : List Nat := 'İ'.toNat :: letterRuns.flatMap LetterRun.capitals

def images : List Nat := letterRuns.flatMap LetterRun.images

theorem lowerIn_cases (rs : List LetterRun) (n : Nat) :
    lowerIn rs n = n ∨ ∃ r ∈ rs, n ∈ r.capitals ∧ lowerIn rs n ∈ r.images := by
  induction rs with
  | nil => exact .inl rfl
  | cons r rs ih =>
    unfold lowerIn
    split
    · exact .inl rfl
    · split
      · next h => exact .inr ⟨r, List.mem_cons_self, h.mem⟩
      · exact ih.imp_right fun ⟨s, hs, h⟩ => ⟨s, List.mem_cons_of_mem r hs, h⟩

theorem lowerIn_letterRuns (n : Nat) :
    lowerIn letterRuns n = n ∨ n ∈ capitals ∧ lowerIn letterRuns n ∈ images :=
  (lowerIn_cases letterRuns n).imp_right fun ⟨r, hr, hn, himage⟩ =>
    ⟨List.mem_cons_of_mem _ (List.mem_flatMap.2 ⟨r, hr, hn⟩), List.mem_flatMap.2 ⟨r, hr, himage⟩⟩

/-- A set of numbers as the binary digits of one number. In this form it is decided at once that two
long lists have nothing in common. -/
def bits (ns : List Nat) : Nat := ns.foldr (fun n b => b ||| 1 <<< n) 0

theorem testBit_bits (ns : List Nat) (n : Nat) : (bits ns).testBit n = true ↔ n ∈ ns := by
  induction ns with
  | nil => simp [bits]
  | cons m ns ih =>
    have hbits : bits (m :: ns) = bits ns ||| 1 <<< m := rfl
    rw [hbits, Nat.testBit_or, Bool.or_eq_true, ih, Nat.one_shiftLeft, Nat.testBit_two_pow,
      decide_eq_true_iff, List.mem_cons, or_comm, eq_comm]

theorem bits_capitals_and_images : bits capitals &&& bits images = 0 := by decide +kernel

theorem not_mem_capitals (h : n ∈ images) : n ∉ capitals := by
  intro hn
  have hboth : (bits capitals &&& bits images).testBit n = true := by
    rw [Nat.testBit_and, (testBit_bits _ n).2 hn, (testBit_bits _ n).2 h, Bool.and_self]
  rw [bits_capitals_and_images, Nat.zero_testBit] at hboth
  cases hboth

theorem images_valid : ∀ n ∈ images, ':'.toNat < n ∧ n.isValidChar := by decide +kernel

def IsLower (c : Char) : Prop := lowerChar c = [c]

instance (c : Char) : Decidable (IsLower c) := inferInstanceAs (Decidable (_ = _))

theorem isLower_of_mem_images (h : c.toNat ∈ images) : IsLower c := by
  have hcapital := not_mem_capitals h
  have hne : c ≠ 'İ' := by
    rintro rfl
    exact hcapital List.mem_cons_self
  have hsame : lowerIn letterRuns c.toNat = c.toNat :=
    (lowerIn_letterRuns c.toNat).resolve_right fun hn => hcapital hn.1
  rw [IsLower, lowerChar, if_neg hne, hsame, Char.ofNat_toNat]

theorem lowerChar_cases (c : Char) :
    c = 'İ' ∨ IsLower c ∨ ∃ d, lowerChar c = [d] ∧ d.toNat ∈ images := by
  by_cases hc : c = 'İ'
  · exact .inl hc
  · rw [IsLower, lowerChar, if_neg hc]
    rcases lowerIn_letterRuns c.toNat with heq | ⟨-, himage⟩
    · exact .inr (.inl (by rw [heq, Char.ofNat_toNat]))
    · refine .inr (.inr ⟨_, rfl, ?_⟩)
      have hvalue : (Char.ofNat (lowerIn letterRuns c.toNat)).toNat = lowerIn letterRuns c.toNat := by
        rw [Char.ofNat, dif_pos (images_valid _ himage).2]
        rfl
      exact hvalue.symm ▸ himage

theorem lowerChar_ne_nil (c : Char) : lowerChar c ≠ [] := by
  unfold lowerChar
  split <;> simp

theorem isLower_of_mem_lowerChar (h : d ∈ lowerChar c) : IsLower d := by
  rcases lowerChar_cases c with rfl | hc | ⟨e, he, himage⟩
  · have hdotted : IsLower 'i' ∧ IsLower '\u0307' := by decide +kernel
    rw [lowerChar, if_pos rfl, List.mem_cons, List.mem_singleton] at h
    rcases h with rfl | rfl
    · exact hdotted.1
    · exact hdotted.2
  · rw [IsLower] at hc
    rw [hc, List.mem_singleton] at h
    rwa [h]
  · rw [he, List.mem_singleton] at h
    exact h ▸ isLower_of_mem_images himage

theorem isLower_lowerAfter (inWord : Bool) (cs : List Char) :
    ∀ d ∈ lowerAfter inWord cs, IsLower d := by
  induction cs generalizing inWord with
  | nil => simp [lowerAfter]
  | cons c cs ih =>
    intro d hd
    rw [lowerAfter, List.mem_append] at hd
    rcases hd with hd | hd
    · split at hd
      · have hsigma : ∀ final : Bool, IsLower (if final then 'ς' else 'σ') := by decide +kernel
        exact List.mem_singleton.1 hd ▸ hsigma _
      · exact isLower_of_mem_lowerChar hd
    · exact ih _ d hd

theorem lowerAfter_of_isLower (inWord : Bool) (h : ∀ c ∈ cs, IsLower c) :
    lowerAfter inWord cs = cs := by
  induction cs generalizing inWord with
  | nil => rfl
  | cons c cs ih =>
    have hc : lowerChar c = [c] := h c List.mem_cons_self
    -- Without a sigma it does not matter where words end.
    have hne : c ≠ 'Σ' := by
      rintro rfl
      exact absurd hc (by decide +kernel)
    rw [lowerAfter, if_neg hne, hc, ih _ fun d hd => h d (List.mem_cons_of_mem c hd)]
    rfl

theorem isLower_lowercase (cs : List Char) : ∀ d ∈ lowercase cs, IsLower d :=
  isLower_lowerAfter false cs

theorem lowercase_eq_self_iff : lowercase cs = cs ↔ ∀ c ∈ cs, IsLower c :=
  ⟨fun h => h ▸ isLower_lowercase cs, lowerAfter_of_isLower false⟩

@[simp] theorem lowerAfter_colon_cons (inWord : Bool) (cs : List Char) :
    lowerAfter inWord (':' :: cs) = ':' :: lowerAfter inWord cs := by
  have hcolon : IsLower ':' ∧ isCaseIgnorable ':' = true := by decide +kernel
  rw [lowerAfter, if_neg (by decide), hcolon.1, if_pos hcolon.2]
  rfl

theorem eq_colon_of_mem_lowerChar (h : ':' ∈ lowerChar c) : c = ':' := by
  rcases lowerChar_cases c with rfl | hc | ⟨d, hd, himage⟩
  · exact absurd h (by decide +kernel)
  · rw [IsLower] at hc
    rw [hc] at h
    exact (List.mem_singleton.1 h).symm
  · rw [hd] at h
    obtain rfl := List.mem_singleton.1 h
    exact absurd (images_valid _ himage).1 (Nat.lt_irrefl _)

theorem lowerAfter_eq_colon_cons {inWord : Bool} (h : lowerAfter inWord cs = ':' :: ds) :
    ∃ rest, cs = ':' :: rest ∧ lowerAfter inWord rest = ds := by
  cases cs with
  | nil => cases h
  | cons c cs =>
    have hc : c = ':' := by
      rw [lowerAfter] at h
      split at h
      · have hsigma : ∀ final : Bool, (if final then 'ς' else 'σ') ≠ ':' := by decide
        exact absurd (List.cons.inj h).1 (hsigma _)
      · rcases List.append_eq_cons_iff.1 h with ⟨hnil, -⟩ | ⟨more, hmore, -⟩
        · exact absurd hnil (lowerChar_ne_nil c)
        · exact eq_colon_of_mem_lowerChar (hmore ▸ List.mem_cons_self)
    subst hc
    rw [lowerAfter_colon_cons] at h
    exact ⟨cs, rfl, (List.cons.inj h).2⟩

theorem colons_prefix_lowercase : [':', ':'] <+: lowercase cs ↔ [':', ':'] <+: cs := by
  constructor
  · rintro ⟨ds, h⟩
    obtain ⟨rest, rfl, hrest⟩ := lowerAfter_eq_colon_cons h.symm
    obtain ⟨rest', rfl, -⟩ := lowerAfter_eq_colon_cons hrest
    exact ⟨rest', rfl⟩
  · rintro ⟨rest, rfl⟩
    exact ⟨lowercase rest, by simp [lowercase]⟩

def MeetsCased (cs : List Char) : Prop :=
  ∃ passed c rest, cs = passed ++ c :: rest ∧ (∀ d ∈ passed, isCaseIgnorable d) ∧
    ¬ isCaseIgnorable c ∧ isCased c

theorem startsCased_append {passed : List Char} (h : ∀ d ∈ passed, isCaseIgnorable d)
    (cs : List Char) : startsCased (passed ++ cs) = startsCased cs := by
  induction passed with
  | nil => rfl
  | cons d passed ih =>
    rw [List.cons_append, startsCased, if_pos (h d List.mem_cons_self),
      ih fun e he => h e (List.mem_cons_of_mem d he)]

theorem startsCased_iff : startsCased cs ↔ MeetsCased cs := by
  constructor
  · intro h
    induction cs with
    | nil => cases h
    | cons c cs ih =>
      rw [startsCased] at h
      split at h
      · next hc =>
        obtain ⟨passed, d, rest, rfl, hpassed, hd⟩ := ih h
        exact ⟨c :: passed, d, rest, rfl, List.forall_mem_cons.2 ⟨hc, hpassed⟩, hd⟩
      · next hc => exact ⟨[], c, cs, rfl, by simp, hc, h⟩
  · rintro ⟨passed, c, rest, rfl, hpassed, hc, hcased⟩
    rw [startsCased_append hpassed, startsCased, if_neg hc]
    exact hcased

/-- A word ends between the texts. The text before is read backwards. -/
def EndsWord (before after : List Char) : Prop := MeetsCased before ∧ ¬ MeetsCased after

theorem endsWord_iff : (startsCased before && !startsCased after) = true ↔ EndsWord before after := by
  rw [Bool.and_eq_true, Bool.not_eq_true', ← Bool.not_eq_true, startsCased_iff, startsCased_iff,
    EndsWord]

/-- The lowercase of a text that stands after `before`, which is read backwards. -/
inductive Lowers : List Char → List Char → List Char → Prop
  | nil {before : List Char} : Lowers before [] []
  | final {before after ds : List Char} (hends : EndsWord before after)
      (h : Lowers ('Σ' :: before) after ds) : Lowers before ('Σ' :: after) ('ς' :: ds)
  | medial {before after ds : List Char} (hends : ¬ EndsWord before after)
      (h : Lowers ('Σ' :: before) after ds) : Lowers before ('Σ' :: after) ('σ' :: ds)
  | letter {before after ds : List Char} {c : Char} (hc : c ≠ 'Σ')
      (h : Lowers (c :: before) after ds) : Lowers before (c :: after) (lowerChar c ++ ds)

theorem lowers_lowerAfter (before cs : List Char) :
    Lowers before cs (lowerAfter (startsCased before) cs) := by
  induction cs generalizing before with
  | nil => exact .nil
  | cons c cs ih =>
    have hrest := ih (c :: before)
    rw [startsCased] at hrest
    rw [lowerAfter]
    split
    · next hc =>
      subst hc
      split
      · next hends => exact .final (endsWord_iff.1 hends) hrest
      · next hends => exact .medial (mt endsWord_iff.2 hends) hrest
    · next hc => exact .letter hc hrest

theorem Lowers.eq_lowerAfter (h : Lowers before cs ds) :
    ds = lowerAfter (startsCased before) cs := by
  induction h with
  | nil => rfl
  | final hends _ ih =>
    rw [lowerAfter, if_pos rfl, if_pos (endsWord_iff.2 hends), ih, startsCased]
    rfl
  | medial hends _ ih =>
    rw [lowerAfter, if_pos rfl, if_neg (mt endsWord_iff.1 hends), ih, startsCased]
    rfl
  | letter hc _ ih => rw [lowerAfter, if_neg hc, ih, startsCased]

theorem lowers_iff : Lowers [] cs ds ↔ ds = lowercase cs :=
  ⟨Lowers.eq_lowerAfter, fun h => h ▸ lowers_lowerAfter [] cs⟩

end ConfigClasses.Text

import ConfigClasses.Proofs.Lowercasing
import ConfigClasses.Proofs.SettledInheritance
import Mathlib.Logic.Function.Iterate

namespace ConfigClasses

open Text

namespace ClassName

variable {cs : List Char} {s : String}

theorem not_prefix_unqualified (cs : List Char) : ¬ [':', ':'] <+: unqualified cs := by
  fun_induction unqualified cs with
  | case1 cs ih => exact ih
  | case2 cs hcs =>
    rintro ⟨rest, rfl⟩
    exact hcs rest rfl

theorem unqualified_of_not_prefix (h : ¬ [':', ':'] <+: cs) : unqualified cs = cs := by
  fun_cases unqualified cs with
  | case1 rest => exact absurd ⟨rest, rfl⟩ h
  | case2 => rfl

theorem unqualified_lowercase (cs : List Char) :
    unqualified (lowercase cs) = lowercase (unqualified cs) := by
  fun_induction unqualified cs with
  | case1 cs ih =>
    have hcolons : lowercase (':' :: ':' :: cs) = ':' :: ':' :: lowercase cs := by simp [lowercase]
    rw [hcolons, unqualified, ih]
  | case2 cs hcs =>
    refine unqualified_of_not_prefix (mt colons_prefix_lowercase.1 ?_)
    rintro ⟨rest, rfl⟩
    exact hcs rest rfl

structure IsNormal (s : String) : Prop where
  unqualified : s.startsWith "::" = false
  lower : ∀ c ∈ s.toList, IsLower c

theorem toList_normalize (s : String) : (normalize s).toList = lowercase (unqualified s.toList) :=
  String.toList_ofList

theorem startsWith_colons_iff : s.startsWith "::" = false ↔ ¬ [':', ':'] <+: s.toList := by
  rw [← Bool.not_eq_true, String.startsWith_string_iff]
  rfl

theorem isNormal_normalize (s : String) : IsNormal (normalize s) := by
  constructor
  · rw [startsWith_colons_iff, toList_normalize, colons_prefix_lowercase]
    exact not_prefix_unqualified s.toList
  · rw [toList_normalize]
    exact isLower_lowercase _

theorem normalize_eq_self_iff : normalize s = s ↔ IsNormal s := by
  constructor
  · intro h
    exact h ▸ isNormal_normalize s
  · intro h
    rw [normalize, unqualified_of_not_prefix (startsWith_colons_iff.1 h.unqualified),
      lowercase_eq_self_iff.2 h.lower, String.ofList_toList]

theorem normalize_normalize (s : String) : normalize (normalize s) = normalize s :=
  normalize_eq_self_iff.2 (isNormal_normalize s)

theorem normalize_qualified (s : String) : normalize ("::" ++ s) = normalize s := by
  have hlist : ("::" ++ s).toList = ':' :: ':' :: s.toList := String.toList_append
  rw [normalize, hlist, unqualified, normalize]

theorem normalize_qualifiedTimes (k : Nat) (s : String) :
    normalize (("::" ++ ·)^[k] s) = normalize s := by
  induction k with
  | zero => rfl
  | succ k ih => rw [Function.iterate_succ_apply', normalize_qualified, ih]

end ClassName

namespace ClassTable

variable {β : Type} {t t' : ClassTable β} {names names' : Interner} {c : ClassId} {d : ClassDecl β}
  {name : String} {parent : Option String} {body : Option β}

/-- The table finds `c` by `name`, qualified or not, by the name as it is stored, and by no string that
has another normal form. -/
structure FoundUnder (t : ClassTable β) (names : Interner) (name : String) (c : ClassId) : Prop where
  qualified : ∀ k, t.find? names (("::" ++ ·)^[k] name) = some c
  stored : ∃ d, t.decl? c = some d ∧ names.text d.name = ClassName.normalize name ∧
    t.find? names (names.text d.name) = some c
  only : ∀ x, t.find? names x = some c ↔ ClassName.normalize x = ClassName.normalize name

theorem Later.foundUnder (h : t.Later t' names names') (hd : t.decl? c = some d)
    (hname : names.text d.name = ClassName.normalize name) : t'.FoundUnder names' name c := by
  have hd' : t'.decl? c = some d := h.table.toExtends.decl hd
  have hname' : names'.text d.name = ClassName.normalize name :=
    (h.before.text_grow h.interner hd).trans hname
  have honly (x : String) :
      t'.find? names' x = some c ↔ ClassName.normalize x = ClassName.normalize name := by
    simp only [h.after.find?_iff, hd', Option.some.injEq, exists_eq_left', hname', eq_comm]
  constructor
  case qualified => exact fun k => (honly _).2 (ClassName.normalize_qualifiedTimes k name)
  case stored =>
    refine ⟨d, hd', hname', (honly _).2 ?_⟩
    rw [hname', ClassName.normalize_normalize]
  case only => exact honly

theorem DefinedOver.decl?_define (h : t.DefinedOver names)
    (hdefined : (t.define names name parent body).1 = .ok c) :
    ∃ d, (t.define names name parent body).2.1.decl? c = some d ∧
      (t.define names name parent body).2.2.text d.name = ClassName.normalize name := by
  by_cases hold : t.Has names (ClassName.normalize name)
  · obtain ⟨c', d, hd, hname⟩ := hold
    rw [h.define_duplicate parent body hd hname] at hdefined
    cases hdefined
  · obtain ⟨t', names', d, hdefine, hdeclares⟩ := h.define_new parent body
      fun c d hd hname => hold ⟨c, d, hd, hname⟩
    rw [hdefine] at hdefined ⊢
    obtain rfl := Except.ok.inj hdefined
    exact ⟨d, by rw [hdeclares.decl?, if_pos rfl], hdeclares.spelled⟩

end ClassTable

theorem normal_form_decides :
    (∀ cs ds, Lowers [] cs ds ↔ ds = lowercase cs) ∧
      (∀ s, ClassName.normalize (ClassName.normalize s) = ClassName.normalize s ∧
        ClassName.normalize ("::" ++ s) = ClassName.normalize s ∧
        (ClassName.normalize s).startsWith "::" = false ∧
        String.ofList (ClassName.unqualified (lowercase s.toList)) = ClassName.normalize s ∧
        (ClassName.normalize s = s ↔ ClassName.IsNormal s)) ∧
      ∀ {β : Type} {t t' : ClassTable β} {names names' : Interner} (name : String)
        (parent : Option String) (body : Option β) (c : ClassId),
        t.DefinedOver names → (t.define names name parent body).1 = .ok c →
          (t.define names name parent body).2.1.Later t' (t.define names name parent body).2.2
            names' → t'.FoundUnder names' name c := by
  refine ⟨fun _ _ => lowers_iff, fun s => ?_, ?_⟩
  · have hcommute : String.ofList (ClassName.unqualified (lowercase s.toList)) =
        ClassName.normalize s := by
      rw [ClassName.unqualified_lowercase, ClassName.normalize]
    exact ⟨ClassName.normalize_normalize s, ClassName.normalize_qualified s,
      (ClassName.isNormal_normalize s).unqualified, hcommute, ClassName.normalize_eq_self_iff⟩
  · intro β t t' names names' name parent body c h hdefined hlater
    obtain ⟨d, hd, hname⟩ := h.decl?_define hdefined
    exact hlater.foundUnder hd hname

def finalSigma : ClassTable Unit × Interner :=
  ClassTable.empty.callAll .initial [.define "ασ::ος" none none, .intern ":ασ::ος"]

theorem oddColons_decides :
    let defined := finalSigma.1.define finalSigma.2 ":::ΑΣ::ΟΣ" none none
    let later := defined.2.1.callAll defined.2.2 [.define "::ΑΣ::ΟΣ::Α" none none, .intern "::"]
    ClassName.normalize ":::ΑΣ::ΟΣ" = ":ασ::ος" ∧
      ClassName.normalize "::ΑΣ::ΟΣ::Α" = "ασ::οσ::α" ∧
      later.1.find? later.2 "ΑΣ::ΟΣ" = some ⟨0⟩ ∧
      later.1.FoundUnder later.2 ":::ΑΣ::ΟΣ" ⟨1⟩ := by
  intro defined later
  have h : finalSigma.1.DefinedOver finalSigma.2 :=
    ((ClassTable.Later.refl (.empty (.refl .initial))).callAll _).after
  have hlater : defined.2.1.Later later.1 defined.2.2 later.2 :=
    (ClassTable.Later.refl (h.define _ _ _)).callAll _
  exact ⟨by decide +kernel, by decide +kernel, by decide +kernel,
    normal_form_decides.2.2 _ none none _ h (by decide +kernel) hlater⟩

theorem Instant.UpTo.foundUnder {i j : Instant} (h : i.UpTo j) (r : Nat) {c : ClassId}
    {d : ClassDecl Body} {name : String} (hd : (i.table r).decl? c = some d)
    (hname : (i.namesOf r).text d.name = ClassName.normalize name) :
    (j.table r).FoundUnder (j.namesOf r) name c :=
  (h.later r (ClassTable.lt_size_of_decl? hd)).foundUnder hd hname

end ConfigClasses

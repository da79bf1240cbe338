import ConfigClasses.ClassTable.Lineage
import ConfigClasses.Session

namespace ConfigClasses

namespace ClassTable

variable {β : Type} {t t' t'' : ClassTable β}

structure Extends (t t' : ClassTable β) : Prop where
  decl : ∀ {c : ClassId} {d : ClassDecl β}, t.decl? c = some d → t'.decl? c = some d
  name : ∀ {n : Name} {c : ClassId}, t.findName? n = some c → t'.findName? n = some c

theorem Extends.refl (t : ClassTable β) : t.Extends t := ⟨id, id⟩

theorem Extends.trans (h : t.Extends t') (h' : t'.Extends t'') : t.Extends t'' :=
  ⟨fun hd => h'.decl (h.decl hd), fun hn => h'.name (h.name hn)⟩

theorem Extends.parentOf (h : t.Extends t') {c : ClassId} {d : ClassDecl β} {p : Option ClassId}
    (hd : t.decl? c = some d) (hp : t.parentOf c = .ok p) : t'.parentOf c = .ok p := by
  unfold ClassTable.parentOf at hp ⊢
  rw [h.decl hd]
  rw [hd] at hp
  cases hn : d.parent with
  | none => simpa [hn] using hp
  | some n =>
    simp only [Option.bind_some, hn] at hp ⊢
    cases hq : t.findName? n with
    | none => simp [hq] at hp
    | some q => simpa [hq, h.name hq] using hp

section Add

variable (t) (d : ClassDecl β)

@[simp] theorem size_add : (t.add d).size = t.size + 1 := by
  simp [size, add]

theorem decl?_add (c : ClassId) :
    (t.add d).decl? c = if c = ⟨t.size⟩ then some d else t.decl? c := by
  obtain ⟨n⟩ := c
  simp [decl?, add, size, Array.getElem?_push]

theorem findName?_add (n : Name) :
    (t.add d).findName? n = if n = d.name then some ⟨t.size⟩ else t.findName? n := by
  simp only [findName?, add, Std.TreeMap.getElem?_insert, Std.LawfulEqCmp.compare_eq_iff_eq]
  simp only [eq_comm]

end Add

theorem lt_size_of_decl? {c : ClassId} {d : ClassDecl β} (h : t.decl? c = some d) :
    c.raw < t.size :=
  (Array.getElem?_eq_some_iff.1 h).1

theorem exists_decl {c : ClassId} (hc : c.raw < t.size) : ∃ d, t.decl? c = some d :=
  ⟨_, Array.getElem?_eq_getElem hc⟩

theorem extends_add {d : ClassDecl β} (h : t.findName? d.name = none) : t.Extends (t.add d) := by
  constructor
  · intro c e hc
    rw [decl?_add, if_neg, hc]
    rintro rfl
    exact Nat.lt_irrefl _ (lt_size_of_decl? hc)
  · intro n c hn
    rw [findName?_add, if_neg, hn]
    rintro rfl
    cases h.symm.trans hn

theorem extends_define (t : ClassTable β) (names : Interner) (name : String)
    (parent : Option String) (body : Option β) :
    t.Extends (t.define names name parent body).2.1 := by
  unfold define
  dsimp only
  split
  · exact .refl t
  · next h => exact extends_add h

def Indexed (t : ClassTable β) : Prop :=
  ∀ n c, t.findName? n = some c ↔ ∃ d, t.decl? c = some d ∧ d.name = n

theorem Indexed.add (h : t.Indexed) {d : ClassDecl β} (hd : t.findName? d.name = none) :
    (t.add d).Indexed := by
  intro n c
  rw [findName?_add, decl?_add]
  by_cases hc : c = ⟨t.size⟩
  · subst hc
    -- The new number belonged to no class.
    have hnone : t.findName? n ≠ some ⟨t.size⟩ := by
      intro hn
      obtain ⟨e, he, -⟩ := (h n _).1 hn
      exact Nat.lt_irrefl _ (lt_size_of_decl? he)
    split <;> simp_all [eq_comm]
  · split
    · next hn =>
      subst hn
      have hother : ¬ ∃ e, t.decl? c = some e ∧ e.name = d.name := by simp [← h d.name c, hd]
      simpa [hc, Ne.symm hc] using hother
    · simpa only [hc, if_false] using h n c

theorem Indexed.same_class (h : t.Indexed) {c c' : ClassId} {d d' : ClassDecl β}
    (hd : t.decl? c = some d) (hd' : t.decl? c' = some d') (hname : d.name = d'.name) : c = c' := by
  have hc := (h d.name c).2 ⟨d, hd, rfl⟩
  rw [(h d.name c').2 ⟨d', hd', hname.symm⟩] at hc
  exact (Option.some.inj hc).symm

inductive GrowsTo (t : ClassTable β) : ClassTable β → Prop
  | refl : GrowsTo t t
  | define {t' : ClassTable β} (h : GrowsTo t t') (names : Interner) (name : String)
      (parent : Option String) (body : Option β) : GrowsTo t (t'.define names name parent body).2.1

namespace GrowsTo

theorem trans (h : t.GrowsTo t') (h' : t'.GrowsTo t'') : t.GrowsTo t'' := by
  induction h' with
  | refl => exact h
  | define _ names name parent body ih => exact ih.define names name parent body

theorem toExtends (h : t.GrowsTo t') : t.Extends t' := by
  induction h with
  | refl => exact .refl t
  | define _ names name parent body ih => exact ih.trans (extends_define _ names name parent body)

theorem indexed (h : empty.GrowsTo t) : t.Indexed := by
  induction h with
  | refl => simp [Indexed, findName?, decl?, empty]
  | define h names name parent body ih =>
    unfold ClassTable.define
    dsimp only
    split
    · exact ih
    · next hnew => exact ih.add hnew

theorem parent_declared (h : empty.GrowsTo t) {c p : ClassId} (hp : t.parentOf c = .ok (some p)) :
    ∃ d, t.decl? p = some d := by
  unfold ClassTable.parentOf at hp
  split at hp
  · cases hp
  · split at hp
    · next hq =>
      obtain rfl := Option.some.inj (Except.ok.inj hp)
      obtain ⟨d, hd, -⟩ := (h.indexed _ _).1 hq
      exact ⟨d, hd⟩
    · cases hp

end GrowsTo

end ClassTable

theorem growsTo_defineFrom (stem : String) (body : Option Body) (left i : Nat)
    (last : Option ClassId) (t : ClassTable Body) (names : Interner) :
    t.GrowsTo (defineFrom stem body left i last t names).2.1 := by
  induction left generalizing i last t names with
  | zero => exact .refl
  | succ left ih =>
    unfold defineFrom
    dsimp only
    have hdefine := ClassTable.GrowsTo.refl.define (t := t) names (stem ++ toString i)
      (if i = 0 then none else some (stem ++ toString (i - 1))) body
    split
    · next c t' names' heq =>
      rw [heq] at hdefine
      exact hdefine.trans (ih (i + 1) (some c) t' names')
    · next e t' names' heq =>
      rw [heq] at hdefine
      exact hdefine

end ConfigClasses

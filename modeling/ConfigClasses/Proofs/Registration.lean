import ConfigClasses.Compilation

namespace ConfigClasses

theorem getElem?_concat_eq_some {α : Type} {xs : List α} {x y : α} {n : Nat} :
    (xs ++ [x])[n]? = some y ↔ xs[n]? = some y ∨ n = xs.length ∧ x = y := by
  rcases Nat.lt_trichotomy n xs.length with h | rfl | h
  · rw [List.getElem?_append_left h]
    simp [Nat.ne_of_lt h]
  · simp
  · have hlast : (xs ++ [x]).length ≤ n := List.length_append ▸ h
    rw [List.getElem?_eq_none hlast, List.getElem?_eq_none (Nat.le_of_lt h)]
    simp [Nat.ne_of_gt h]

namespace Compilation

variable {k : Compilation}

theorem isEvaluated_iff {c : ClassId} : k.IsEvaluated c ↔ ∃ s, k.classScope c = some s := by
  rw [IsEvaluated, classScope, ← Std.TreeMap.isSome_getElem?_iff_mem, Option.isSome_iff_exists]

theorem not_isEvaluated_iff {c : ClassId} : ¬ k.IsEvaluated c ↔ k.classScope c = none := by
  simp [isEvaluated_iff, Option.eq_none_iff_forall_ne_some]

theorem isEvaluated_of_classScope {c : ClassId} {s : ScopeId} (h : k.classScope c = some s) :
    k.IsEvaluated c :=
  isEvaluated_iff.2 ⟨s, h⟩

@[simp] theorem initial_isEvaluated (c : ClassId) : ¬ initial.IsEvaluated c := by
  simp [IsEvaluated, initial]

section Register

variable (c d : ClassId) (s : ScopeId)

@[simp] theorem register_tree : (k.register c s).tree = k.tree := by
  unfold register
  split <;> rfl

@[simp] theorem register_isTagged (name : Name) :
    (k.register c s).IsTagged name ↔ k.IsTagged name := by
  unfold register
  split <;> rfl

theorem register_classScope (h : ¬ k.IsEvaluated c) :
    (k.register c s).classScope d = if d = c then some s else k.classScope d := by
  rw [register, if_neg h]
  simp only [classScope, Std.TreeMap.getElem?_insert, Std.LawfulEqCmp.compare_eq_iff_eq]
  simp only [eq_comm]

theorem register_of_isEvaluated (h : k.IsEvaluated c) : k.register c s = k := if_pos h

theorem classScope_register {u : ScopeId} (h : k.classScope d = some u) :
    (k.register c s).classScope d = some u := by
  by_cases hc : k.IsEvaluated c
  · rwa [register_of_isEvaluated c s hc]
  · rw [register_classScope c d s hc, if_neg, h]
    rintro rfl
    exact hc (isEvaluated_of_classScope h)

@[simp] theorem isEvaluated_register :
    (k.register c s).IsEvaluated d ↔ d = c ∨ k.IsEvaluated d := by
  by_cases hc : k.IsEvaluated c
  · rw [register_of_isEvaluated c s hc]
    exact ⟨.inr, fun h => h.elim (fun h => h ▸ hc) id⟩
  · simp only [isEvaluated_iff, register_classScope c d s hc]
    split <;> simp [*]

end Register

section Tag

variable (name : Name)

@[simp] theorem tag_tree : (k.tag name).tree = k.tree := by
  unfold tag
  split <;> rfl

@[simp] theorem tag_evaluated : (k.tag name).evaluated = k.evaluated := by
  unfold tag
  split <;> rfl

@[simp] theorem tag_classScope (c : ClassId) : (k.tag name).classScope c = k.classScope c := by
  unfold tag
  split <;> rfl

@[simp] theorem tag_isEvaluated (c : ClassId) : (k.tag name).IsEvaluated c ↔ k.IsEvaluated c := by
  simp [isEvaluated_iff]

@[simp] theorem isTagged_tag (other : Name) :
    (k.tag name).IsTagged other ↔ other = name ∨ k.IsTagged other := by
  by_cases h : k.IsTagged name
  · rw [tag, if_pos h]
    exact ⟨.inr, fun ho => ho.elim (fun ho => ho ▸ h) id⟩
  · rw [tag, if_neg h]
    simp only [IsTagged, Std.TreeSet.mem_insert, Std.LawfulEqCmp.compare_eq_iff_eq]
    simp only [eq_comm]

end Tag

def tagAll (k : Compilation) (names : List Name) : Compilation := names.foldl tag k

section TagAll

variable {names : List Name}

@[simp] theorem tagAll_tree : (k.tagAll names).tree = k.tree := by
  induction names generalizing k with
  | nil => rfl
  | cons name names ih => exact ih.trans (tag_tree name)

@[simp] theorem tagAll_evaluated : (k.tagAll names).evaluated = k.evaluated := by
  induction names generalizing k with
  | nil => rfl
  | cons name names ih => exact ih.trans (tag_evaluated name)

@[simp] theorem tagAll_classScope (c : ClassId) :
    (k.tagAll names).classScope c = k.classScope c := by
  induction names generalizing k with
  | nil => rfl
  | cons name names ih => exact ih.trans (tag_classScope name c)

@[simp] theorem tagAll_isEvaluated (c : ClassId) :
    (k.tagAll names).IsEvaluated c ↔ k.IsEvaluated c := by
  simp [isEvaluated_iff]

theorem tags_tag_append {name : Name} (h : name ∉ names) :
    (k.tag name).tags.toList ++ names.filter (¬ (k.tag name).IsTagged ·) =
      k.tags.toList ++ (name :: names).filter (¬ k.IsTagged ·) := by
  have hrest : names.filter (¬ (k.tag name).IsTagged ·) = names.filter (¬ k.IsTagged ·) := by
    refine List.filter_congr fun other hother => ?_
    have hne : other ≠ name := fun heq => h (heq ▸ hother)
    simp [hne]
  have htags : (k.tag name).tags.toList =
      k.tags.toList ++ if k.IsTagged name then [] else [name] := by
    unfold tag
    split <;> simp
  rw [hrest, htags, List.filter_cons, List.append_assoc]
  by_cases htagged : k.IsTagged name <;> simp [htagged]

theorem tags_tagAll (h : names.Nodup) :
    (k.tagAll names).tags.toList = k.tags.toList ++ names.filter (¬ k.IsTagged ·) := by
  induction names generalizing k with
  | nil => simp [tagAll]
  | cons name names ih =>
    obtain ⟨hname, hnames⟩ := List.nodup_cons.1 h
    exact (ih hnames).trans (tags_tag_append hname)

end TagAll

def Listed (k : Compilation) : Prop := ∀ c, c ∈ k.evaluated.toList ↔ k.IsEvaluated c

theorem listed_initial : initial.Listed := by
  simp [Listed, initial, IsEvaluated]

theorem Listed.register (h : k.Listed) (c : ClassId) (s : ScopeId) : (k.register c s).Listed := by
  intro d
  by_cases hc : k.IsEvaluated c
  · rw [register_of_isEvaluated c s hc]
    exact h d
  · rw [isEvaluated_register, ← h d]
    simp [Compilation.register, hc, or_comm]

theorem Listed.tag (h : k.Listed) (name : Name) : (k.tag name).Listed := by
  intro c
  simpa using h c

def Precedes (k : Compilation) (p c : ClassId) : Prop :=
  k.evaluated.toList.idxOf p < k.evaluated.toList.idxOf c

instance (p c : ClassId) : Decidable (k.Precedes p c) := inferInstanceAs (Decidable (_ < _))

theorem Listed.precedes (h : k.Listed) {p c : ClassId} (hp : k.IsEvaluated p)
    (hc : ¬ k.IsEvaluated c) : k.Precedes p c := by
  rw [Precedes, List.idxOf_eq_length (mt (h c).1 hc)]
  exact List.idxOf_lt_length_of_mem ((h p).2 hp)

theorem Precedes.register {p c : ClassId} (h : k.Precedes p c) (d : ClassId) (s : ScopeId) :
    (k.register d s).Precedes p c := by
  by_cases hd : k.IsEvaluated d
  · rwa [register_of_isEvaluated d s hd]
  · have hp : p ∈ k.evaluated.toList := by
      apply List.idxOf_lt_length_iff.1
      exact Nat.lt_of_lt_of_le h List.idxOf_le_length
    unfold Precedes at h ⊢
    rw [Compilation.register, if_neg hd]
    simp only [Array.toList_push, List.idxOf_append, hp, if_true]
    split
    · exact h
    · have := List.idxOf_lt_length_of_mem hp
      omega

end Compilation

end ConfigClasses

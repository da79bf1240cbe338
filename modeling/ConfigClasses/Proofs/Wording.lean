import ConfigClasses.Proofs.Interning

namespace ConfigClasses

inductive Complaint where
  | duplicateClass (cls : String)
  | unknownClass (text : String)
  | unknownParent (cls parent : String)
  | cyclicInheritance (chain : List String)
deriving DecidableEq

def TableError.told {β : Type} (t : ClassTable β) (names : Interner) : TableError → Complaint
  | duplicateClass cls => .duplicateClass (t.display names cls)
  | unknownClass text => .unknownClass text
  | unknownParent cls parent => .unknownParent (t.display names cls) (names.display parent)
  | cyclicInheritance chain => .cyclicInheritance (chain.map (t.display names))

theorem Interner.GrowsTo.display {names names' : Interner} (h : names.GrowsTo names')
    (hs : names.Sound) {n : Name} (hn : n.raw < names.size) :
    names'.display n = names.display n := by
  rw [Interner.display, Interner.display, h.text hs hn]

/-- Only the top-level class and a class `main` are displayed alike. -/
theorem Interner.display_eq {names : Interner} (h : Interner.initial.GrowsTo names) {m n : Name}
    (hm : m.raw < names.size) (hn : n.raw < names.size) (heq : names.display m = names.display n) :
    m = n ∨ (m = .empty ∧ n = .mainWord) ∨ (m = .mainWord ∧ n = .empty) := by
  have hsound := h.sound sound_initial
  have hmain (n : Name) (hn : n.raw < names.size) (htext : names.text n = "main") :
      n = .mainWord := by
    have hword : names.find? "main" = some .mainWord := h.within _ _ (by decide +kernel)
    exact Option.some.inj (((htext ▸ hsound.find?_text hn).symm.trans hword))
  unfold Interner.display at heq
  split at heq
  · next hm' =>
    split at heq
    · next hn' => exact .inl (hm'.trans hn'.symm)
    · exact .inr (.inl ⟨hm', hmain n hn heq.symm⟩)
  · split at heq
    · next hn' => exact .inr (.inr ⟨hmain m hm heq, hn'⟩)
    · have hfound := hsound.find?_text hm
      rw [heq, hsound.find?_text hn] at hfound
      exact .inl (Option.some.inj hfound).symm

end ConfigClasses

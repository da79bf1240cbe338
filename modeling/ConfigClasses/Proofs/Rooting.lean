import ConfigClasses.Proofs.ScopeOrder
import ConfigClasses.Proofs.Starts
import ConfigClasses.Proofs.TableGrowth

namespace ConfigClasses

def ScopeTree.Beneath (t : ScopeTree) (s o : ScopeId) : Prop := s = o ∨ t.parent? s = some o

structure Compilation.Grows (k k' : Compilation) : Prop where
  tagged : ∀ {name : Name}, k.IsTagged name → k'.IsTagged name
  scope : ∀ {c : ClassId} {s : ScopeId}, k.classScope c = some s → k'.classScope c = some s
  precedes : ∀ {p c : ClassId}, k.Precedes p c → k'.Precedes p c
  size : k.tree.size ≤ k'.tree.size
  parent : ∀ {s : ScopeId}, s.raw < k.tree.size → k'.tree.parent? s = k.tree.parent? s

theorem Compilation.Grows.beneath {k k' : Compilation} (h : k.Grows k') {s o : ScopeId}
    (hs : s.raw < k.tree.size) (hb : k.tree.Beneath s o) : k'.tree.Beneath s o := by
  rw [ScopeTree.Beneath, h.parent hs]
  exact hb

theorem grows_after {m : Moment} {e : Event} (he : e ≠ .reset) :
    m.compilation.Grows (m.after e).compilation := by
  have hprecedes : ∀ {p c : ClassId}, m.compilation.Precedes p c →
      (m.after e).compilation.Precedes p c := by
    intro p c h
    cases e with
    | reset => exact (he rfl).elim
    | placed d u | assigned d u => exact h.register d u
    | tagged name => simpa [Moment.after, Compilation.Precedes] using h
    | _ => exact h
  constructor
  case tagged => exact isTagged_after he
  case scope => exact classScope_after he
  case precedes => exact hprecedes
  case size =>
    cases e with
    | reset => exact (he rfl).elim
    | _ => simp [Moment.after]
  case parent =>
    intro s hs
    cases e with
    | reset => exact (he rfl).elim
    | nested owner outer r => exact ScopeTree.parent?_nest_of_lt outer r hs
    | _ => simp [Moment.after]

namespace ClassTable

variable {β : Type} {t t' : ClassTable β}

structure Rooted (t : ClassTable β) (k : Compilation) (c : ClassId) (s : ScopeId) : Prop where
  declared : ∃ d, t.decl? c = some d ∧ k.IsTagged d.name
  inTree : s.raw < k.tree.size
  parent : t.parentOf c = .ok none ∨ ∃ p o, t.parentOf c = .ok (some p) ∧
    k.classScope p = some o ∧ k.Precedes p c ∧ k.tree.Beneath s o

theorem Rooted.grow {k k' : Compilation} {c : ClassId} {s : ScopeId} (h : t.Rooted k c s)
    (hg : k.Grows k') : t.Rooted k' c s := by
  obtain ⟨⟨d, hd, htagged⟩, hin, hparent⟩ := h
  refine ⟨⟨d, hd, hg.tagged htagged⟩, Nat.lt_of_lt_of_le hin hg.size, hparent.imp id ?_⟩
  rintro ⟨p, o, hp, ho, hprecedes, hbeneath⟩
  exact ⟨p, o, hp, hg.scope ho, hg.precedes hprecedes, hg.beneath hin hbeneath⟩

theorem Rooted.extend {k : Compilation} {c : ClassId} {s : ScopeId} (h : t.Rooted k c s)
    (ht : t.Extends t') : t'.Rooted k c s := by
  obtain ⟨⟨d, hd, htagged⟩, hin, hparent⟩ := h
  refine ⟨⟨d, ht.decl hd, htagged⟩, hin, hparent.imp (ht.parentOf hd) ?_⟩
  rintro ⟨p, o, hp, hrest⟩
  exact ⟨p, o, ht.parentOf hd hp, hrest⟩

structure Founded (t : ClassTable β) (tr : Trace) : Prop where
  ordered : tr.now.compilation.tree.Ordered
  listed : tr.now.compilation.Listed
  callers : ∀ {c : ClassId} {s : ScopeId} {r : Option Resource},
    .call c s r ∈ tr.now.stack → s.raw < tr.now.compilation.tree.size
  rooted : ∀ {c : ClassId} {s : ScopeId}, tr.now.compilation.classScope c = some s →
    t.Rooted tr.now.compilation c s

end ClassTable

theorem call_of_errand {stack : List Activity} {caller : ScopeId} {r : Resource}
    (h : errand stack = some (caller, r)) : ∃ c, .call c caller (some r) ∈ stack := by
  induction stack with
  | nil => cases h
  | cons a stack ih =>
    cases a with
    | call c s resource =>
      cases resource with
      | none => cases h
      | some r' =>
        cases h
        exact ⟨c, List.mem_cons_self⟩
    | ascent c =>
      obtain ⟨d, hd⟩ := ih h
      exact ⟨d, List.mem_cons_of_mem _ hd⟩
    | _ => cases h

namespace ClassTable

variable {β : Type} {t t' : ClassTable β} {tr : Trace} {e : Event}

theorem Founded.rooted_of_placed (h : t.Founded tr) {c : ClassId} {s : ScopeId}
    (hdecl : ∃ d, t.decl? c = some d ∧ tr.now.compilation.IsTagged d.name)
    (hbelongs : t.Belongs tr.now c s) (hnew : ¬ tr.now.compilation.IsEvaluated c) :
    t.Rooted tr.now.compilation c s := by
  obtain ⟨caller, r, outer, herrand, houter, hsuits⟩ := hbelongs
  obtain ⟨d, hcall⟩ := call_of_errand herrand
  have hout : outer.raw < tr.now.compilation.tree.size := by
    rcases houter with ⟨-, rfl⟩ | ⟨p, -, hp⟩
    · exact h.callers hcall
    · exact (h.rooted hp).inTree
  have hs : s.raw < tr.now.compilation.tree.size ∧ tr.now.compilation.tree.Beneath s outer := by
    unfold ScopeTree.Suits at hsuits
    split at hsuits
    · exact ⟨hsuits ▸ hout, .inl hsuits⟩
    · exact ⟨by omega, .inr hsuits.2.1⟩
  refine ⟨hdecl, hs.1, ?_⟩
  rcases houter with ⟨htop, -⟩ | ⟨p, hparent, hp⟩
  · exact .inl htop
  · have hprecedes := h.listed.precedes (Compilation.isEvaluated_of_classScope hp) hnew
    exact .inr ⟨p, outer, hparent, hp, hprecedes, hs.2⟩

theorem Founded.record (h : t.Founded tr) (he : t.Permits tr e) (hreset : e ≠ .reset)
    (hassigned : ∀ c s, e ≠ .assigned c s)
    (hcaller : ∀ s ∈ e.caller?, s.raw < tr.now.compilation.tree.size)
    (hdecl : ∀ c s, e = .placed c s →
      ∃ d, t.decl? c = some d ∧ tr.now.compilation.IsTagged d.name) :
    t.Founded (tr.record e) := by
  have hgrows : tr.now.compilation.Grows (tr.record e).now.compilation := grows_after hreset
  constructor
  case ordered =>
    cases e with
    | reset => exact (hreset rfl).elim
    | nested owner outer r =>
      have houter : outer.raw < tr.now.compilation.tree.size := by
        cases owner with
        | none => exact he.2.2
        | some c => exact he.2.2.1
      exact h.ordered.nest r houter
    | namespaceAdded s ns => exact h.ordered.addNamespace s ns
    | bound s x v => exact h.ordered.bind s x v
    | _ => simpa [Trace.record, Moment.after] using h.ordered
  case listed =>
    cases e with
    | reset => exact (hreset rfl).elim
    | placed c s | assigned c s => exact h.listed.register c s
    | tagged name => exact h.listed.tag name
    | _ => exact h.listed
  case callers =>
    intro c s r hcall
    refine Nat.lt_of_lt_of_le ?_ hgrows.size
    cases e with
    | opened a =>
      rcases List.mem_cons.1 hcall with rfl | hcall
      · exact hcaller s rfl
      · exact h.callers hcall
    | closed a => exact h.callers (List.mem_of_mem_tail hcall)
    | _ => exact h.callers hcall
  case rooted =>
    intro c s hs
    by_cases hold : tr.now.compilation.classScope c = some s
    · exact (h.rooted hold).grow hgrows
    -- The scope is new, so that the event has just given it.
    cases e with
    | reset => exact (hreset rfl).elim
    | assigned d u => exact (hassigned d u rfl).elim
    | placed d u =>
      have hnew : ¬ tr.now.compilation.IsEvaluated d := fun hd => by
        simp [Trace.record, Moment.after, Compilation.register_of_isEvaluated d u hd, hold] at hs
      have hscope : (if c = d then some u else tr.now.compilation.classScope c) = some s :=
        (Compilation.register_classScope d c u hnew).symm.trans hs
      by_cases hcd : c = d
      · subst hcd
        obtain rfl : u = s := by simpa using hscope
        exact (h.rooted_of_placed (hdecl c u rfl) he.2.2.2 hnew).grow hgrows
      · exact (hold (by simpa [hcd] using hscope)).elim
    | tagged name => exact (hold (by simpa [Trace.record, Moment.after] using hs)).elim
    | _ => exact (hold hs).elim

theorem Chronicle.founded (h : Chronicle Extends t tr) (hreset : .reset ∉ tr.journal)
    (hassigned : Unassigned tr.journal) (hcallers : CallersInTree tr.journal) : t.Founded tr := by
  induction h with
  | start =>
    refine ⟨ScopeTree.ordered_initial, Compilation.listed_initial, by simp, fun hs => ?_⟩
    exact (Compilation.initial_isEvaluated _ (Compilation.isEvaluated_of_classScope hs)).elim
  | record h he ih =>
    have hreset' := List.not_mem_of_not_mem_cons hreset
    refine (ih hreset' hassigned.tail hcallers.2).record he
      (List.ne_of_not_mem_cons hreset).symm hassigned.ne ?_ ?_
    · rw [← h.ofJournal.1]
      exact hcallers.1
    · rintro c s rfl
      exact h.declared_of_ascends hreset' (.inr he.2.2.1)
  | resume h hp ht names ih =>
    obtain ⟨hordered, hlisted, hcall, hrooted⟩ := ih hreset hassigned hcallers
    exact ⟨hordered, hlisted, hcall, fun hs => (hrooted hs).extend ht⟩

end ClassTable

end ConfigClasses

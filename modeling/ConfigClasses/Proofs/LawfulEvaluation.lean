import ConfigClasses.Proofs.Lawful
import ConfigClasses.Proofs.Registration
import ConfigClasses.Proofs.ScopeOrder

namespace ConfigClasses

open ClassTable

theorem ScopeTree.Suits.lt_size {t : ScopeTree} {outer s : ScopeId} {r : Resource}
    (h : t.Suits outer r s) (ho : outer.raw < t.size) : s.raw < t.size := by
  unfold Suits at h
  split at h
  · exact h ▸ ho
  · omega

theorem ScopeTree.Suits.nest (t : ScopeTree) (outer : ScopeId) {r : Resource} (hr : ¬ r.IsMain) :
    (t.nest outer r).Suits outer r t.next := by
  have hnext : t.next.raw + 1 = t.size + 1 := rfl
  simp [Suits, hr, hnext, parent?_nest_next, find?_nest, Scope.fresh]

@[simp] theorem ScopeTree.resource_addNamespace (t : ScopeTree) (s u : ScopeId) (ns : Name) :
    ((t.addNamespace s ns).find? u).bind Scope.resource = (t.find? u).bind Scope.resource := by
  rw [find?_addNamespace]
  split <;> cases t.find? u <;> simp

namespace Eval

variable {β α : Type} {t : ClassTable β} {stack : List Activity} {caller : ScopeId} {r : Resource}

def Settled (c : ClassId) (tr : Trace) : Prop :=
  tr.now.compilation.IsEvaluated c ∨
    ∃ s, tr.journal.head? = some (.placed c s) ∨ tr.journal.head? = some (.closed (.body c s))

theorem lawful_nest {P : Trace → Prop} {R : ScopeId → Trace → Prop} {owner : Option ClassId}
    {outer : ScopeId}
    (hallows : ∀ tr, tr.now.stack = stack → P tr → outer.raw < tr.now.compilation.tree.size →
      t.Allows tr (.nested owner outer r))
    (hr : ∀ tr, tr.now.stack = stack → P tr →
      R tr.now.compilation.tree.next (tr.record (.nested owner outer r))) :
    Lawful t stack P (nest owner outer r) R := by
  refine (lawful_scopeAt outer).bind fun scope => lawful_compilation.bind fun k => ?_
  have hrecord : Lawful t stack
      (fun tr => (P tr ∧ tr.now.compilation.tree.find? outer = some scope) ∧
        k = tr.now.compilation)
      (record (.nested owner outer r)) (fun _ => R k.tree.next) := by
    apply lawful_record (fun _ => rfl) (by simp)
    · rintro tr hs ⟨⟨hp, ho⟩, -⟩
      exact hallows tr hs hp (ScopeTree.lt_size_of_find? ho)
    · rintro tr hs ⟨⟨hp, -⟩, rfl⟩
      exact hr tr hs hp
  exact hrecord.bind fun _ => lawful_pure _

theorem lawful_nestFor {c : ClassId} {outer : ScopeId} (he : errand stack = some (caller, r))
    (low : Nat) :
    Lawful t (.ascent c :: stack)
      (fun tr => t.Outer tr.now.compilation c caller outer ∧ low ≤ tr.now.compilation.tree.size)
      (nestFor c outer r)
      (fun s tr => t.Outer tr.now.compilation c caller outer ∧
        low ≤ tr.now.compilation.tree.size ∧ tr.now.compilation.tree.Suits outer r s) := by
  unfold nestFor
  split
  · next hr =>
    apply (lawful_pure outer).before
    rintro tr - ⟨ho, hl⟩
    exact ⟨ho, hl, by simp [ScopeTree.Suits, hr]⟩
  · next hr =>
    apply lawful_nest
    · rintro tr hs ⟨ho, -⟩ hlt
      exact ⟨by simp [hs], hlt, hr, caller, by simpa [hs, errand] using he, ho⟩
    · rintro tr hs ⟨ho, hl⟩
      refine ⟨ho, ?_, ScopeTree.Suits.nest _ _ hr⟩
      simpa [Trace.record, Moment.after] using Nat.le_succ_of_le hl

theorem lawful_forM {γ : Type} {inv : Trace → Prop} {f : γ → Eval Unit}
    (h : ∀ x, Lawful t stack inv (f x) fun _ => inv) (xs : List γ) :
    Lawful t stack inv (xs.forM f) fun _ => inv := by
  induction xs with
  | nil => exact lawful_pure (R := fun _ => inv) ()
  | cons x xs ih => exact (h x).bind fun _ => ih

theorem lawful_addNamespaces {c : ClassId} (s : ScopeId) (namespaces : List Name) :
    Lawful t (.ascent c :: stack)
      (fun tr => s.raw < tr.now.compilation.tree.size ∧ t.Belongs tr.now c s)
      (namespaces.forM fun ns => record (.namespaceAdded s ns))
      (fun _ tr => s.raw < tr.now.compilation.tree.size ∧ t.Belongs tr.now c s) := by
  refine lawful_forM (fun ns => lawful_record (fun _ => rfl) (by simp) ?_ ?_) namespaces
  · rintro tr hs ⟨hlt, hb⟩
    exact ⟨hlt, .inr ⟨c, by simp [hs], hb⟩⟩
  · rintro tr - ⟨hlt, caller, r, outer, he, ho, hb⟩
    refine ⟨by simpa [Trace.record, Moment.after] using hlt, caller, r, outer, he, ho, ?_⟩
    simpa [ScopeTree.Suits, Trace.record, Moment.after] using hb

theorem lawful_nestBelow {c p : ClassId} (hp : t.parentOf c = .ok (some p))
    (he : errand stack = some (caller, r)) :
    Lawful t (.ascent c :: stack) (Settled p) (nestBelow c p r)
      (fun s tr => t.Belongs tr.now c s) := by
  apply lawful_compilation.bind
  intro k
  cases hk : k.classScope p with
  | none =>
    apply lawful_raise
    rintro tr hs ⟨hsettled, rfl⟩
    refine ⟨by simp [hs], hp, hk, hsettled.resolve_left ?_⟩
    exact Compilation.not_isEvaluated_iff.2 hk
  | some outer =>
    apply (lawful_scopeAt outer).bind
    intro scope
    refine ((lawful_nestFor he (outer.raw + 1)).before ?_).bind fun s => ?_
    · rintro tr - ⟨⟨-, rfl⟩, hscope⟩
      exact ⟨.inr ⟨p, hp, hk⟩, ScopeTree.lt_size_of_find? hscope⟩
    · refine ((lawful_addNamespaces s scope.namespaces).before ?_).bind fun _ =>
        (lawful_pure s).before fun _ _ h => h.2
      rintro tr hs ⟨ho, hl, hsuits⟩
      exact ⟨hsuits.lt_size hl, caller, r, outer, by simpa [hs, errand] using he, ho, hsuits⟩

variable {run : ScopeId → β → Eval α}

theorem lawful_place {c : ClassId} {d : ClassDecl β} (s : ScopeId) (ha : t.Awaits c stack)
    (hd : t.decl? c = some d)
    (hrun : ∀ b, Lawful t (.body c s :: stack) (fun _ => True) (run s b) fun _ _ => True) :
    Lawful t stack
      (fun tr => tr.journal.head? = some (.closed (.ascent c)) ∧ t.Belongs tr.now c s)
      (do
        record (.placed c s)
        match d.body with
        | none => return none
        | some b => some <$> during (.body c s) (run s b))
      (fun _ => Settled c) := by
  rintro tr rfl hidle ⟨hlast, hbelongs⟩
  have hbody : t.body? c = d.body := by simp [body?, hd]
  refine .record ⟨.inr hidle, ha, hlast, hbelongs⟩ rfl ?_
  cases hb : d.body with
  | none =>
    refine lawful_pure (R := fun _ => Settled c) none _ rfl ?_ (.inr ⟨s, .inl rfl⟩)
    rintro c' s' h
    cases h
    rw [hbody, hb]
  | some b =>
    have hopen : t.Permits (tr.record (.placed c s)) (.opened (.body c s)) :=
      ⟨.inl ⟨c, s, rfl⟩, ha, rfl, by simp [hbody, hb]⟩
    have hidle' : t.NothingDue ((tr.record (.placed c s)).record (.opened (.body c s))) :=
      fun c' s' h => by cases h
    have hduring : Abides t (tr.record (.placed c s)) (during (.body c s) (run s b))
        fun _ => Settled c :=
      .during hopen (hrun b _ rfl hidle' trivial) fun _ _ _ _ => .inr ⟨s, .inr rfl⟩
    simp only [← bind_pure_comp]
    exact hduring.bind fun x => lawful_pure (R := fun _ => Settled c) (some x)

theorem lawful_settle {c : ClassId} {cs : List ClassId} {place : Eval ScopeId}
    (hc : t.Ancestry c cs) (ha : t.Awaits c stack)
    (hrun : ∀ s b, Lawful t (.body c s :: stack) (fun _ => True) (run s b) fun _ _ => True)
    (hplace : Lawful t (.ascent c :: stack) (fun _ => True) place
      fun s tr => t.Belongs tr.now c s) :
    Lawful t stack (fun _ => True) (t.settle run c place) (fun _ => Settled c) := by
  apply lawful_compilation.bind
  intro k
  split
  · next hk =>
    apply (lawful_pure none).before
    rintro tr - ⟨-, rfl⟩
    exact .inl hk
  next hk =>
  apply lawful_now.bind
  intro m
  split
  · next hm =>
    have hraise : Lawful t stack (fun tr => (True ∧ k = tr.now.compilation) ∧ m = tr.now)
        (raise (.reentrant c)) fun (_ : Unit) _ => False := by
      apply lawful_raise
      rintro tr rfl ⟨⟨-, rfl⟩, rfl⟩
      exact ⟨ha, hk, hm⟩
    exact hraise.bind fun _ _ _ _ h => h.elim
  next hm =>
  refine lawful_declAt_bind fun d hd => ?_
  have htag : Lawful t stack (fun tr => (True ∧ k = tr.now.compilation) ∧ m = tr.now)
      (record (.tagged d.name)) fun _ tr => tr.now.compilation.IsTagged d.name ∧
        ¬ tr.now.compilation.IsEvaluated c ∧ isPending c tr.now.stack = false := by
    apply lawful_record (fun _ => rfl) (by simp)
    · rintro tr rfl -
      exact .inr ⟨c, d, ha, hd, rfl⟩
    · rintro tr - ⟨⟨-, rfl⟩, rfl⟩
      refine ⟨?_, ?_, ?_⟩
      · simp [Trace.record, Moment.after]
      · simpa [Trace.record, Moment.after] using hk
      · simpa [Trace.record, Moment.after] using hm
  apply htag.bind
  intro _
  have hascent : Lawful t stack (fun tr => tr.now.compilation.IsTagged d.name ∧
        ¬ tr.now.compilation.IsEvaluated c ∧ isPending c tr.now.stack = false)
      (during (.ascent c) place)
      fun s tr => tr.journal.head? = some (.closed (.ascent c)) ∧ t.Belongs tr.now c s := by
    refine lawful_during ?_ hplace ?_
    · rintro tr rfl ⟨htagged, he, hp⟩
      exact ⟨ha, ⟨cs, hc⟩, ⟨d, hd, htagged⟩, he, hp⟩
    · rintro s tr hs ⟨caller, r, outer, he, ho, hsuits⟩
      refine ⟨rfl, caller, r, outer, ?_, ho, hsuits⟩
      rw [hs] at he
      simpa [Trace.record, Moment.after, hs, errand] using he
  exact hascent.bind fun s => lawful_place s ha hd (hrun s)

theorem lawful_descend {c : ClassId} {above : List ClassId}
    (hrun : ∀ c s b stack, Lawful t (.body c s :: stack) (fun _ => True) (run s b) fun _ _ => True)
    (hc : t.Ancestry c above) (ha : t.Awaits c stack) (he : errand stack = some (caller, r)) :
    Lawful t stack (fun _ => True) (t.descend run caller r above c) (fun _ => Settled c) := by
  induction hc generalizing stack with
  | top hp =>
    refine lawful_settle (.top hp) ha (fun s b => hrun _ s b _) ?_
    refine ((lawful_nestFor he 0).before fun _ _ _ => ?_).after ?_
    · exact ⟨.inl ⟨hp, rfl⟩, Nat.zero_le _⟩
    · rintro s tr hs ⟨ho, -, hsuits⟩
      exact ⟨caller, r, caller, by simpa [hs, errand] using he, ho, hsuits⟩
  | @up c p cs hp hpc ih =>
    refine lawful_settle (.up hp hpc) ha (fun s b => hrun _ s b _) ?_
    have hparent : Lawful t (.ascent c :: stack) (fun _ => True) (t.descend run caller r cs p)
        (fun _ => Settled p) := ih hp he
    exact hparent.bind fun _ => lawful_nestBelow hp he

theorem lawful_evaluate {c : ClassId} {resource : Option Resource}
    (hrun : ∀ c s b stack, Lawful t (.body c s :: stack) (fun _ => True) (run s b) fun _ _ => True)
    (hs : RunsSteps stack) :
    Lawful t stack (fun _ => True) (t.evaluate run c caller resource) fun _ _ => True := by
  refine lawful_during (Q := fun _ _ => True) ?_ ?_ fun _ _ _ _ => trivial
  · rintro tr rfl -
    exact hs
  cases resource with
  | none =>
    refine lawful_declAt_bind fun d _ => lawful_raise ?_
    rintro tr hs -
    exact ⟨caller, by simp [hs]⟩
  | some r =>
    apply lawful_compilation.bind
    intro k
    split
    · exact (lawful_pure _).before fun _ _ _ => trivial
    refine lawful_declAt_bind fun d _ => ?_
    cases hc : t.lineage c with
    | error e =>
      apply lawful_raise
      rintro tr hs -
      exact .inr ⟨c, caller, r, by simp [hs], hc⟩
    | ok above =>
      have hdescend : Lawful t (.call c caller (some r) :: stack) (fun _ => True)
          (t.descend run caller r above c) (fun _ => Settled c) :=
        lawful_descend hrun (lineage_eq_ok.1 hc) rfl rfl
      exact (hdescend.before fun _ _ _ => trivial).after fun _ _ _ _ => trivial

end Eval

end ConfigClasses

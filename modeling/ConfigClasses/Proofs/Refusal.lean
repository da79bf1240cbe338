import ConfigClasses.Proofs.Descent
import ConfigClasses.Proofs.InProgress
import ConfigClasses.Proofs.Reference
import Mathlib.Data.List.TakeWhile

namespace ConfigClasses

open Eval

def Moment.Stops (m : Moment) (a : ClassId) : Prop :=
  m.compilation.IsEvaluated a ∨ isPending a m.stack = true

instance (m : Moment) (a : ClassId) : Decidable (m.Stops a) :=
  inferInstanceAs (Decidable (_ ∨ _))

namespace Trace

/-- A class was refused just now, on the way up of the call on top of `base` and not inside a body. -/
def Refuses (base : List Activity) (tr : Trace) : Prop :=
  ∃ (x : ClassId) (ds : List ClassId),
    tr.journal.head? = some (.raised (.reentrant x)) ∧ tr.now.stack = ds.map .ascent ++ base

structure OnlyTags (new : List Name) (tr tr' : Trace) : Prop where
  names : tr'.now.names = tr.now.names
  stack : tr'.now.stack = tr.now.stack
  kept : kept tr'.journal = kept tr.journal
  started : started tr'.journal = started tr.journal
  tree : tr'.now.compilation.tree = tr.now.compilation.tree
  evaluated : tr'.now.compilation.evaluated = tr.now.compilation.evaluated
  classScope : ∀ c, tr'.now.compilation.classScope c = tr.now.compilation.classScope c
  tags : tr'.now.compilation.tags.toList =
    tr.now.compilation.tags.toList ++ new.filter (¬ tr.now.compilation.IsTagged ·)

theorem onlyTags_of_now {new : List Name} {tr tr' : Trace}
    (hnow : tr'.now = { tr.now with compilation := tr.now.compilation.tagAll new })
    (hnew : new.Nodup) (hkept : kept tr'.journal = kept tr.journal)
    (hstarted : started tr'.journal = started tr.journal) : tr.OnlyTags new tr' := by
  have hk : tr'.now.compilation = tr.now.compilation.tagAll new :=
    congrArg Moment.compilation hnow
  constructor
  case names => rw [hnow]
  case stack => rw [hnow]
  case kept => exact hkept
  case started => exact hstarted
  case tree => rw [hk, Compilation.tagAll_tree]
  case evaluated => rw [hk, Compilation.tagAll_evaluated]
  case classScope => exact fun a => by rw [hk, Compilation.tagAll_classScope]
  case tags =>
    rw [hk]
    exact Compilation.tags_tagAll hnew

theorem not_refuses_of_head {base : List Activity} {tr : Trace} {e : Event}
    (hhead : tr.journal.head? = some e) (he : ∀ x, e ≠ .raised (.reentrant x)) :
    ¬ tr.Refuses base := by
  rintro ⟨x, _, hx, _⟩
  exact he x (Option.some.inj (hhead.symm.trans hx))

theorem not_refuses_of_body {base : List Activity} {tr : Trace} {c : ClassId} {s : ScopeId}
    {ds : List ClassId} (h : .body c s :: (ds.map .ascent ++ base) <:+ tr.now.stack) :
    ¬ tr.Refuses base := by
  rintro ⟨-, ds', -, hstack⟩
  obtain ⟨inner, hinner⟩ := h
  have hsplit : inner ++ .body c s :: ds.map .ascent = ds'.map .ascent := by
    rw [← List.append_left_inj base, ← hstack, ← hinner]
    simp
  have hmem : Activity.body c s ∈ ds'.map .ascent := hsplit ▸ by simp
  obtain ⟨d, -, hd⟩ := List.mem_map.1 hmem
  cases hd

end Trace

namespace ClassTable

variable {β α : Type} {t : ClassTable β} {run : ScopeId → β → Eval α} {tr : Trace} {c : ClassId}
  {caller : ScopeId} {r : Resource} {above before : List ClassId}

theorem Ancestry.clear (h : t.Ancestry c above) (ht : empty.GrowsTo t) (hc : (t.decl? c).isSome)
    (hbefore : before <+: c :: above) (hgo : ∀ a ∈ before, ¬ tr.now.Stops a) : t.Clear tr before where
  declared a ha := by
    have hall : ∀ a ∈ c :: above, (t.decl? a).isSome := List.forall_mem_cons.2 ⟨hc, h.declared ht⟩
    exact hall a (hbefore.subset ha)
  nodup := h.nodup.sublist hbefore.sublist
  unevaluated a ha hevaluated := hgo a ha (.inl hevaluated)
  idle a ha := Bool.eq_false_iff.2 fun hpending => hgo a ha (.inr hpending)

theorem descend_of_pending {q : ClassId} {rest : List ClassId} (h : c :: above = before ++ q :: rest)
    (hclear : t.Clear tr before) (hq : ¬ tr.now.compilation.IsEvaluated q)
    (hpending : isPending q tr.now.stack = true) :
    t.descend run caller r above c tr = .error (.failure (.evaluation (.reentrant q)))
      (((t.ascend tr before).record (.raised (.reentrant q))).withdraw before) := by
  apply descend_error h hclear
  rw [descend_eq]
  apply settle_of_pending
  · simpa [ascend_now] using hq
  · rw [ascend_now]
    exact isPending_ascents.2 (.inr hpending)

theorem descend_not_refuses (hrun : ∀ s b, Contained (run s b)) {base : List Activity}
    {ds rest : List ClassId} (h : c :: above = before ++ rest) (hclear : t.Clear tr before)
    (hrest : ∀ q ∈ rest.head?, tr.now.compilation.IsEvaluated q)
    (hstack : tr.now.stack = ds.map .ascent ++ base) :
    (t.descend run caller r above c).Along tr fun tr' => ¬ tr'.Refuses base := by
  induction before generalizing c above tr ds with
  | nil =>
    obtain rfl : c :: above = rest := h
    rw [descend_eq]
    exact along_of_silent (final_of_ok (settle_of_isEvaluated (hrest c rfl)))
  | cons b before ih =>
    obtain ⟨rfl, habove⟩ := List.cons.inj h
    have hplace := contained_placing hrun (t := t) caller r c above
    have hentered : (t.enter tr c).now.stack = (c :: ds).map .ascent ++ base := by
      rw [List.map_cons, List.cons_append, ← hstack]
      rfl
    have hrest' : ∀ q ∈ rest.head?, (t.enter tr c).now.compilation.IsEvaluated q := by
      simpa [enter, Trace.record, Moment.after] using hrest
    -- Only the parent is left to the induction. The making of the scope refuses nothing, and what is
    -- called for inside the body is not on the way up.
    rw [along_congr (descend_of_clear hclear.head), along_settling hrun hplace]
    refine ⟨Trace.not_refuses_of_head rfl (by simp), Trace.not_refuses_of_head rfl (by simp), ?_,
      Trace.not_refuses_of_head rfl (by simp), fun s tr' hs => ?_⟩
    · have hmaking (tr' : Trace) (e : Event) (hhead : tr'.journal.head? = some e)
          (he : e.isOfMaking = true) : ¬ tr'.Refuses base := by
        refine Trace.not_refuses_of_head hhead ?_
        rintro x rfl
        cases he
      cases above with
      | nil => exact along_nestFor hmaking c caller r
      | cons p above =>
        have hbelow := (contained_congruence t).nestBelow c p r
        exact (along_bind (contained_descend hrun caller r above p).forward
          fun _ => hbelow.forward).2 ⟨ih habove hclear.tail hrest' hentered,
            fun _ tr' _ => along_nestBelow hmaking c p r⟩
    · have hstack' : (tr'.record (.closed (.ascent c))).now.stack = ds.map .ascent ++ base := by
        have hfinal := hplace.stack (t.enter tr c)
        rw [final_of_ok hs] at hfinal
        rw [← hstack]
        exact congrArg List.tail hfinal
      refine (along_install hrun).2 ⟨Trace.not_refuses_of_head rfl (by simp), fun b _ => ?_⟩
      refine (along_during _ (hrun s b).forward).2 ⟨Trace.not_refuses_of_head rfl (by simp), ?_,
        Trace.not_refuses_of_head rfl (by simp)⟩
      refine ((hrun s b).within _).imp fun tr'' hwithin => ?_
      have hinside : .body c s :: (ds.map .ascent ++ base) <:+ tr''.now.stack := hstack' ▸ hwithin
      exact Trace.not_refuses_of_body hinside

theorem evaluate_refused (run : ScopeId → β → Eval α) {q : ClassId} {rest : List ClassId}
    (hc : (t.decl? c).isSome)
    (habove : t.lineage c = .ok above) (h : c :: above = before ++ q :: rest)
    (hclear : t.Clear (tr.record (.opened (.call c caller (some r)))) before)
    (hq : ¬ tr.now.compilation.IsEvaluated q) (hpending : isPending q tr.now.stack = true) :
    ∃ tr', t.evaluate run c caller (some r) tr = .error (.failure (.evaluation (.reentrant q))) tr' ∧
      tr'.now = { tr.now with compilation := tr.now.compilation.tagAll (before.map t.nameOf) } ∧
      started tr'.journal = started tr.journal := by
  let called := tr.record (.opened (.call c caller (some r)))
  let refused := ((t.ascend called before).record (.raised (.reentrant q))).withdraw before
  have hback : refused.now =
      { called.now with compilation := tr.now.compilation.tagAll (before.map t.nameOf) } :=
    t.withdraw_ascend_now rfl
  refine ⟨refused.record (.closed (.call c caller (some r))), ?_, ?_, ?_⟩
  · rw [evaluate_declared hc habove, Eval.during, descend_of_pending h hclear hq hpending]
  · simp only [Trace.record, Moment.after, hback]
    rfl
  · exact (Trace.started_withdraw _ before).trans (t.started_ascend called before)

end ClassTable

/-- The first class on the way up that is evaluated or pending decides. If it is not evaluated, it is
refused, and nothing changes but the tags of the classes before it. Otherwise no class is refused on
the way up of this call. -/
theorem first_stop_decides (i : Instant) (depth : Nat) {c : ClassId} {above : List ClassId}
    (hc : (i.before.registry.table.decl? c).isSome)
    (habove : i.before.registry.table.lineage c = .ok above) (caller : ScopeId) (r : Resource) :
    let t := i.before.registry.table
    let act := t.evaluate (t.runBody depth) c caller (some r)
    let first := (c :: above).find? (i.moment.Stops ·)
    (∀ q, first = some q → ¬ i.moment.compilation.IsEvaluated q →
      ∃ tr', act i.trace = .error (.failure (.evaluation (.reentrant q))) tr' ∧
        (EvaluationError.reentrant q).message t tr'.now.names =
          "class '" ++ t.display i.moment.names q ++
            "' was included while evaluating its own parent classes" ∧
        i.trace.OnlyTags (((c :: above).takeWhile (¬ i.moment.Stops ·)).map t.nameOf) tr') ∧
      ((∀ q, first = some q → i.moment.compilation.IsEvaluated q) →
        act.Along i.trace fun tr' =>
          ¬ tr'.Refuses (.call c caller (some r) :: i.moment.stack)) := by
  intro t act first
  have ht : ClassTable.empty.GrowsTo t := Session.empty_growsTo_tableAt i.done i.before.current
  -- The way up is open as far as the first stop, or to its end.
  let called := i.trace.record (.opened (.call c caller (some r)))
  let before := (c :: above).takeWhile (¬ i.moment.Stops ·)
  let rest := (c :: above).dropWhile (¬ i.moment.Stops ·)
  have hsplit : c :: above = before ++ rest := List.takeWhile_append_dropWhile.symm
  have hfirst : first = rest.head? := by
    simp only [first, rest, decide_not]
    exact List.find?_eq_head?_dropWhile_not _ _
  have hgo : ∀ a ∈ before, ¬ i.moment.Stops a :=
    fun a ha => by simpa using List.mem_takeWhile_imp ha
  have hclear : t.Clear called before :=
    (ClassTable.lineage_eq_ok.1 habove).clear ht hc ⟨rest, hsplit.symm⟩ hgo
  constructor
  · intro q hq hunevaluated
    obtain ⟨rest', hrest⟩ := List.head?_eq_some_iff.1 (hfirst.symm.trans hq)
    have hstops : i.moment.Stops q := by simpa using List.find?_some hq
    have hpending : isPending q i.moment.stack = true := hstops.resolve_left hunevaluated
    obtain ⟨tr', hrefused, hnow, hstarted⟩ := ClassTable.evaluate_refused (t.runBody depth)
      hc habove (hrest ▸ hsplit) hclear hunevaluated hpending
    have hrestores := restores_of_keeps (faithful_invariance.call t depth c caller (some r))
      i.trace i.chronicle_trace.faithful
    rw [final_of_error hrefused] at hrestores
    refine ⟨tr', hrefused, by rw [hnow]; rfl, ?_⟩
    have hnames := ht.indexed.nodup_names hclear.declared hclear.nodup
    exact Trace.onlyTags_of_now hnow hnames hrestores.2 hstarted
  · intro hevaluated
    have hrun := contained_runBody t depth
    have hstack : called.now.stack =
        ([] : List ClassId).map .ascent ++ .call c caller (some r) :: i.moment.stack := rfl
    have hact : act = during (.call c caller (some r))
        (t.descend (t.runBody depth) caller r above c) :=
      ClassTable.evaluate_declared hc habove caller r
    rw [hact, along_during _ (ClassTable.contained_descend hrun caller r above c).forward]
    exact ⟨Trace.not_refuses_of_head rfl (by simp),
      ClassTable.descend_not_refuses hrun hsplit hclear (fun q hq => hevaluated q (hfirst.trans hq))
        hstack, Trace.not_refuses_of_head rfl (by simp)⟩

def bodyAbovePending : Instant :=
  .upTo
    [.define "base" none (some []), .define "web" (some "base") none,
      .define "shop" (some "web") none, .define "mall" (some "shop") none,
      .define "kiosk" (some "mall") none, .define "den" (some "base") none]
    (.step (.evaluate (.named "shop") .top (.titled (.number ⟨0⟩) (.number ⟨0⟩)))) 12

theorem bodyAbovePending_refuses :
    let i := bodyAbovePending
    let t := i.before.registry.table
    let r : Resource := ⟨⟨0⟩, .named ⟨0⟩⟩
    i.moment.stack.head? = some (.body ⟨0⟩ ⟨1⟩) ∧
      (∃ tr', t.evaluate (t.runBody 2) ⟨4⟩ ⟨1⟩ (some r) i.trace =
          .error (.failure (.evaluation (.reentrant ⟨2⟩))) tr' ∧
        i.trace.OnlyTags [t.nameOf ⟨4⟩, t.nameOf ⟨3⟩] tr') ∧
      (t.evaluate (t.runBody 2) ⟨5⟩ ⟨1⟩ (some r)).Along i.trace fun tr' =>
        ¬ tr'.Refuses (.call ⟨5⟩ ⟨1⟩ (some r) :: i.moment.stack) := by
  intro i t r
  have hfirst : (List.find? (i.moment.Stops ·) [⟨4⟩, ⟨3⟩, ⟨2⟩, ⟨1⟩, ⟨0⟩]) = some ⟨2⟩ := by
    decide +kernel
  have hbefore : ([⟨4⟩, ⟨3⟩, ⟨2⟩, ⟨1⟩, ⟨0⟩].takeWhile (¬ i.moment.Stops ·)) = [⟨4⟩, ⟨3⟩] := by
    decide +kernel
  have hrefused := (first_stop_decides i 2 (by decide +kernel) (by decide +kernel) ⟨1⟩ r).1 ⟨2⟩ hfirst
    (by decide +kernel)
  obtain ⟨tr', hact, -, htags⟩ := hrefused
  rw [hbefore] at htags
  have hden : t.lineage ⟨5⟩ = .ok [⟨0⟩] := by decide +kernel
  have hfound : List.find? (i.moment.Stops ·) [⟨5⟩, ⟨0⟩] = some ⟨0⟩ := by decide +kernel
  refine ⟨by decide +kernel, ⟨tr', hact, htags⟩, ?_⟩
  refine (first_stop_decides i 2 (by decide +kernel) hden ⟨1⟩ r).2 ?_
  rw [hfound]
  rintro q ⟨⟩
  decide +kernel

end ConfigClasses

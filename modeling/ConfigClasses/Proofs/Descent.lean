import ConfigClasses.Proofs.ScopeMaking
import ConfigClasses.Proofs.Starts
import ConfigClasses.Proofs.TableGrowth

namespace ConfigClasses

open Eval

def Trace.withdraw (tr : Trace) (cs : List ClassId) : Trace :=
  cs.foldr (fun c tr => tr.record (.closed (.ascent c))) tr

theorem Trace.withdraw_now (tr : Trace) (cs : List ClassId) :
    (tr.withdraw cs).now = { tr.now with stack := tr.now.stack.drop cs.length } := by
  induction cs with
  | nil => rfl
  | cons c cs ih =>
    have hnow : (tr.withdraw (c :: cs)).now =
        { (tr.withdraw cs).now with stack := (tr.withdraw cs).now.stack.tail } := rfl
    rw [hnow, ih, List.tail_drop, List.length_cons]

theorem Trace.started_withdraw (tr : Trace) (cs : List ClassId) :
    started (tr.withdraw cs).journal = started tr.journal := by
  induction cs with
  | nil => rfl
  | cons c cs ih => exact ih

theorem started_follow {tr : Trace} {es : List Event}
    (h : ∀ e ∈ es, ∀ c s, e ≠ .opened (.body c s)) :
    started (tr.follow es).journal = started tr.journal := by
  induction es generalizing tr with
  | nil => rfl
  | cons e es ih =>
    obtain ⟨he, hes⟩ := List.forall_mem_cons.1 h
    exact (ih hes).trans (started_cons he tr.journal)

theorem isPending_ascents {cs : List ClassId} {stack : List Activity} {a : ClassId} :
    isPending a (cs.map .ascent ++ stack) = true ↔ a ∈ cs ∨ isPending a stack = true := by
  induction cs with
  | nil => simp
  | cons c cs ih => simp [isPending, ih, or_assoc, eq_comm (a := c)]

namespace ClassTable

variable {β α : Type} (t : ClassTable β)

def nameOf (c : ClassId) : Name := (t.decl? c).elim .empty ClassDecl.name

def enter (tr : Trace) (c : ClassId) : Trace :=
  (tr.record (.tagged (t.nameOf c))).record (.opened (.ascent c))

def ascend (tr : Trace) (cs : List ClassId) : Trace := cs.foldl t.enter tr

theorem ascend_concat (tr : Trace) (cs : List ClassId) (c : ClassId) :
    t.ascend tr (cs ++ [c]) = t.enter (t.ascend tr cs) c := List.foldl_append

theorem ascend_now (tr : Trace) (cs : List ClassId) :
    (t.ascend tr cs).now = ⟨tr.now.names, tr.now.compilation.tagAll (cs.map t.nameOf),
      cs.reverse.map .ascent ++ tr.now.stack⟩ := by
  induction cs generalizing tr with
  | nil => rfl
  | cons c cs ih =>
    refine (ih (t.enter tr c)).trans ?_
    simp [enter, Trace.record, Moment.after, Compilation.tagAll]

theorem reaches_ascend {t : ClassTable β} {start tr : Trace} (h : start.Reaches tr)
    (cs : List ClassId) : start.Reaches (t.ascend tr cs) := by
  induction cs generalizing tr with
  | nil => exact h
  | cons c cs ih => exact ih (h.follow [_, _])

theorem started_ascend (tr : Trace) (cs : List ClassId) :
    started (t.ascend tr cs).journal = started tr.journal := by
  induction cs generalizing tr with
  | nil => rfl
  | cons c cs ih => exact ih (t.enter tr c)

theorem withdraw_ascend_now {tr tr' : Trace} {cs : List ClassId}
    (h : tr'.now = (t.ascend tr cs).now) :
    (tr'.withdraw cs).now =
      { tr.now with compilation := tr.now.compilation.tagAll (cs.map t.nameOf) } := by
  rw [Trace.withdraw_now, h, ascend_now]
  simp

theorem Indexed.nodup_names {t : ClassTable β} (h : t.Indexed) {cs : List ClassId}
    (hdecl : ∀ a ∈ cs, (t.decl? a).isSome) (hcs : cs.Nodup) : (cs.map t.nameOf).Nodup := by
  refine hcs.map_on fun a ha b hb hname => ?_
  obtain ⟨d, hd⟩ := Option.isSome_iff_exists.1 (hdecl a ha)
  obtain ⟨d', hd'⟩ := Option.isSome_iff_exists.1 (hdecl b hb)
  exact h.same_class hd hd' (by simpa [nameOf, hd, hd'] using hname)

structure Clear (tr : Trace) (cs : List ClassId) : Prop where
  declared : ∀ a ∈ cs, (t.decl? a).isSome
  nodup : cs.Nodup
  unevaluated : ∀ a ∈ cs, ¬ tr.now.compilation.IsEvaluated a
  idle : ∀ a ∈ cs, isPending a tr.now.stack = false

variable {t} {tr : Trace} {c : ClassId} {cs : List ClassId}

namespace Clear

theorem head (h : t.Clear tr (c :: cs)) : t.Clear tr [c] where
  declared := by simpa using h.declared c List.mem_cons_self
  nodup := List.nodup_singleton c
  unevaluated := by simpa using h.unevaluated c List.mem_cons_self
  idle := by simpa using h.idle c List.mem_cons_self

theorem tail (h : t.Clear tr (c :: cs)) : t.Clear (t.enter tr c) cs where
  declared a ha := h.declared a (List.mem_cons_of_mem c ha)
  nodup := (List.nodup_cons.1 h.nodup).2
  unevaluated a ha := by
    have hold := h.unevaluated a (List.mem_cons_of_mem c ha)
    simpa [enter, Trace.record, Moment.after] using hold
  idle a ha := by
    have hne : c ≠ a := fun heq => (List.nodup_cons.1 h.nodup).1 (heq ▸ ha)
    have hold := h.idle a (List.mem_cons_of_mem c ha)
    simpa [enter, Trace.record, Moment.after, isPending, hne] using hold

theorem append {ds : List ClassId} (h : t.Clear tr (cs ++ ds)) :
    t.Clear tr cs ∧ t.Clear (t.ascend tr cs) ds := by
  induction cs generalizing tr with
  | nil => exact ⟨⟨by simp, List.nodup_nil, by simp, by simp⟩, h⟩
  | cons c cs ih =>
    refine ⟨?_, (ih h.tail).2⟩
    have hsub : c :: cs ⊆ c :: cs ++ ds := List.subset_append_left _ _
    exact ⟨fun a ha => h.declared a (hsub ha), (List.nodup_append.1 h.nodup).1,
      fun a ha => h.unevaluated a (hsub ha), fun a ha => h.idle a (hsub ha)⟩

end Clear

section Settle

variable (t) (run : ScopeId → β → Eval α)

def launch (c : ClassId) (s : ScopeId) : Eval (Option α) :=
  match t.body? c with
  | none => return none
  | some b => some <$> during (.body c s) (run s b)

def install (c : ClassId) (s : ScopeId) : Eval (Option α) := do
  record (.placed c s)
  t.launch run c s

def settling (c : ClassId) (place : Eval ScopeId) : Eval (Option α) := do
  record (.tagged (t.nameOf c))
  let s ← during (.ascent c) place
  t.install run c s

def placing (caller : ScopeId) (r : Resource) (c : ClassId) : List ClassId → Eval ScopeId
  | [] => nestFor c caller r
  | p :: above => do
    let _ ← t.descend run caller r above p
    nestBelow c p r

theorem descend_eq (caller : ScopeId) (r : Resource) (above : List ClassId) (c : ClassId) :
    t.descend run caller r above c = t.settle run c (t.placing run caller r c above) := by
  cases above <;> rfl

variable {t run} {place : Eval ScopeId}

theorem settle_of_isEvaluated (h : tr.now.compilation.IsEvaluated c) :
    t.settle run c place tr = .ok none tr := by
  simp [settle, compilation, bind, EStateM.bind, h, pure, EStateM.pure]

theorem settle_of_pending (h : ¬ tr.now.compilation.IsEvaluated c)
    (hc : isPending c tr.now.stack = true) :
    t.settle run c place tr =
      .error (.failure (.evaluation (.reentrant c))) (tr.record (.raised (.reentrant c))) := by
  simp only [settle, compilation, now, bind, EStateM.bind, h, hc, if_false, if_true]
  rfl

theorem settle_of_undeclared (h : ¬ tr.now.compilation.IsEvaluated c)
    (hc : isPending c tr.now.stack = false) (hd : t.decl? c = none) :
    t.settle run c place tr = .error .stray tr := by
  simp only [settle, compilation, now, bind, EStateM.bind, h, hc, if_false, declAt, hd,
    Bool.false_eq_true]
  rfl

theorem settle_of_clear (h : t.Clear tr [c]) :
    t.settle run c place tr = t.settling run c place tr := by
  obtain ⟨d, hd⟩ := Option.isSome_iff_exists.1 (h.declared c List.mem_cons_self)
  have hc := h.unevaluated c List.mem_cons_self
  have hidle := h.idle c List.mem_cons_self
  simp only [settle, compilation, now, bind, EStateM.bind, hc, hidle, if_false, declAt, hd,
    Bool.false_eq_true, settling, install, launch, nameOf, body?, Option.elim_some, Option.bind_some]
  rfl

theorem settle_cases (t : ClassTable β) (run : ScopeId → β → Eval α) (place : Eval ScopeId)
    (tr : Trace) (c : ClassId) :
    (tr.now.compilation.IsEvaluated c ∧ t.settle run c place tr = .ok none tr) ∨
      (isPending c tr.now.stack = true ∧ t.settle run c place tr =
        .error (.failure (.evaluation (.reentrant c))) (tr.record (.raised (.reentrant c)))) ∨
      t.settle run c place tr = .error .stray tr ∨
      (t.Clear tr [c] ∧ t.settle run c place tr = t.settling run c place tr) := by
  by_cases hc : tr.now.compilation.IsEvaluated c
  · exact .inl ⟨hc, settle_of_isEvaluated hc⟩
  cases hpending : isPending c tr.now.stack with
  | true => exact .inr (.inl ⟨rfl, settle_of_pending hc hpending⟩)
  | false =>
    cases hd : t.decl? c with
    | none => exact .inr (.inr (.inl (settle_of_undeclared hc hpending hd)))
    | some d =>
      have hclear : t.Clear tr [c] :=
        ⟨by simp [hd], by simp, by simpa using hc, by simpa using hpending⟩
      exact .inr (.inr (.inr ⟨hclear, settle_of_clear hclear⟩))

end Settle

section Run

variable {run : ScopeId → β → Eval α} {place : Eval ScopeId} {P : Trace → Prop} {s : ScopeId}

theorem settling_of_ok {tr' : Trace} (h : place (t.enter tr c) = .ok s tr') :
    t.settling run c place tr = t.install run c s (tr'.record (.closed (.ascent c))) := by
  have hduring : during (.ascent c) place (tr.record (.tagged (t.nameOf c))) =
      .ok s (tr'.record (.closed (.ascent c))) := by
    simp only [Eval.during]
    rw [← enter, h]
  exact bind_of_ok hduring

theorem settling_of_error {e : Halt} {tr' : Trace} (h : place (t.enter tr c) = .error e tr') :
    t.settling run c place tr = .error e (tr'.record (.closed (.ascent c))) := by
  have hduring : during (.ascent c) place (tr.record (.tagged (t.nameOf c))) =
      .error e (tr'.record (.closed (.ascent c))) := by
    simp only [Eval.during]
    rw [← enter, h]
  have hstop : (during (.ascent c) place >>= t.install run c) (tr.record (.tagged (t.nameOf c))) =
      .error e (tr'.record (.closed (.ascent c))) := bind_of_error hduring
  exact hstop

theorem descend_error {caller : ScopeId} {r : Resource} {before above rest : List ClassId}
    {q : ClassId} {e : Halt} {tr' : Trace} (h : c :: above = before ++ q :: rest)
    (hclear : t.Clear tr before)
    (hq : t.descend run caller r rest q (t.ascend tr before) = .error e tr') :
    t.descend run caller r above c tr = .error e (tr'.withdraw before) := by
  induction before generalizing c above tr with
  | nil =>
    cases h
    exact hq
  | cons b before ih =>
    obtain ⟨rfl, habove⟩ := List.cons.inj h
    cases above with
    | nil => simp at habove
    | cons p above =>
      have hparent := ih habove hclear.tail hq
      rw [descend_eq, settle_of_clear hclear.head]
      exact settling_of_error (bind_of_error hparent)

variable (hrun : ∀ s b, Contained (run s b))
include hrun

theorem contained_launch (c : ClassId) (s : ScopeId) : Contained (t.launch run c s) := by
  unfold launch
  cases t.body? c with
  | none => exact contained_of_silent fun _ => rfl
  | some b => exact ((hrun s b).during _).map some

theorem contained_install (c : ClassId) (s : ScopeId) : Contained (t.install run c s) :=
  (contained_record fun _ => rfl).bind fun _ => contained_launch hrun c s

theorem contained_descend (caller : ScopeId) (r : Resource) (above : List ClassId) (c : ClassId) :
    Contained (t.descend run caller r above c) :=
  (contained_congruence t).descend run (fun _ s b => (hrun s b).during _) caller r above c

theorem contained_placing (caller : ScopeId) (r : Resource) (c : ClassId) (above : List ClassId) :
    Contained (t.placing run caller r c above) := by
  have h := contained_congruence t
  cases above with
  | nil => exact h.nestFor c caller r
  | cons p above => exact (contained_descend hrun caller r above p).bind fun _ => h.nestBelow c p r

theorem along_install :
    (t.install run c s).Along tr P ↔ P (tr.record (.placed c s)) ∧
      ∀ b, t.body? c = some b →
        (during (.body c s) (run s b)).Along (tr.record (.placed c s)) P := by
  rw [install, along_bind (forward_record _) fun _ => (contained_launch hrun c s).forward,
    along_record]
  refine and_congr_right fun _ => ?_
  have hplaced : Eval.record (.placed c s) tr = .ok () (tr.record (.placed c s)) := rfl
  simp only [hplaced, EStateM.Result.ok.injEq, true_and, forall_eq', forall_const, launch]
  cases t.body? c with
  | none => simpa using along_of_silent rfl
  | some b => simp [along_map]

theorem along_settling (hplace : Contained place) :
    (t.settling run c place).Along tr P ↔
      P (tr.record (.tagged (t.nameOf c))) ∧ P (t.enter tr c) ∧ place.Along (t.enter tr c) P ∧
        P ((place.final (t.enter tr c)).record (.closed (.ascent c))) ∧
        ∀ s tr', place (t.enter tr c) = .ok s tr' →
          (t.install run c s).Along (tr'.record (.closed (.ascent c))) P := by
  have hinstall := contained_install (t := t) hrun c
  have hascent := hplace.during (.ascent c)
  rw [settling, along_bind (forward_record _) fun _ => (hascent.bind hinstall).forward, along_record]
  refine and_congr_right fun _ => ?_
  have htagged : Eval.record (.tagged (t.nameOf c)) tr =
      .ok () (tr.record (.tagged (t.nameOf c))) := rfl
  simp only [htagged, EStateM.Result.ok.injEq, true_and, forall_eq', forall_const]
  rw [along_bind hascent.forward fun s => (hinstall s).forward, along_during _ hplace.forward]
  simp only [enter, and_assoc, during_eq_ok]
  refine and_congr_right fun _ => and_congr_right fun _ => and_congr_right fun _ => ?_
  constructor
  · exact fun h s tr' hs => h s _ ⟨tr', hs, rfl⟩
  · rintro h s _ ⟨tr', hs, rfl⟩
    exact h s tr' hs

end Run

section Way

variable {run : ScopeId → β → Eval α} {caller : ScopeId} {r : Resource} {above : List ClassId}
  {P : Trace → Prop} {s : ScopeId} {tr' : Trace}

theorem descend_of_clear (hclear : t.Clear tr [c]) : t.descend run caller r above c tr =
    t.settling run c (t.placing run caller r c above) tr := by
  rw [descend_eq, settle_of_clear hclear]

theorem descend_of_placing (hclear : t.Clear tr [c])
    (hplace : t.placing run caller r c above (t.enter tr c) = .ok s tr') :
    t.descend run caller r above c tr =
      t.launch run c s (tr'.follow [.closed (.ascent c), .placed c s]) := by
  rw [descend_of_clear hclear, settling_of_ok hplace]
  rfl

variable (hrun : ∀ s b, Contained (run s b))
include hrun

theorem along_parent {p : ClassId} (hclear : t.Clear tr [c])
    (h : (t.descend run caller r (p :: above) c).Along tr P) :
    (t.descend run caller r above p).Along (t.enter tr c) P := by
  have hplace := contained_placing hrun (t := t) caller r c (p :: above)
  have hparent := contained_descend hrun (t := t) caller r above p
  have hbelow := (contained_congruence t).nestBelow c p r
  rw [along_congr (descend_of_clear hclear), along_settling hrun hplace] at h
  exact ((along_bind hparent.forward fun _ => hbelow.forward).1 h.2.2.1).1

theorem along_body (hclear : t.Clear tr [c]) (h : (t.descend run caller r above c).Along tr P)
    (hplace : t.placing run caller r c above (t.enter tr c) = .ok s tr') {b : β}
    (hb : t.body? c = some b) :
    P (tr'.follow [.closed (.ascent c), .placed c s, .opened (.body c s)]) := by
  rw [along_congr (descend_of_clear hclear),
    along_settling hrun (contained_placing hrun caller r c above)] at h
  have hinstall := (along_install hrun).1 (h.2.2.2.2 s tr' hplace)
  exact ((along_during _ (hrun s b).forward).1 (hinstall.2 b hb)).1

theorem along_ascend {before rest : List ClassId} {q : ClassId}
    (hsplit : c :: above = before ++ q :: rest) (hclear : t.Clear tr before)
    (h : (t.descend run caller r above c).Along tr P) :
    (t.descend run caller r rest q).Along (t.ascend tr before) P := by
  induction before generalizing c above tr with
  | nil =>
    cases hsplit
    exact h
  | cons b before ih =>
    obtain ⟨rfl, habove⟩ := List.cons.inj hsplit
    cases above with
    | nil => simp at habove
    | cons p above => exact ih habove hclear.tail (along_parent hrun hclear.head h)

end Way

end ClassTable

end ConfigClasses

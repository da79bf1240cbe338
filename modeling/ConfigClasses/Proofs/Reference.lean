import ConfigClasses.Proofs.Balance
import ConfigClasses.Proofs.Instant

namespace ConfigClasses

open Eval

namespace ClassTable

section

variable {β : Type} {t : ClassTable β}

theorem lineage_parent {c p : ClassId} {above : List ClassId} (h : t.lineage c = .ok above)
    (hp : t.parentOf c = .ok (some p)) : ∃ rest, above = p :: rest ∧ t.lineage p = .ok rest := by
  cases lineage_eq_ok.1 h with
  | top hc => cases hc.symm.trans hp
  | up hc hrest =>
    obtain rfl : _ = p := Option.some.inj (Except.ok.inj (hc.symm.trans hp))
    exact ⟨_, rfl, lineage_eq_ok.2 hrest⟩

def height (t : ClassTable β) (c : ClassId) : Nat :=
  match t.lineage c with
  | .ok above => above.length
  | .error _ => 0

theorem height_parent_lt {c p : ClassId} {above : List ClassId} (h : t.lineage c = .ok above)
    (hp : t.parentOf c = .ok (some p)) : t.height p < t.height c := by
  obtain ⟨rest, rfl, hrest⟩ := lineage_parent h hp
  simp [height, h, hrest]

end

section

variable {β α : Type} (t : ClassTable β) (run : ScopeId → β → Eval α)

/-- Evaluates a class as the specification of the evaluator says: by an evaluation of its parent
for the same caller and the same resource. -/
def reference (c : ClassId) (caller : ScopeId) (resource : Option Resource) : Eval (Option α) :=
  during (.call c caller resource) do
    match resource with
    | none =>
      let _ ← t.declAt c
      raise (.missingResource c)
    | some r =>
      if (← compilation).IsEvaluated c then return none
      let d ← t.declAt c
      match _ : t.lineage c with
      | .error e => raise (.table e)
      | .ok _ =>
        if isPending c (← now).stack then raise (.reentrant c)
        record (.tagged d.name)
        let s ← during (.ascent c) do
          match _ : t.parentOf c with
          | .ok (some p) =>
            let _ ← reference p caller (some r)
            nestBelow c p r
          | _ => nestFor c caller r
        record (.placed c s)
        match d.body with
        | none => return none
        | some b => some <$> during (.body c s) (run s b)
termination_by t.height c
decreasing_by exact height_parent_lt ‹_› ‹_›

def placeByReference (c : ClassId) (caller : ScopeId) (r : Resource) : Eval ScopeId :=
  match t.parentOf c with
  | .ok (some p) => do
    let _ ← t.reference run p caller (some r)
    nestBelow c p r
  | _ => nestFor c caller r

end

def runByReference (t : ClassTable Body) : Nat → ScopeId → Body → Eval Output
  | 0 => fun _ _ => throw .exhausted
  | depth + 1 => fun s body => return (s, ← execAll t (t.reference (t.runByReference depth)) s body)

end ClassTable

theorem Moment.Alike.after {m m' : Moment} (h : m.Alike m') {e : Event}
    (he : ∀ m : Moment, (m.after e).stack = m.stack) : (m.after e).Alike (m'.after e) := by
  constructor
  · cases e <;> simp [Moment.after, h.names]
  · cases e <;> simp [Moment.after, h.compilation]
  · simpa only [he] using h.pending

theorem Moment.Alike.opened {m m' : Moment} (h : m.Alike m') (a : Activity) :
    (m.after (.opened a)).Alike (m'.after (.opened a)) := by
  refine ⟨h.names, h.compilation, fun c => ?_⟩
  cases a <;> simp [Moment.after, isPending, h.pending c]

structure Trace.Alike (tr tr' : Trace) : Prop where
  now : tr.now.Alike tr'.now
  starts : startsOf tr.journal = startsOf tr'.journal

namespace Trace.Alike

variable {tr tr' : Trace}

theorem refl (tr : Trace) : tr.Alike tr := ⟨.refl _, rfl⟩

theorem startsOf_cons (e : Event) (h : startsOf tr.journal = startsOf tr'.journal) :
    startsOf (e :: tr.journal) = startsOf (e :: tr'.journal) := by
  simp only [startsOf, List.filterMap_cons] at h ⊢
  rw [h]

theorem record (h : tr.Alike tr') {e : Event} (he : ∀ m : Moment, (m.after e).stack = m.stack) :
    (tr.record e).Alike (tr'.record e) :=
  ⟨h.now.after he, startsOf_cons e h.starts⟩

theorem opened (h : tr.Alike tr') (a : Activity) :
    (tr.record (.opened a)).Alike (tr'.record (.opened a)) :=
  ⟨h.now.opened a, startsOf_cons _ h.starts⟩

theorem called (h : tr.Alike tr') (c : ClassId) (caller : ScopeId) (r : Option Resource) :
    tr.Alike (tr'.record (.opened (.call c caller r))) :=
  ⟨⟨h.now.names, h.now.compilation, h.now.pending⟩, h.starts⟩

theorem closed (h : tr.Alike tr') (a : Activity)
    (hp : ∀ c, isPending c tr.now.stack.tail = isPending c tr'.now.stack.tail) :
    (tr.record (.closed a)).Alike (tr'.record (.closed a)) :=
  ⟨⟨h.now.names, h.now.compilation, hp⟩, startsOf_cons _ h.starts⟩

end Trace.Alike

namespace Eval

variable {β α γ : Type} {t : ClassTable β} {act act' : Eval α}

structure Agrees (act act' : Eval α) : Prop where
  left : Balanced act
  right : Balanced act'
  answer : ∀ {tr tr' : Trace}, tr.Alike tr' → act.answer tr = act'.answer tr'
  final : ∀ {tr tr' : Trace}, tr.Alike tr' → (act.final tr).Alike (act'.final tr')

theorem Agrees.bind {next next' : α → Eval γ} (h : Agrees act act')
    (hn : ∀ x, Agrees (next x) (next' x)) : Agrees (act >>= next) (act' >>= next') where
  left := h.left.bind fun x => (hn x).left
  right := h.right.bind fun x => (hn x).right
  answer {tr tr'} ha := by
    rw [answer_bind, answer_bind, h.answer ha]
    cases act'.answer tr' with
    | ok x => exact (hn x).answer (h.final ha)
    | error e => rfl
  final {tr tr'} ha := by
    rw [final_bind, final_bind, h.answer ha]
    cases act'.answer tr' with
    | ok x => exact (hn x).final (h.final ha)
    | error e => exact h.final ha

theorem Agrees.answering {act act' : Eval Reply} (h : Agrees act act') :
    Agrees (answering t act) (answering t act') where
  left := h.left.answering
  right := h.right.answering
  answer {tr tr'} ha := by
    rw [answer_answering, answer_answering, h.answer ha, (h.final ha).now.names]
  final {tr tr'} ha := by
    rw [final_answering, final_answering]
    exact h.final ha

theorem Agrees.during (h : Agrees act act') (a : Activity) :
    Agrees (during a act) (during a act') where
  left := h.left.during a
  right := h.right.during a
  answer ha := by
    rw [answer_during, answer_during]
    exact h.answer (ha.opened a)
  final ha := by
    rw [final_during, final_during]
    apply (h.final (ha.opened a)).closed
    rw [h.left.stack, h.right.stack]
    exact ha.now.pending

theorem Agrees.called (h : Agrees act act') (c : ClassId) (caller : ScopeId)
    (r : Option Resource) : Agrees act (Eval.during (.call c caller r) act') where
  left := h.left
  right := h.right.during _
  answer {tr tr'} ha := by
    rw [answer_during]
    exact h.answer (ha.called c caller r)
  final {tr tr'} ha := by
    rw [final_during]
    have hfinal := h.final (ha.called c caller r)
    have hstack := h.right.stack (tr'.record (.opened (.call c caller r)))
    refine ⟨⟨hfinal.now.names, hfinal.now.compilation, fun d => ?_⟩, hfinal.starts⟩
    rw [hfinal.now.pending d, hstack]
    exact (congrArg (fun stack => isPending d stack.tail) hstack).symm

theorem agrees_of_final (h : ∀ tr, act.final tr = tr)
    (hact : ∀ tr tr', act.answer tr = act.answer tr') : Agrees act act where
  left := balanced_of_final h
  right := balanced_of_final h
  answer _ := hact _ _
  final {tr tr'} ha := by
    rw [h tr, h tr']
    exact ha

theorem agrees_record {e : Event} (he : ∀ m : Moment, (m.after e).stack = m.stack) :
    Agrees (record e) (record e) where
  left := balanced_record he
  right := balanced_record he
  answer _ := rfl
  final ha := ha.record he

theorem agrees_congruence (t : ClassTable β) : Congruence t fun _ => Agrees where
  pure _ := agrees_of_final (fun _ => rfl) fun _ _ => rfl
  bind := Agrees.bind
  now h := {
    left := balanced_now fun m => (h m m (.refl m)).left
    right := balanced_now fun m => (h m m (.refl m)).right
    answer := fun ha => (h _ _ ha.now).answer ha
    final := fun ha => (h _ _ ha.now).final ha }
  fail _ := agrees_of_final (fun _ => rfl) fun _ _ => rfl
  stray := agrees_of_final (fun _ => rfl) fun _ _ => rfl
  answering := Agrees.answering
  raise _ := (agrees_record fun _ => rfl).bind fun _ =>
    agrees_of_final (fun _ => rfl) fun _ _ => rfl
  record := agrees_record
  during a h := h.during a

end Eval

namespace ClassTable

variable {β α : Type} {t : ClassTable β} {run run' : ScopeId → β → Eval α}

theorem evaluateFor_declared {c : ClassId} {d : ClassDecl β} {above : List ClassId}
    (hd : t.decl? c = some d) (h : t.lineage c = .ok above) (caller : ScopeId) (r : Resource) :
    t.evaluateFor run c caller r = t.descend run caller r above c := by
  funext tr
  -- Whether the class has a scope is looked up twice, with nothing in between.
  by_cases hc : tr.now.compilation.IsEvaluated c
  · cases above <;> simp [evaluateFor, descend, settle, compilation, bind, EStateM.bind, hc]
  · simp [evaluateFor, declAt, hd, h, compilation, bind, EStateM.bind, hc, pure, EStateM.pure]

theorem evaluate_declared {c : ClassId} {above : List ClassId} (hc : (t.decl? c).isSome)
    (h : t.lineage c = .ok above) (caller : ScopeId) (r : Resource) :
    t.evaluate run c caller (some r) =
      during (.call c caller (some r)) (t.descend run caller r above c) := by
  obtain ⟨d, hd⟩ := Option.isSome_iff_exists.1 hc
  exact congrArg (during _) (evaluateFor_declared hd h caller r)

theorem isSome_of_lineage_error {c : ClassId} {e : TableError} (h : t.lineage c = .error e) :
    (t.decl? c).isSome := by
  cases hd : t.decl? c with
  | some d => rfl
  | none =>
    have htop : t.parentOf c = .ok none := by simp [parentOf, hd]
    cases h.symm.trans (lineage_eq_ok.2 (.top htop))

section

variable {tr : Trace} {c : ClassId}

theorem evaluateFor_of_isEvaluated (h : tr.now.compilation.IsEvaluated c) (caller : ScopeId)
    (r : Resource) : t.evaluateFor run c caller r tr = .ok none tr := by
  simp [evaluateFor, compilation, bind, EStateM.bind, h, pure, EStateM.pure]

theorem evaluateFor_of_error {e : TableError} (hc : ¬ tr.now.compilation.IsEvaluated c)
    (he : t.lineage c = .error e) (caller : ScopeId) (r : Resource) :
    t.evaluateFor run c caller r tr = (raise (.table e) : Eval (Option α)) tr := by
  obtain ⟨d, hd⟩ := Option.isSome_iff_exists.1 (isSome_of_lineage_error he)
  simp only [evaluateFor, compilation, bind, EStateM.bind, hc, if_false, declAt, hd, he]
  rfl

end

theorem evaluateFor_cases (t : ClassTable β) (run : ScopeId → β → Eval α) (c : ClassId)
    (caller : ScopeId) (r : Resource) (tr : Trace) :
    (tr.now.compilation.IsEvaluated c ∧ t.evaluateFor run c caller r tr = .ok none tr) ∨
      t.evaluateFor run c caller r tr = .error .stray tr ∨
      (∃ e, t.evaluateFor run c caller r tr =
        .error (.failure (.evaluation (.table e))) (tr.record (.raised (.table e)))) ∨
      ∃ above, t.Ancestry c above ∧
        t.evaluateFor run c caller r = t.descend run caller r above c := by
  by_cases hc : tr.now.compilation.IsEvaluated c
  · exact .inl ⟨hc, evaluateFor_of_isEvaluated hc caller r⟩
  right
  cases hl : t.lineage c with
  | error e => exact .inr (.inl ⟨e, evaluateFor_of_error hc hl caller r⟩)
  | ok above =>
    cases hd : t.decl? c with
    | none =>
      left
      simp only [evaluateFor, compilation, bind, EStateM.bind, hc, if_false, declAt, hd]
      rfl
    | some d =>
      exact .inr (.inr ⟨above, lineage_eq_ok.1 hl, evaluateFor_declared hd hl caller r⟩)

theorem Ancestry.declared {c : ClassId} {above : List ClassId} (h : t.Ancestry c above)
    (ht : empty.GrowsTo t) : ∀ a ∈ above, (t.decl? a).isSome := by
  induction h with
  | top => simp
  | up hcp _ ih =>
    obtain ⟨d, hd⟩ := ht.parent_declared hcp
    exact List.forall_mem_cons.2 ⟨Option.isSome_iff_exists.2 ⟨d, hd⟩, ih⟩

theorem reference_declared {c : ClassId} {d : ClassDecl β} {above : List ClassId}
    (hd : t.decl? c = some d) (h : t.lineage c = .ok above) (caller : ScopeId) (r : Resource) :
    t.reference run c caller (some r) =
      during (.call c caller (some r)) (t.settle run c (t.placeByReference run c caller r)) := by
  rw [reference]
  simp only [settle, declAt, hd, pure_bind]
  congr 2
  funext k
  split
  · rfl
  split
  · next e he => cases he.symm.trans h
  congr 1
  funext m
  unfold placeByReference
  cases t.parentOf c with
  | error e => rfl
  | ok p => cases p <;> rfl

variable (ht : empty.GrowsTo t)
  (hrun : ∀ c s b, Agrees (during (.body c s) (run s b)) (during (.body c s) (run' s b)))
include ht hrun

theorem agrees_descend (caller : ScopeId) (r : Resource) {c : ClassId} {above : List ClassId}
    (h : t.Ancestry c above) :
    Agrees (t.descend run caller r above c)
      (t.settle run' c (t.placeByReference run' c caller r)) := by
  have hcongr := agrees_congruence t
  induction h with
  | top hc =>
    apply hcongr.settle run' hrun
    rw [placeByReference, hc]
    exact hcongr.nestFor _ caller r
  | @up c p above hc hp ih =>
    obtain ⟨d, hd⟩ := ht.parent_declared hc
    -- The specification calls for the parent, and the walk down the list does not.
    have hparent := ih.called p caller (some r)
    rw [← reference_declared hd (lineage_eq_ok.2 hp)] at hparent
    apply hcongr.settle run' hrun
    rw [placeByReference, hc]
    exact hparent.bind fun _ => hcongr.nestBelow c p r

theorem agrees_evaluate (c : ClassId) (caller : ScopeId) (resource : Option Resource) :
    Agrees (t.evaluate run c caller resource) (t.reference run' c caller resource) := by
  have hcongr := agrees_congruence t
  cases resource with
  | none =>
    rw [reference]
    exact hcongr.during _ (hcongr.bind (hcongr.declAt c) fun _ => hcongr.raise _)
  | some r =>
    cases hd : t.decl? c with
    | none =>
      rw [reference]
      simp only [evaluate, evaluateFor, declAt, hd]
      refine hcongr.during _ (hcongr.bind hcongr.compilation fun k => ?_)
      split
      · exact hcongr.pure none
      · exact hcongr.stray
    | some d =>
      cases hl : t.lineage c with
      | error e =>
        rw [reference]
        simp only [evaluate, evaluateFor, declAt, hd]
        refine hcongr.during _ (hcongr.bind hcongr.compilation fun k => ?_)
        split
        · exact hcongr.pure none
        · simp only [pure_bind, hl]
          split
          · next e' he =>
            obtain rfl := Except.error.inj (he.symm.trans hl)
            exact hcongr.raise _
          · next he => cases he.symm.trans hl
      | ok above =>
        rw [reference_declared hd hl, evaluate]
        simp only [evaluateFor_declared hd hl]
        exact (agrees_descend ht hrun caller r (lineage_eq_ok.1 hl)).during _

end ClassTable

theorem agrees_runBody {t : ClassTable Body} (ht : ClassTable.empty.GrowsTo t) (depth : Nat)
    (s : ScopeId) (body : Body) :
    Agrees (t.runBody depth s body) (t.runByReference depth s body) := by
  have hcongr := agrees_congruence t
  induction depth generalizing s body with
  | zero => exact agrees_of_final (fun _ => rfl) fun _ _ => rfl
  | succ depth ih =>
    have hevaluate := ClassTable.agrees_evaluate ht fun c s body => (ih s body).during (.body c s)
    exact (hcongr.steps.execAll _ hevaluate s body).bind fun _ => hcongr.pure _

theorem evaluate_agrees_with_reference {t : ClassTable Body} (ht : ClassTable.empty.GrowsTo t)
    (depth : Nat) (c : ClassId) (caller : ScopeId) (resource : Option Resource) (tr : Trace) :
    let act := t.evaluate (t.runBody depth) c caller resource
    let act' := t.reference (t.runByReference depth) c caller resource
    act.answer tr = act'.answer tr ∧ (act.final tr).Alike (act'.final tr) := by
  intro act act'
  have h : Agrees act act' := ClassTable.agrees_evaluate ht
    (fun c s body => (agrees_runBody ht depth s body).during (.body c s)) c caller resource
  exact ⟨h.answer (.refl tr), h.final (.refl tr)⟩

def layered : Session :=
  (Session.initial.run
    [.define "base" none
        (some [.addNamespace .here (.text "core"), .each [.includeClass "app" .here .ofScope]]),
      .define "web" (some "base")
        (some [.addNamespace .here (.text "page"), .includeClass "log" .here .ofScope]),
      .define "app" (some "web") (some [.includeClass "base" .here .ofScope]),
      .define "log" none (some [])]).2

theorem layered_agrees_with_reference :
    let t := layered.registry.table
    let act := t.evaluate (t.runBody 2) ⟨2⟩ .top (some ⟨⟨0⟩, .named ⟨0⟩⟩)
    let act' := t.reference (t.runByReference 2) ⟨2⟩ .top (some ⟨⟨0⟩, .named ⟨0⟩⟩)
    let tr : Trace := ⟨layered.moment, []⟩
    ClassTable.empty.GrowsTo t ∧ (act'.answer tr).isOk = true ∧
      (startsOf (act'.final tr).journal).reverse =
        [(⟨0⟩, ⟨1⟩), (⟨1⟩, ⟨2⟩), (⟨3⟩, ⟨3⟩), (⟨2⟩, ⟨4⟩)] ∧
      (act'.final tr).now.compilation.tree.scopes.toList.map (fun s => (s.parent, s.namespaces)) =
        [(none, []), (some ⟨0⟩, [⟨6⟩]), (some ⟨1⟩, [⟨6⟩, ⟨7⟩]), (some ⟨2⟩, []),
          (some ⟨2⟩, [⟨6⟩, ⟨7⟩])] ∧
      act.answer tr = act'.answer tr ∧ (act.final tr).Alike (act'.final tr) := by
  intro t act act' tr
  have ht : ClassTable.empty.GrowsTo t := Session.empty_growsTo_tableAt _ 0
  obtain ⟨hanswer, hfinal⟩ :
      act.answer tr = act'.answer tr ∧ (act.final tr).Alike (act'.final tr) :=
    evaluate_agrees_with_reference ht 2 ⟨2⟩ .top (some ⟨⟨0⟩, .named ⟨0⟩⟩) tr
  have hok : (act.answer tr).isOk = true := by decide +kernel
  have hstarts : (startsOf (act.final tr).journal).reverse =
      [(⟨0⟩, ⟨1⟩), (⟨1⟩, ⟨2⟩), (⟨3⟩, ⟨3⟩), (⟨2⟩, ⟨4⟩)] := by decide +kernel
  have hscopes : (act.final tr).now.compilation.tree.scopes.toList.map
      (fun s => (s.parent, s.namespaces)) =
        [(none, []), (some ⟨0⟩, [⟨6⟩]), (some ⟨1⟩, [⟨6⟩, ⟨7⟩]), (some ⟨2⟩, []),
          (some ⟨2⟩, [⟨6⟩, ⟨7⟩])] := by decide +kernel
  rw [hanswer] at hok
  rw [hfinal.starts] at hstarts
  rw [hfinal.now.compilation] at hscopes
  exact ⟨ht, hok, hstarts, hscopes, hanswer, hfinal⟩

end ConfigClasses

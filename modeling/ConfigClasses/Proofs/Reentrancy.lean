import ConfigClasses.Proofs.InternalError
import ConfigClasses.Proofs.ParentFirst

namespace ConfigClasses

def withinEvaluator (stack : List Activity) : List Activity := stack.takeWhile (· ≠ .evaluator)

def Inside (cs : List ClassId) (stack : List Activity) : Prop :=
  ∃ a ∈ cs, ∃ s, .body a s ∈ withinEvaluator stack

theorem Inside.cons {cs : List ClassId} {stack : List Activity} (h : Inside cs stack)
    {a : Activity} (ha : a ≠ .evaluator) : Inside cs (a :: stack) := by
  obtain ⟨c, hc, s, hs⟩ := h
  have hwithin : withinEvaluator (a :: stack) = a :: withinEvaluator stack :=
    List.takeWhile_cons_of_pos (by simpa using ha)
  exact ⟨c, hc, s, hwithin ▸ List.mem_cons_of_mem a hs⟩

namespace ClassTable

variable {β : Type} (t : ClassTable β)

def Linked : List Activity → Prop
  | [] => True
  | .evaluator :: stack => (stack = [] ∨ RunsSteps stack) ∧ Linked stack
  | .call _ _ _ :: stack => RunsSteps stack ∧ Linked stack
  | .ascent c :: stack => (t.Awaits c stack ∧ ∃ cs, t.Ancestry c cs) ∧ Linked stack
  | .body c _ :: stack => t.Awaits c stack ∧ Linked stack

variable {t} {tr : Trace} {stack : List Activity} {b c : ClassId}

theorem Linked.tail (h : t.Linked stack) : t.Linked stack.tail := by
  cases stack with
  | nil => trivial
  | cons a stack => cases a <;> exact h.2

theorem Chronicle.linked {Next : ClassTable β → ClassTable β → Prop} (h : Chronicle Next t tr) :
    t.Linked tr.now.stack := by
  induction h with
  | start => trivial
  | @record t tr e h he ih =>
    cases e with
    | opened a =>
      cases a with
      | evaluator => exact ⟨he.2, ih⟩
      | call c caller r => exact ⟨he.2, ih⟩
      | ascent c => exact ⟨⟨he.2.1, he.2.2.1⟩, ih⟩
      | body c s => exact ⟨he.2.1, ih⟩
    | closed a => exact ih.tail
    | _ => exact ih
  | resume h hp ht names ih =>
    simp only [hp.1]
    trivial

theorem Linked.pending_ancestry (h : t.Linked stack) (hc : isPending c stack = true) :
    ∃ cs, t.Ancestry c cs := by
  induction stack with
  | nil => cases hc
  | cons a stack ih =>
    cases a with
    | evaluator => cases hc
    | ascent d =>
      by_cases hd : d = c
      · exact hd ▸ h.1.2
      · exact ih h.2 (by simpa [isPending, hd] using hc)
    | _ => exact ih h.2 hc

theorem Linked.errand_of_awaits (h : t.Linked stack) (hb : t.Awaits b stack) :
    (errand stack).isSome := by
  induction stack generalizing b with
  | nil => cases hb
  | cons a stack ih =>
    cases a with
    | call d caller r =>
      cases r with
      | none => cases hb
      | some r => rfl
    | ascent d => exact ih h.2 h.1.1
    | _ => cases hb

theorem Ancestry.parent_mem {cs : List ClassId} {d p : ClassId} (h : t.Ancestry c cs)
    (hp : t.parentOf d = .ok (some p)) (hd : d = c ∨ d ∈ cs) : p ∈ cs := by
  induction h with
  | top hc =>
    rcases hd with rfl | hd
    · cases hc.symm.trans hp
    · cases hd
  | up hc _ ih =>
    rcases hd with rfl | hd
    · cases hc.symm.trans hp
      exact List.mem_cons_self
    · exact List.mem_cons_of_mem _ (ih (List.mem_cons.1 hd))

theorem Linked.above_or_inside {cs : List ClassId} (h : t.Linked stack)
    (hc : isPending c stack = true) (hcs : t.Ancestry c cs) :
    (∀ b, t.Awaits b stack → b ∈ cs ∨ Inside cs stack) ∧ (RunsSteps stack → Inside cs stack) := by
  induction stack with
  | nil => cases hc
  | cons a stack ih =>
    cases a with
    | evaluator => cases hc
    | call d caller r =>
      -- Calls are made by steps, which run in a body further out.
      have hinside := (ih h.2 hc).2 h.1
      exact ⟨fun b _ => .inr (hinside.cons (by simp)), False.elim⟩
    | ascent d =>
      refine ⟨fun b hb => ?_, False.elim⟩
      by_cases hd : d = c
      · exact .inl (hcs.parent_mem hb (.inl hd))
      · rcases (ih h.2 (by simpa [isPending, hd] using hc)).1 d h.1.1 with hmem | hinside
        · exact .inl (hcs.parent_mem hb (.inr hmem))
        · exact .inr (hinside.cons (by simp))
    | body d s =>
      refine ⟨fun b hb => hb.elim, fun _ => ?_⟩
      rcases (ih h.2 hc).1 d h.1 with hmem | hinside
      · exact ⟨d, hmem, s, by simp [withinEvaluator]⟩
      · exact hinside.cons (by simp)

theorem Linked.inside_of_pending (h : t.Linked stack) (hawaits : t.Awaits c stack)
    (hc : isPending c stack = true) :
    ∃ a s, t.inherits c a = true ∧ .body a s ∈ withinEvaluator stack ∧
      .body a s ∈ aroundCall stack := by
  obtain ⟨cs, hcs⟩ := h.pending_ancestry hc
  obtain ⟨a, ha, s, hs⟩ := ((h.above_or_inside hc hcs).1 c hawaits).resolve_left hcs.not_mem
  refine ⟨a, s, hcs.inherits_iff.2 ha, hs, ?_⟩
  exact mem_aroundCall (h.errand_of_awaits hawaits) ((List.takeWhile_sublist _).subset hs)

end ClassTable

theorem Instant.last_permitted (i : Instant) {e : Event} (he : i.events.getLast? = some e)
    (hne : e ≠ .closed .evaluator) :
    ∃ tr, ClassTable.Chronicle (fun _ _ => True) i.before.registry.table tr ∧
      i.before.registry.table.Permits tr e ∧ i.moment = tr.now.after e := by
  obtain ⟨events, hevents⟩ := List.getLast?_eq_some_iff.1 he
  have hjournal : i.trace.journal = e :: (events.reverse ++
      journalOf ((Session.initial.run i.done).1.map Report.passage) i.before.active) := by
    simp [trace, journal, passages, journalOf_append, journalOf_singleton, hevents]
  obtain ⟨tr, h, -, hpermits, htrace⟩ := i.chronicle_trace.last hjournal hne
  exact ⟨tr, h, hpermits, congrArg Trace.now htrace⟩

theorem reentrant_inside_ancestor (i : Instant) {c : ClassId}
    (hraised : i.events.getLast? = some (.raised (.reentrant c))) :
    let t := i.before.registry.table
    ¬ i.moment.compilation.IsEvaluated c ∧ isPending c i.moment.stack = true ∧
      t.parentOf c ≠ .ok none ∧
      ∃ a s, t.inherits c a = true ∧ .body a s ∈ withinEvaluator i.moment.stack ∧
        .body a s ∈ aroundCall i.moment.stack := by
  obtain ⟨tr, h, ⟨-, hawaits, hevaluated, hpending⟩, hmoment⟩ := i.last_permitted hraised (by simp)
  obtain ⟨a, s, ha, hbody⟩ := h.linked.inside_of_pending hawaits hpending
  rw [show i.moment = tr.now from hmoment]
  refine ⟨hevaluated, hpending, fun htop => ?_, a, s, ha, hbody⟩
  cases (ClassTable.Ancestry.top htop).inherits_iff.1 ha

def reentrantFromTop : Instant :=
  .upTo
    [.define "base" none (some [.each [.includeClass "shop" .here .ofScope]]),
      .define "web" (some "base") (some []), .define "shop" (some "web") (some [])]
    (.step (.evaluate (.named "shop") .top (.titled (.number ⟨0⟩) (.number ⟨0⟩)))) 14

theorem reentrantFromTop_inside_ancestor :
    let t := reentrantFromTop.before.registry.table
    reentrantFromTop.events.getLast? = some (.raised (.reentrant ⟨2⟩)) ∧
      isPending ⟨2⟩ reentrantFromTop.moment.stack = true ∧
      ∃ a s, t.inherits ⟨2⟩ a = true ∧ .body a s ∈ withinEvaluator reentrantFromTop.moment.stack ∧
        .body a s ∈ aroundCall reentrantFromTop.moment.stack := by
  have hraised : reentrantFromTop.events.getLast? = some (.raised (.reentrant ⟨2⟩)) := by
    decide +kernel
  have hall := reentrant_inside_ancestor reentrantFromTop hraised
  exact ⟨hraised, hall.2.1, hall.2.2.2⟩

end ConfigClasses

import ConfigClasses.Proofs.Descent
import ConfigClasses.Proofs.Development
import ConfigClasses.Proofs.Growth
import ConfigClasses.Proofs.InProgress
import ConfigClasses.Proofs.Reference
import ConfigClasses.Proofs.TableIndex

namespace ConfigClasses

open Eval

namespace Eval

variable {α γ : Type} {act : Eval α} {tr : Trace} {result : Except Halt α}

structure JustAnswers (act : Eval α) (tr : Trace) (result : Except Halt α) : Prop where
  answer : act.answer tr = result
  now : (act.final tr).now = tr.now
  kept : kept (act.final tr).journal = kept tr.journal
  started : started (act.final tr).journal = started tr.journal

namespace JustAnswers

theorem congr {act' : Eval α} (h : act'.JustAnswers tr result) (heq : act tr = act' tr) :
    act.JustAnswers tr result := by
  have hanswer : act.answer tr = act'.answer tr := by simp only [Eval.answer, heq]
  have hfinal : act.final tr = act'.final tr := by simp only [Eval.final, heq]
  exact ⟨hanswer.trans h.answer, hfinal ▸ h.now, hfinal ▸ h.kept, hfinal ▸ h.started⟩

theorem pure (x : α) (tr : Trace) : (pure x : Eval α).JustAnswers tr (.ok x) := ⟨rfl, rfl, rfl, rfl⟩

theorem raise (e : EvaluationError) (tr : Trace) :
    (raise e : Eval α).JustAnswers tr (.error (.failure (.evaluation e))) :=
  ⟨rfl, rfl, rfl, rfl⟩

theorem map (h : act.JustAnswers tr result) (f : α → γ) :
    (f <$> act).JustAnswers tr (result.map f) := by
  have hfinal := final_map f act tr
  refine ⟨?_, hfinal ▸ h.now, hfinal ▸ h.kept, hfinal ▸ h.started⟩
  rw [answer_map, h.answer]

theorem call {c : ClassId} {caller : ScopeId} {resource : Option Resource}
    (h : act.JustAnswers (tr.record (.opened (.call c caller resource))) result) :
    (during (.call c caller resource) act).JustAnswers tr result := by
  constructor
  case answer => rw [answer_during, h.answer]
  all_goals rw [final_during]
  case now =>
    simp only [Trace.record, Moment.after] at h ⊢
    rw [h.now]
    rfl
  case kept => exact h.kept
  case started => exact h.started

end JustAnswers

end Eval

namespace ClassTable

section

variable {β α : Type} {t : ClassTable β} {run : ScopeId → β → Eval α} {tr tr' : Trace}
  {c : ClassId} {caller : ScopeId} {resource : Option Resource} {e : EvaluationError}

inductive Refuses (t : ClassTable β) (m : Moment) (c : ClassId) :
    Option Resource → EvaluationError → Prop
  | noResource : Refuses t m c none (.missingResource c)
  | noLineage {r : Resource} {e : TableError} (hc : ¬ m.compilation.IsEvaluated c)
      (he : t.lineage c = .error e) : Refuses t m c (some r) (.table e)

inductive RefusesName (t : ClassTable β) (m : Moment) (name : String) :
    Option Resource → EvaluationError → Prop
  | unknown {resource : Option Resource} (h : t.find? m.names name = none) :
      RefusesName t m name resource (.table (.unknownClass (ClassName.normalize name)))
  | known {c : ClassId} {resource : Option Resource} {e : EvaluationError}
      (h : t.find? m.names name = some c) (hc : t.Refuses m c resource e) :
      RefusesName t m name resource e

theorem Refuses.evaluate (tr : Trace) (h : t.Refuses tr.now c resource e) (hc : (t.decl? c).isSome)
    (run : ScopeId → β → Eval α) (caller : ScopeId) :
    (t.evaluate run c caller resource).JustAnswers tr (.error (.failure (.evaluation e))) := by
  cases h with
  | noResource =>
    obtain ⟨d, hd⟩ := Option.isSome_iff_exists.1 hc
    have hdecl : t.declAt c = pure d := by simp only [declAt, hd]
    rw [ClassTable.evaluate]
    simp only [hdecl, pure_bind]
    exact (JustAnswers.raise _ _).call
  | @noLineage r e hnew he =>
    have hopened : ¬ (tr.record (.opened (.call c caller (some r)))).now.compilation.IsEvaluated c :=
      hnew
    exact ((JustAnswers.raise _ _).congr (evaluateFor_of_error hopened he caller r)).call

theorem evaluate_of_isEvaluated (t : ClassTable β) (tr : Trace)
    (h : tr.now.compilation.IsEvaluated c) (run : ScopeId → β → Eval α) (caller : ScopeId)
    (r : Resource) :
    (t.evaluate run c caller (some r)).JustAnswers tr (.ok none) := by
  have hopened : (tr.record (.opened (.call c caller (some r)))).now.compilation.IsEvaluated c := h
  exact ((JustAnswers.pure _ _).congr (evaluateFor_of_isEvaluated hopened caller r)).call

variable (hrun : ∀ s b, Contained (run s b))
include hrun

theorem settling_places {place : Eval ScopeId} (hplace : Contained place) {out : Option α}
    (h : t.settling run c place tr = .ok out tr') :
    ∃ es s, tr' = tr.follow es ∧ .placed c s ∈ es := by
  cases hs : place (t.enter tr c) with
  | error f tr₁ => cases h.symm.trans (settling_of_error hs)
  | ok s tr₁ =>
    have hlaunch : t.launch run c s (tr₁.follow [.closed (.ascent c), .placed c s]) = .ok out tr' :=
      (settling_of_ok hs).symm.trans h
    obtain ⟨up, hup⟩ : (t.enter tr c).Reaches tr₁ := ⟨_, final_of_ok hs ▸ hplace.forward _⟩
    obtain ⟨rest, hrest⟩ : (tr₁.follow [.closed (.ascent c), .placed c s]).Reaches tr' :=
      ⟨_, final_of_ok hlaunch ▸ (contained_launch hrun c s).forward _⟩
    refine ⟨[.tagged (t.nameOf c), .opened (.ascent c)] ++ up ++
      [.closed (.ascent c), .placed c s] ++ rest, s, ?_, by simp⟩
    rw [hrest, hup]
    simp only [Trace.follow_append]
    rfl

theorem descend_places {r : Resource} {above : List ClassId} {out : Option α}
    (h : t.descend run caller r above c tr = .ok out tr') :
    tr.now.compilation.IsEvaluated c ∨ ∃ es s, tr' = tr.follow es ∧ .placed c s ∈ es := by
  rw [descend_eq] at h
  rcases settle_cases t run (t.placing run caller r c above) tr c
    with ⟨hevaluated, -⟩ | ⟨-, hpending⟩ | hstray | ⟨-, hclear⟩
  · exact .inl hevaluated
  · cases h.symm.trans hpending
  · cases h.symm.trans hstray
  · exact .inr (settling_places hrun (contained_placing hrun caller r c above) (hclear ▸ h))

theorem evaluate_places {out : Option α} (h : t.evaluate run c caller resource tr = .ok out tr') :
    tr.now.compilation.IsEvaluated c ∨
      ∃ s, .placed c s ∈ (t.evaluate run c caller resource).events tr := by
  obtain ⟨tr₁, hcall, hclosed⟩ := (during_eq_ok _).1 h
  cases resource with
  | none =>
    obtain ⟨_, _, -, hraise⟩ := bind_eq_ok.1 hcall
    cases hraise
  | some r =>
    let called := tr.record (.opened (.call c caller (some r)))
    have hcall : t.evaluateFor run c caller r called = .ok out tr₁ := hcall
    rcases evaluateFor_cases t run c caller r called
      with ⟨hevaluated, -⟩ | hstray | ⟨e, hrefused⟩ | ⟨above, -, hdescend⟩
    · exact .inl hevaluated
    · cases hcall.symm.trans hstray
    · cases hcall.symm.trans hrefused
    rw [hdescend] at hcall
    rcases descend_places hrun hcall with hevaluated | ⟨es, s, hes, hplaced⟩
    · exact .inl hevaluated
    right
    have hfinal : (t.evaluate run c caller (some r)).final tr =
        tr.follow (.opened (.call c caller (some r)) :: es ++ [.closed (.call c caller (some r))]) := by
      rw [final_of_ok h, hclosed, hes, Trace.follow_append]
      rfl
    rw [events_of_final hfinal]
    exact ⟨s, by simp [hplaced]⟩

end

end ClassTable

def ResourceRef.given : Option Resource → ResourceRef
  | Option.none => .none
  | some ⟨type, .main⟩ => .main (.number type)
  | some ⟨type, .named title⟩ => .titled (.number type) (.number title)

theorem ResourceRef.resolve_given (resource : Option Resource) (s : ScopeId) :
    (given resource).resolve s = pure resource := by
  rcases resource with _ | ⟨type, _ | title⟩ <;> rfl

section

variable {t : ClassTable Body}
  {evaluate : ClassId → ScopeId → Option Resource → Eval (Option Output)} {tr : Trace}
  {name : String}

theorem exec_include_of_none (here s : ScopeId) (resource : Option Resource)
    (h : t.find? tr.now.names name = none) :
    Step.exec t evaluate here (.includeClass name (.number s) (.given resource)) tr =
      (raise (.table (.unknownClass (ClassName.normalize name))) : Eval Reply) tr := by
  have hnow : now tr = .ok tr.now tr := rfl
  simp only [Step.exec, ScopeRef.resolve, ResourceRef.resolve_given, pure_bind]
  rw [bind_of_ok hnow, h]

theorem exec_include_of_some (here s : ScopeId) (resource : Option Resource) {c : ClassId}
    (h : t.find? tr.now.names name = some c) :
    Step.exec t evaluate here (.includeClass name (.number s) (.given resource)) tr =
      (Reply.output <$> evaluate c s resource) tr := by
  have hnow : now tr = .ok tr.now tr := rfl
  simp only [Step.exec, ScopeRef.resolve, ResourceRef.resolve_given, pure_bind]
  rw [bind_of_ok hnow, h]
  rfl

end

namespace Instant

def call (i : Instant) (depth : Nat) (c : ClassId) (caller : ScopeId)
    (resource : Option Resource) : Eval (Option Output) :=
  i.before.registry.table.evaluate (i.before.registry.table.runBody depth) c caller resource

def callNamed (i : Instant) (depth : Nat) (here : ScopeId) (name : String) (s : ScopeId)
    (resource : Option Resource) : Eval Reply :=
  Step.exec i.before.registry.table (i.call depth) here
    (.includeClass name (.number s) (.given resource))

/-- A call for the class has ended well or its body was started, and there was no reset since. -/
inductive HasEvaluated (j : Instant) (c : ClassId) : Prop
  | answered (i : Instant) (depth : Nat) (caller : ScopeId) (resource : Option Resource)
      (since : List Event) (hwell : (i.call depth c caller resource).halt? i.trace = none)
      (hover : ((i.call depth c caller resource).final i.trace).journal <:+ j.trace.journal)
      (hsince : since ++ i.trace.journal = j.trace.journal) (hreset : .reset ∉ since)
  | started (s : ScopeId) (since past : List Event)
      (hsince : since ++ .opened (.body c s) :: past = j.trace.journal) (hreset : .reset ∉ since)

theorem final_call (i : Instant) (depth : Nat) (c : ClassId) (caller : ScopeId)
    (resource : Option Resource) :
    (i.call depth c caller resource).final i.trace =
      i.trace.follow ((i.call depth c caller resource).events i.trace) :=
  ((contained_congruence _).calls _ (contained_runBody _ depth) c caller resource).forward i.trace

theorem HasEvaluated.isEvaluated {j : Instant} {c : ClassId} (h : j.HasEvaluated c) :
    j.moment.compilation.IsEvaluated c := by
  cases h with
  | answered i depth caller resource since hwell hover hsince hreset =>
    have hjournal : (Moment.ofJournal j.trace.journal).compilation = j.moment.compilation :=
      j.chronicle_trace.ofJournal.1
    rw [← hjournal]
    -- Of the events since the call began, the first ones are its own.
    rw [← hsince] at hover ⊢
    rw [i.final_call, Trace.journal_follow, List.suffix_append_self_iff] at hover
    obtain ⟨out, tr', hok⟩ := halt?_eq_none.1 hwell
    rcases ClassTable.evaluate_places (contained_runBody _ depth) hok
      with hevaluated | ⟨s, hplaced⟩
    · have hcontinues := continues_ofJournal i.trace.journal hreset
      rw [i.chronicle_trace.ofJournal.1] at hcontinues
      exact hcontinues.isEvaluated hevaluated
    · exact isEvaluated_ofJournal hreset (hover.subset (List.mem_reverse.2 hplaced))
  | started s since past hsince hreset =>
    exact j.chronicle_trace.isEvaluated_of_started hsince.symm hreset

end Instant

theorem calls_atomic_and_idempotent (i : Instant) (depth : Nat) :
    let t := i.before.registry.table
    (∀ c resource e, (t.decl? c).isSome → t.Refuses i.moment c resource e → ∀ caller,
        (i.call depth c caller resource).JustAnswers i.trace
          (.error (.failure (.evaluation e)))) ∧
      (∀ name resource e, t.RefusesName i.moment name resource e → ∀ here s,
        (i.callNamed depth here name s resource).JustAnswers i.trace
          (.error (.failure (.evaluation e)))) ∧
      ∀ c, i.HasEvaluated c → ∀ r,
        (∀ caller, (i.call depth c caller (some r)).JustAnswers i.trace (.ok none)) ∧
          ∀ name d, t.decl? c = some d → i.moment.names.text d.name = ClassName.normalize name →
            ∀ here s, (i.callNamed depth here name s (some r)).JustAnswers i.trace
              (.ok (.output none)) := by
  intro t
  have hover : t.DefinedOver i.moment.names := i.definedOver_before
  refine ⟨fun c resource e hc hrefuses caller => hrefuses.evaluate i.trace hc _ caller,
    fun name resource e hrefuses here s => ?_, fun c hpast r => ?_⟩
  · cases hrefuses with
    | unknown hname => exact (JustAnswers.raise _ _).congr (exec_include_of_none here s resource hname)
    | @known c _ _ hname hrefuses =>
      obtain ⟨d, hd, -⟩ := hover.find?_iff.1 hname
      have hcall := hrefuses.evaluate i.trace (Option.isSome_of_eq_some hd) (t.runBody depth) s
      exact (hcall.map Reply.output).congr (exec_include_of_some here s resource hname)
  · have hevaluated := hpast.isEvaluated
    refine ⟨fun caller => t.evaluate_of_isEvaluated i.trace hevaluated _ caller r,
      fun name d hd htext here s => ?_⟩
    have hname : t.find? i.moment.names name = some c := hover.find?_iff.2 ⟨d, hd, htext⟩
    have hcall := t.evaluate_of_isEvaluated i.trace hevaluated (t.runBody depth) s r
    exact (hcall.map Reply.output).congr (exec_include_of_some here s (some r) hname)

def baseIncluded : Instant :=
  .upTo
    [.define "base" none (some [.fail "no port"]), .define "web" (some "lost") none,
      .define "loop" (some "loop") none, .define "log" none none,
      .define "shop" none
        (some [.each [.includeClass "base" .here .ofScope], .includeClass "log" .here .ofScope,
          .fail "closed"])]
    (.step (.evaluate (.named "shop") .top (.titled (.number ⟨0⟩) (.number ⟨0⟩)))) 17

def logIncluded : Instant := .upTo baseIncluded.done baseIncluded.next 24

theorem logIncluded_atomic_and_idempotent :
    let i := logIncluded
    let r : Resource := ⟨⟨0⟩, .main⟩
    i.moment.stack.head? = some (.body ⟨4⟩ ⟨1⟩) ∧
      (i.call 1 ⟨0⟩ ⟨1⟩ none).JustAnswers i.trace
        (.error (.failure (.evaluation (.missingResource ⟨0⟩)))) ∧
      (i.call 1 ⟨2⟩ ⟨1⟩ (some r)).JustAnswers i.trace
        (.error (.failure (.evaluation (.table (.cyclicInheritance [⟨2⟩, ⟨2⟩]))))) ∧
      (i.callNamed 1 ⟨1⟩ "Web" ⟨1⟩ (some r)).JustAnswers i.trace
        (.error (.failure (.evaluation (.table (.unknownParent ⟨1⟩ ⟨4⟩))))) ∧
      (i.callNamed 1 ⟨1⟩ "Mall" ⟨1⟩ none).JustAnswers i.trace
        (.error (.failure (.evaluation (.table (.unknownClass (ClassName.normalize "Mall")))))) ∧
      (i.call 1 ⟨0⟩ ⟨1⟩ (some r)).JustAnswers i.trace (.ok none) ∧
      (i.callNamed 1 ⟨1⟩ "::Log" ⟨1⟩ (some r)).JustAnswers i.trace (.ok (.output none)) := by
  intro i r
  obtain ⟨hrefused, hrefusedName, hagain⟩ := calls_atomic_and_idempotent i 1
  have hfailed : i.HasEvaluated ⟨0⟩ :=
    .started ⟨2⟩ (i.trace.journal.take 9) (i.trace.journal.drop 10) (by decide +kernel)
      (by decide +kernel)
  have hended : i.HasEvaluated ⟨3⟩ :=
    .answered baseIncluded 1 ⟨1⟩ (some ⟨⟨0⟩, .named ⟨0⟩⟩) (i.trace.journal.take 7)
      (by decide +kernel) (by decide +kernel) (by decide +kernel) (by decide +kernel)
  refine ⟨by decide +kernel, ?_, ?_, ?_, ?_, (hagain ⟨0⟩ hfailed r).1 ⟨1⟩, ?_⟩
  · exact hrefused ⟨0⟩ none _ (by decide +kernel) .noResource ⟨1⟩
  · exact hrefused ⟨2⟩ (some r) _ (by decide +kernel)
      (.noLineage (by decide +kernel) (by decide +kernel)) ⟨1⟩
  · exact hrefusedName "Web" (some r) _
      (.known (c := ⟨1⟩) (by decide +kernel) (.noLineage (by decide +kernel) (by decide +kernel)))
      ⟨1⟩ ⟨1⟩
  · exact hrefusedName "Mall" none _ (.unknown (by decide +kernel)) ⟨1⟩ ⟨1⟩
  · exact (hagain ⟨3⟩ hended r).2 "::Log" ⟨⟨6⟩, none, none⟩ rfl (by decide +kernel) ⟨1⟩ ⟨1⟩

end ConfigClasses

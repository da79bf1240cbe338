import ConfigClasses.Step.Execution

/-!
Relations between actions that respect the ways in which actions are put together. Such a relation
holds between the runs of a step under two evaluations if it holds between the evaluations, and
between two evaluations if it holds between their ways to run a body.
-/

namespace ConfigClasses

open Eval

structure Moment.Alike (m m' : Moment) : Prop where
  names : m.names = m'.names
  compilation : m.compilation = m'.compilation
  pending : ∀ c, isPending c m.stack = isPending c m'.stack

theorem Moment.Alike.refl (m : Moment) : m.Alike m := ⟨rfl, rfl, fun _ => rfl⟩

def Event.isUnscoped : Event → Bool
  | .interned _ | .tagged _ | .assigned _ _ | .reset => true
  | _ => false

def Event.isOfStep : Event → Bool
  | .interned _ | .tagged _ | .assigned _ _ | .reset => true
  | .nested none _ _ | .namespaceAdded _ _ | .bound _ _ _ => true
  | .raised (.table _) => true
  | _ => false

def Event.isLocal : Event → Bool
  | .interned _ | .namespaceAdded _ _ | .bound _ _ _ => true
  | _ => false

def Step.isLocal : Step → Bool
  | .nest _ _ | .tag _ | .assign _ _ | .reset => false
  | .evaluate _ _ _ | .includeClass _ _ _ | .each _ | .fresh _ => false
  | _ => true

mutual

def Step.isQuiet : Step → Bool
  | .each steps => areQuiet steps
  | .fresh step => step.isQuiet
  | step => step.isLocal

def areQuiet : List Step → Bool
  | [] => true
  | step :: steps => step.isQuiet && areQuiet steps

end

namespace Eval

variable {β : Type}

structure Compositional (t : ClassTable β) (Rel : (α : Type) → Eval α → Eval α → Prop) :
    Prop where
  pure {α : Type} (x : α) : Rel α (pure x) (pure x)
  bind {α γ : Type} {act act' : Eval α} {next next' : α → Eval γ} (h : Rel α act act')
    (hn : ∀ x, Rel γ (next x) (next' x)) : Rel γ (act >>= next) (act' >>= next')
  now {α : Type} {next next' : Moment → Eval α}
    (h : ∀ m m', m.Alike m' → Rel α (next m) (next' m')) : Rel α (now >>= next) (now >>= next')
  fail {α : Type} {f : Failure} (hf : ∀ e, f ≠ .evaluation e) : Rel α (fail f) (fail f)
  stray {α : Type} : Rel α stray stray
  answering {act act' : Eval Reply} (h : Rel Reply act act') :
    Rel Reply (answering t act) (answering t act')

structure LocalCongruence (t : ClassTable β) (Rel : (α : Type) → Eval α → Eval α → Prop) : Prop
    extends Compositional t Rel where
  interned (text : String) : Rel Unit (record (.interned text)) (record (.interned text))
  addNamespace {α : Type} (s : ScopeId) (ns : Name) (x : α) :
    Rel α (do let _ ← scopeAt s; Eval.record (.namespaceAdded s ns); return x)
      (do let _ ← scopeAt s; Eval.record (.namespaceAdded s ns); return x)
  bindIn (s : ScopeId) (x : Name) (v : Value) : Rel Unit (bindIn s x v) (bindIn s x v)
  evaluator {α : Type} {act act' : Eval α} (h : Rel α act act') :
    Rel α (during .evaluator act) (during .evaluator act')

structure StepCongruence (t : ClassTable β) (Rel : (α : Type) → Eval α → Eval α → Prop) : Prop
    extends Compositional t Rel where
  unknownClass {α : Type} (text : String) :
    Rel α (raise (.table (.unknownClass text))) (raise (.table (.unknownClass text)))
  record {e : Event} (he : e.isUnscoped = true) : Rel Unit (record e) (record e)
  nest (outer : ScopeId) (r : Resource) : Rel ScopeId (nest none outer r) (nest none outer r)
  addNamespace {α : Type} (s : ScopeId) (ns : Name) (x : α) :
    Rel α (do let _ ← scopeAt s; Eval.record (.namespaceAdded s ns); return x)
      (do let _ ← scopeAt s; Eval.record (.namespaceAdded s ns); return x)
  bindIn (s : ScopeId) (x : Name) (v : Value) : Rel Unit (bindIn s x v) (bindIn s x v)
  evaluator {α : Type} {act act' : Eval α} (h : Rel α act act') :
    Rel α (during .evaluator act) (during .evaluator act')

structure Congruence (t : ClassTable β) (Rel : (α : Type) → Eval α → Eval α → Prop) : Prop
    extends Compositional t Rel where
  raise {α : Type} (e : EvaluationError) : Rel α (raise e) (raise e)
  record {e : Event} (he : ∀ m : Moment, (m.after e).stack = m.stack) :
    Rel Unit (record e) (record e)
  during {α : Type} {act act' : Eval α} (a : Activity) (h : Rel α act act') :
    Rel α (during a act) (during a act')

variable {t : ClassTable β} {Rel : (α : Type) → Eval α → Eval α → Prop} {α : Type}

namespace Compositional

variable (h : Compositional t Rel)
include h

theorem observe {f f' : Moment → α} (hf : ∀ m m', m.Alike m' → f m = f' m') :
    Rel α (Eval.now >>= fun m => Pure.pure (f m)) (Eval.now >>= fun m => Pure.pure (f' m)) :=
  h.now fun m m' ha => hf m m' ha ▸ h.pure (f m)

theorem compilation : Rel Compilation compilation compilation :=
  h.observe fun _ _ ha => ha.compilation

theorem scopeAt (s : ScopeId) : Rel Scope (scopeAt s) (scopeAt s) := by
  apply h.bind h.compilation
  intro k
  cases k.tree.find? s with
  | none => exact h.stray
  | some scope => exact h.pure scope

theorem declAt (c : ClassId) : Rel (ClassDecl β) (t.declAt c) (t.declAt c) := by
  unfold ClassTable.declAt
  cases t.decl? c with
  | none => exact h.stray
  | some d => exact h.pure d

theorem guard {p : Prop} [Decidable p] {γ : Type} {act act' : Eval γ} {rest rest' : Eval α}
    (hact : Rel γ act act') (hrest : Rel α rest rest') :
    Rel α (if p then act >>= fun _ => rest else rest)
      (if p then act' >>= fun _ => rest' else rest') := by
  split
  · exact h.bind hact fun _ => hrest
  · exact hrest

end Compositional

section Events

variable (h : Compositional t Rel)
  (hevaluator : ∀ {α : Type} {act act' : Eval α}, Rel α act act' →
    Rel α (during .evaluator act) (during .evaluator act'))
include h hevaluator

theorem Compositional.localSteps
    (hrecord : ∀ e : Event, e.isLocal = true → Rel Unit (record e) (record e)) :
    LocalCongruence t Rel where
  toCompositional := h
  interned _ := hrecord _ rfl
  addNamespace s ns x :=
    h.bind (h.scopeAt s) fun _ => h.bind (hrecord _ rfl) fun _ => h.pure x
  bindIn s x v := by
    apply h.bind (h.scopeAt s)
    intro scope
    cases scope.bindings[x]? with
    | none => exact hrecord _ rfl
    | some _ => exact h.fail nofun
  evaluator := hevaluator

theorem Compositional.steps
    (hraise : ∀ {α : Type} (text : String),
      Rel α (raise (.table (.unknownClass text))) (raise (.table (.unknownClass text))))
    (hrecord : ∀ e : Event, e.isOfStep = true → Rel Unit (record e) (record e)) :
    StepCongruence t Rel := by
  have hlocal : LocalCongruence t Rel := by
    refine h.localSteps hevaluator fun e he => hrecord e ?_
    cases e <;> first | rfl | cases he
  constructor
  case toCompositional => exact h
  case unknownClass => exact hraise
  case record =>
    intro e he
    apply hrecord
    cases e <;> first | rfl | cases he
  case nest =>
    exact fun outer r => h.bind (h.scopeAt outer) fun _ => h.bind h.compilation fun _ =>
      h.bind (hrecord _ rfl) fun _ => h.pure _
  case addNamespace => exact hlocal.addNamespace
  case bindIn => exact hlocal.bindIn
  case evaluator => exact hevaluator

end Events

theorem StepCongruence.toLocal (h : StepCongruence t Rel) : LocalCongruence t Rel where
  toCompositional := h.toCompositional
  interned _ := h.record rfl
  addNamespace := h.addNamespace
  bindIn := h.bindIn
  evaluator := h.evaluator

namespace LocalCongruence

variable (h : LocalCongruence t Rel)
include h

theorem intern (text : String) : Rel Name (intern text) (intern text) := by
  apply h.bind (h.interned text)
  intro _
  exact h.observe fun _ _ ha => by rw [ha.names]

theorem nameRef (n : NameRef) : Rel Name n.resolve n.resolve := by
  cases n with
  | number n => exact h.pure n
  | text s => exact h.intern s

theorem classNamed (name : String) : Rel ClassId (classNamed t name) (classNamed t name) := by
  refine h.now fun m m' ha => ?_
  rw [ha.names]
  cases t.find? m'.names name with
  | none => exact h.fail nofun
  | some c => exact h.pure c

theorem classRef (c : ClassRef) : Rel ClassId (c.resolve t) (c.resolve t) := by
  cases c with
  | number c => exact h.pure c
  | named name => exact h.classNamed name

theorem scopeRef (here : ScopeId) (s : ScopeRef) :
    Rel ScopeId (s.resolve t here) (s.resolve t here) := by
  cases s with
  | here => exact h.pure here
  | number s => exact h.pure s
  | top => exact h.pure _
  | around =>
    apply h.bind (h.scopeAt here)
    intro scope
    cases scope.parent with
    | none => exact h.fail nofun
    | some s => exact h.pure s
  | ofClass name =>
    refine h.bind (h.classNamed name) fun c => h.bind h.compilation fun k => ?_
    cases k.classScope c with
    | none => exact h.fail nofun
    | some s => exact h.pure s

theorem resourceRef (s : ScopeId) (r : ResourceRef) :
    Rel (Option Resource) (r.resolve s) (r.resolve s) := by
  cases r with
  | ofScope => exact h.bind (h.scopeAt s) fun _ => h.pure _
  | none => exact h.pure _
  | main type => exact h.bind (h.nameRef type) fun _ => h.pure _
  | titled type title =>
    exact h.bind (h.nameRef type) fun _ => h.bind (h.nameRef title) fun _ => h.pure _

end LocalCongruence

namespace Congruence

variable (h : Congruence t Rel)
include h

theorem nest (owner : Option ClassId) (outer : ScopeId) (r : Resource) :
    Rel ScopeId (nest owner outer r) (nest owner outer r) :=
  h.bind (h.scopeAt outer) fun _ => h.bind h.compilation fun _ =>
    h.bind (h.record fun _ => rfl) fun _ => h.pure _

theorem steps : StepCongruence t Rel := by
  refine h.toCompositional.steps (fun hact => h.during _ hact) (fun _ => h.raise _)
    fun e he => h.record fun m => ?_
  cases e <;> first | rfl | cases he

theorem nestFor (c : ClassId) (outer : ScopeId) (r : Resource) :
    Rel ScopeId (nestFor c outer r) (nestFor c outer r) := by
  unfold Eval.nestFor
  split
  · exact h.pure outer
  · exact h.nest (some c) outer r

theorem addNamespaces (s : ScopeId) (namespaces : List Name) :
    Rel PUnit (namespaces.forM fun ns => Eval.record (.namespaceAdded s ns))
      (namespaces.forM fun ns => Eval.record (.namespaceAdded s ns)) := by
  induction namespaces with
  | nil => exact h.pure _
  | cons ns namespaces ih => exact h.bind (h.record fun _ => rfl) fun _ => ih

theorem nestBelow (c p : ClassId) (r : Resource) :
    Rel ScopeId (nestBelow c p r) (nestBelow c p r) := by
  apply h.bind h.compilation
  intro k
  cases k.classScope p with
  | none => exact h.raise _
  | some outer =>
    exact h.bind (h.scopeAt outer) fun scope => h.bind (h.nestFor c outer r) fun s =>
      h.bind (h.addNamespaces s scope.namespaces) fun _ => h.pure s

variable {run : ScopeId → β → Eval α} (run' : ScopeId → β → Eval α)
  (hrun : ∀ c s b, Rel α (Eval.during (.body c s) (run s b)) (Eval.during (.body c s) (run' s b)))
include hrun

theorem settle (c : ClassId) {place place' : Eval ScopeId} (hplace : Rel ScopeId place place') :
    Rel (Option α) (t.settle run c place) (t.settle run' c place') := by
  apply h.bind h.compilation
  intro k
  split
  · exact h.pure none
  refine h.now fun m m' ha => ?_
  rw [ha.pending c]
  refine h.guard (h.raise _) <| h.bind (h.declAt c) fun d => h.bind (h.record fun _ => rfl) fun _ =>
    h.bind (h.during _ hplace) fun s => h.bind (h.record fun _ => rfl) fun _ => ?_
  cases d.body with
  | none => exact h.pure none
  | some b => exact h.bind (hrun c s b) fun _ => h.pure _

theorem descend (caller : ScopeId) (r : Resource) (above : List ClassId) (c : ClassId) :
    Rel (Option α) (t.descend run caller r above c) (t.descend run' caller r above c) := by
  induction above generalizing c with
  | nil => exact h.settle run' hrun c (h.nestFor c caller r)
  | cons p above ih => exact h.settle run' hrun c (h.bind (ih p) fun _ => h.nestBelow c p r)

theorem evaluateFor (c : ClassId) (caller : ScopeId) (r : Resource) :
    Rel (Option α) (t.evaluateFor run c caller r) (t.evaluateFor run' c caller r) := by
  apply h.bind h.compilation
  intro k
  split
  · exact h.pure none
  apply h.bind (h.declAt c)
  intro _
  cases t.lineage c with
  | error e => exact h.raise _
  | ok above => exact h.descend run' hrun caller r above c

theorem evaluate (c : ClassId) (caller : ScopeId) (resource : Option Resource) :
    Rel (Option α) (t.evaluate run c caller resource) (t.evaluate run' c caller resource) := by
  apply h.during
  cases resource with
  | none => exact h.bind (h.declAt c) fun _ => h.raise _
  | some r => exact h.evaluateFor run' hrun c caller r

end Congruence

section

variable {t : ClassTable Body}
  {evaluate : ClassId → ScopeId → Option Resource → Eval (Option Output)}
  (evaluate' : ClassId → ScopeId → Option Resource → Eval (Option Output))

theorem LocalCongruence.exec (h : LocalCongruence t Rel) (here : ScopeId) {step : Step}
    (hstep : step.isLocal = true) :
    Rel Reply (step.exec t evaluate here) (step.exec t evaluate' here) := by
  match step with
  | .intern text =>
    simp only [Step.exec]
    exact h.bind (h.intern text) fun _ => h.pure _
  | .findName _ | .countNames | .findClass _ | .listClasses =>
    simp only [Step.exec]
    exact h.observe fun _ _ ha => by rw [ha.names]
  | .describeState =>
    simp only [Step.exec]
    exact h.observe fun _ _ ha => by rw [ha.names, ha.compilation]
  | .spell n =>
    simp only [Step.exec]
    exact h.bind (h.nameRef n) fun _ =>
      h.observe fun _ _ ha => by rw [ha.names]
  | .findClassNamed n =>
    simp only [Step.exec]
    exact h.bind (h.nameRef n) fun _ => h.pure _
  | .describeClass c =>
    simp only [Step.exec]
    exact h.bind (h.classRef c) fun c => h.bind (h.declAt c) fun _ =>
      h.observe fun _ _ ha => by rw [ha.names]
  | .parentOf c =>
    simp only [Step.exec]
    refine h.bind (h.classRef c) fun c => h.bind (h.declAt c) fun _ => ?_
    cases t.parentOf c with
    | ok p => exact h.pure _
    | error e => exact h.fail nofun
  | .lineage c =>
    simp only [Step.exec]
    refine h.bind (h.classRef c) fun c => h.bind (h.declAt c) fun _ => ?_
    cases t.lineage c with
    | ok above => exact h.pure _
    | error e => exact h.fail nofun
  | .inherits c a =>
    simp only [Step.exec]
    exact h.bind (h.classRef c) fun c => h.bind (h.classRef a) fun _ =>
      h.bind (h.declAt c) fun _ => h.pure _
  | .describeScope s =>
    simp only [Step.exec]
    exact h.bind (h.scopeRef here s) fun s => h.bind (h.scopeAt s) fun _ =>
      h.observe fun _ _ ha => by rw [ha.names]
  | .ancestors s =>
    simp only [Step.exec]
    exact h.bind (h.scopeRef here s) fun s => h.bind (h.scopeAt s) fun _ =>
      h.bind h.compilation fun _ => h.pure _
  | .addNamespace s ns =>
    simp only [Step.exec]
    exact h.bind (h.scopeRef here s) fun s => h.bind (h.nameRef ns) fun ns =>
      h.addNamespace s ns _
  | .bind s x v =>
    simp only [Step.exec]
    exact h.bind (h.scopeRef here s) fun s => h.bind (h.nameRef x) fun x =>
      h.bind (h.bindIn s x v) fun _ => h.pure _
  | .lookup s x =>
    simp only [Step.exec]
    exact h.bind (h.scopeRef here s) fun s => h.bind (h.nameRef x) fun _ =>
      h.bind (h.scopeAt s) fun _ => h.bind h.compilation fun _ => h.pure _
  | .lookupLocal s x =>
    simp only [Step.exec]
    exact h.bind (h.scopeRef here s) fun s => h.bind (h.nameRef x) fun _ =>
      h.bind (h.scopeAt s) fun _ => h.pure _
  | .isTagged n =>
    simp only [Step.exec]
    exact h.bind (h.nameRef n) fun _ => h.bind h.compilation fun _ => h.pure _
  | .classScope c | .isEvaluated c =>
    simp only [Step.exec]
    exact h.bind (h.classRef c) fun _ => h.bind h.compilation fun _ => h.pure _
  | .fail message =>
    simp only [Step.exec]
    exact h.fail nofun

mutual

theorem LocalCongruence.exec_quiet (h : LocalCongruence t Rel) (here : ScopeId) (step : Step)
    (hstep : step.isQuiet = true) :
    Rel Reply (step.exec t evaluate here) (step.exec t evaluate' here) := by
  cases hlocal : step.isLocal with
  | true => exact h.exec evaluate' here hlocal
  | false =>
    match step with
    | .each steps =>
      simp only [Step.exec]
      exact h.bind (LocalCongruence.execEach_quiet h here steps hstep) fun _ => h.pure _
    | .fresh step =>
      simp only [Step.exec]
      exact h.evaluator (LocalCongruence.exec_quiet h here step hstep)

theorem LocalCongruence.execEach_quiet (h : LocalCongruence t Rel) (here : ScopeId)
    (steps : List Step) (hsteps : areQuiet steps = true) :
    Rel (List Reply) (execEach t evaluate here steps) (execEach t evaluate' here steps) := by
  match steps with
  | [] =>
    simp only [ConfigClasses.execEach]
    exact h.pure _
  | step :: steps =>
    obtain ⟨hstep, hrest⟩ := Bool.and_eq_true_iff.1 hsteps
    simp only [ConfigClasses.execEach]
    exact h.bind (h.answering (LocalCongruence.exec_quiet h here step hstep)) fun _ =>
      h.bind (LocalCongruence.execEach_quiet h here steps hrest) fun _ => h.pure _

end

theorem LocalCongruence.execAll_quiet (h : LocalCongruence t Rel) (here : ScopeId) {body : Body}
    (hbody : areQuiet body = true) :
    Rel (List Reply) (execAll t evaluate here body) (execAll t evaluate' here body) := by
  induction body with
  | nil => exact h.pure _
  | cons step steps ih =>
    obtain ⟨hstep, hrest⟩ := Bool.and_eq_true_iff.1 hbody
    exact h.bind (h.exec_quiet evaluate' here step hstep) fun _ => h.bind (ih hrest) fun _ => h.pure _

namespace StepCongruence

mutual

theorem exec (h : StepCongruence t Rel)
    (he : ∀ c s r, Rel (Option Output) (evaluate c s r) (evaluate' c s r)) (here : ScopeId)
    (step : Step) : Rel Reply (step.exec t evaluate here) (step.exec t evaluate' here) := by
  match step with
  | .nest s r =>
    simp only [Step.exec]
    refine h.bind (h.toLocal.scopeRef here s) fun s => h.bind (h.toLocal.resourceRef s r) fun r => ?_
    cases r with
    | none => exact h.fail nofun
    | some r => exact h.bind (h.nest s r) fun _ => h.pure _
  | .tag n =>
    simp only [Step.exec]
    exact h.bind (h.toLocal.nameRef n) fun _ => h.bind (h.record rfl) fun _ => h.pure _
  | .assign c s =>
    simp only [Step.exec]
    exact h.bind (h.toLocal.classRef c) fun _ => h.bind (h.toLocal.scopeRef here s) fun _ =>
      h.bind (h.record rfl) fun _ => h.pure _
  | .reset =>
    simp only [Step.exec]
    exact h.bind (h.record rfl) fun _ => h.pure _
  | .evaluate c s r =>
    simp only [Step.exec]
    exact h.bind (h.toLocal.classRef c) fun c => h.bind (h.toLocal.scopeRef here s) fun s =>
      h.bind (h.toLocal.resourceRef s r) fun r => h.bind (he c s r) fun _ => h.pure _
  | .includeClass name s r =>
    simp only [Step.exec]
    refine h.bind (h.toLocal.scopeRef here s) fun s => h.bind (h.toLocal.resourceRef s r) fun r =>
      h.now fun m m' ha => ?_
    rw [ha.names]
    cases t.find? m'.names name with
    | none => exact h.unknownClass _
    | some c => exact h.bind (he c s r) fun _ => h.pure _
  | .each steps =>
    simp only [Step.exec]
    exact h.bind (execEach h he here steps) fun _ => h.pure _
  | .fresh step =>
    simp only [Step.exec]
    exact h.evaluator (exec h he here step)
  | .intern _ | .findName _ | .spell _ | .countNames | .findClass _ | .findClassNamed _
  | .describeClass _ | .listClasses | .parentOf _ | .lineage _ | .inherits _ _ | .describeScope _
  | .ancestors _ | .addNamespace _ _ | .bind _ _ _ | .lookup _ _ | .lookupLocal _ _ | .isTagged _
  | .classScope _ | .isEvaluated _ | .describeState | .fail _ =>
    exact h.toLocal.exec evaluate' here rfl

theorem execEach (h : StepCongruence t Rel)
    (he : ∀ c s r, Rel (Option Output) (evaluate c s r) (evaluate' c s r)) (here : ScopeId)
    (steps : List Step) :
    Rel (List Reply) (execEach t evaluate here steps) (execEach t evaluate' here steps) := by
  match steps with
  | [] =>
    simp only [ConfigClasses.execEach]
    exact h.pure _
  | step :: steps =>
    simp only [ConfigClasses.execEach]
    exact h.bind (h.answering (exec h he here step)) fun _ =>
      h.bind (execEach h he here steps) fun _ => h.pure _

end

theorem execAll (h : StepCongruence t Rel)
    (he : ∀ c s r, Rel (Option Output) (evaluate c s r) (evaluate' c s r)) (here : ScopeId)
    (body : Body) :
    Rel (List Reply) (execAll t evaluate here body) (execAll t evaluate' here body) := by
  induction body with
  | nil => exact h.pure _
  | cons step steps ih =>
    exact h.bind (h.exec evaluate' he here step) fun _ => h.bind ih fun _ => h.pure _

section

variable (h : StepCongruence t Rel) (hexhausted : Rel Output (throw .exhausted) (throw .exhausted))
  (hevaluate : ∀ run : ScopeId → Body → Eval Output, (∀ s b, Rel Output (run s b) (run s b)) →
    ∀ c s r, Rel (Option Output) (t.evaluate run c s r) (t.evaluate run c s r))
include h hexhausted hevaluate

theorem runBody (depth : Nat) (s : ScopeId) (body : Body) :
    Rel Output (t.runBody depth s body) (t.runBody depth s body) := by
  induction depth generalizing s body with
  | zero => exact hexhausted
  | succ depth ih =>
    have hcalls := hevaluate (t.runBody depth) ih
    exact h.bind (h.execAll (t.evaluate (t.runBody depth)) hcalls s body) fun _ => h.pure _

theorem step (depth : Nat) (here : ScopeId) (step : Step) :
    Rel Reply (step.exec t (t.evaluate (t.runBody depth)) here)
      (step.exec t (t.evaluate (t.runBody depth)) here) := by
  have hcalls := hevaluate (t.runBody depth) (h.runBody hexhausted hevaluate depth)
  exact h.exec (t.evaluate (t.runBody depth)) hcalls here step

theorem each (depth : Nat) (here : ScopeId) (steps : List Step) :
    Rel (List Reply) (ConfigClasses.execEach t (t.evaluate (t.runBody depth)) here steps)
      (ConfigClasses.execEach t (t.evaluate (t.runBody depth)) here steps) := by
  have hcalls := hevaluate (t.runBody depth) (h.runBody hexhausted hevaluate depth)
  exact h.execEach (t.evaluate (t.runBody depth)) hcalls here steps

end

end StepCongruence

end

namespace Congruence

section

variable {t : ClassTable Body} (h : Congruence t Rel)
include h

theorem calls (run : ScopeId → Body → Eval Output) (hrun : ∀ s b, Rel Output (run s b) (run s b))
    (c : ClassId) (s : ScopeId) (r : Option Resource) :
    Rel (Option Output) (t.evaluate run c s r) (t.evaluate run c s r) :=
  h.evaluate run (fun c s b => h.during (.body c s) (hrun s b)) c s r

variable (hexhausted : Rel Output (throw .exhausted) (throw .exhausted)) (depth : Nat)
  (here : ScopeId)
include hexhausted

theorem step (step : Step) :
    Rel Reply (step.exec t (t.evaluate (t.runBody depth)) here)
      (step.exec t (t.evaluate (t.runBody depth)) here) :=
  h.steps.step hexhausted h.calls depth here step

theorem each (steps : List Step) :
    Rel (List Reply) (execEach t (t.evaluate (t.runBody depth)) here steps)
      (execEach t (t.evaluate (t.runBody depth)) here steps) :=
  h.steps.each hexhausted h.calls depth here steps

end

variable {t : ClassTable Body} (h : Congruence t Rel) {run : ScopeId → Body → Eval Output}
  (run' : ScopeId → Body → Eval Output)
  (hrun : ∀ c s b,
    Rel Output (Eval.during (.body c s) (run s b)) (Eval.during (.body c s) (run' s b)))
include h hrun

theorem exec (here : ScopeId) (step : Step) :
    Rel Reply (step.exec t (t.evaluate run) here) (step.exec t (t.evaluate run') here) :=
  h.steps.exec (t.evaluate run') (h.evaluate run' hrun) here step

theorem execAll (here : ScopeId) (body : Body) :
    Rel (List Reply) (execAll t (t.evaluate run) here body) (execAll t (t.evaluate run') here body) :=
  h.steps.execAll (t.evaluate run') (h.evaluate run' hrun) here body

end Congruence

end Eval

end ConfigClasses

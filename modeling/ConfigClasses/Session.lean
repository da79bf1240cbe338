import ConfigClasses.Step.Execution

namespace ConfigClasses

structure Registry where
  table : ClassTable Body
  interner : Nat

instance : Inhabited Registry := ⟨⟨.empty, 0⟩⟩

structure Session where
  interners : Array Interner
  registries : Array Registry
  compilations : Array Compilation
  current : Nat
  active : Nat

inductive Command where
  | define (name : String) (parent : Option String) (body : Option Body)
  | defineChain (stem : String) (length : Nat) (body : Option Body)
  | newTable (ownNames : Bool)
  | useTable (index : Nat)
  | newCompilation
  | useCompilation (index : Nat)
  | step (step : Step)
deriving Repr

inductive Ending where
  | reply (r : Reply)
  | stray
  | exhausted
deriving Repr

structure Counts where
  scopes : Nat
  evaluated : Nat
  tags : Nat
  classes : Nat
  names : Nat
deriving DecidableEq, Repr

structure Report where
  current : Nat
  active : Nat
  ending : Ending
  events : List Event
  counts : Counts
deriving Repr

def startsOf (events : List Event) : List (ClassId × ScopeId) :=
  events.filterMap fun
    | .opened (.body c s) => some (c, s)
    | _ => none

/-- How many bodies may run one inside another. Without a reset, no class is among them twice. -/
def depthFor (t : ClassTable Body) : Nat := t.size + Nat.pow 2 32

def Step.start (t : ClassTable Body) (depth : Nat) (m : Moment) (step : Step) : Ending × Trace :=
  match Eval.during .evaluator (step.exec t (t.evaluate (t.runBody depth)) .top) ⟨m, []⟩ with
  | .ok r tr => (.reply r, tr)
  | .error (.failure f) tr => (.reply (.failed f (f.message? t tr.now.names)), tr)
  | .error .stray tr => (.stray, tr)
  | .error .exhausted tr => (.exhausted, tr)

def defineFrom (stem : String) (body : Option Body) :
    Nat → Nat → Option ClassId → ClassTable Body → Interner →
      Except TableError (Option ClassId) × ClassTable Body × Interner
  | 0, _, last, t, names => (.ok last, t, names)
  | left + 1, i, _, t, names =>
    let parent := if i = 0 then none else some (stem ++ toString (i - 1))
    match t.define names (stem ++ toString i) parent body with
    | (.ok c, t, names) => defineFrom stem body left (i + 1) (some c) t names
    | (.error e, t, names) => (.error e, t, names)

namespace Session

def initial : Session := ⟨#[.initial], #[⟨.empty, 0⟩], #[.initial], 0, 0⟩

def registry (s : Session) : Registry := s.registries.getD s.current default

def names (s : Session) : Interner := s.interners.getD s.registry.interner default

def compilation (s : Session) : Compilation := s.compilations.getD s.active default

def counts (s : Session) : Counts where
  scopes := s.compilation.tree.size
  evaluated := s.compilation.evaluated.size
  tags := s.compilation.tags.size
  classes := s.registry.table.size
  names := s.names.size

def state (s : Session) : StateView := s.compilation.view s.names

def withNames (s : Session) (names : Interner) : Session :=
  { s with interners := s.interners.setIfInBounds s.registry.interner names }

def withTable (s : Session) (t : ClassTable Body) : Session :=
  { s with registries := s.registries.setIfInBounds s.current { s.registry with table := t } }

def withCompilation (s : Session) (k : Compilation) : Session :=
  { s with compilations := s.compilations.setIfInBounds s.active k }

def moment (s : Session) : Moment := ⟨s.names, s.compilation, []⟩

def declare (s : Session) :
    Except TableError (Option ClassId) × ClassTable Body × Interner → Ending × Session
  | (.ok c, t, names) => (.reply (.cls c), (s.withTable t).withNames names)
  | (.error e, t, names) =>
    (.reply (.failed (.table e) (e.message t names)), (s.withTable t).withNames names)

def newTable (s : Session) (ownNames : Bool) : Session :=
  if ownNames then
    { s with
      interners := s.interners.push .initial
      registries := s.registries.push ⟨.empty, s.interners.size⟩
      current := s.registries.size }
  else
    { s with
      registries := s.registries.push ⟨.empty, s.registry.interner⟩
      current := s.registries.size }

def newCompilation (s : Session) : Session :=
  { s with compilations := s.compilations.push .initial, active := s.compilations.size }

def perform (s : Session) : Command → Ending × List Event × Session
  | .define name parent body =>
    let (c, t, names) := s.registry.table.define s.names name parent body
    let (ending, s) := s.declare (c.map some, t, names)
    (ending, [], s)
  | .defineChain stem length body =>
    let (ending, s) := s.declare (defineFrom stem body length 0 none s.registry.table s.names)
    (ending, [], s)
  | .newTable ownNames => (.reply (.index s.registries.size), [], s.newTable ownNames)
  | .useTable index =>
    if index < s.registries.size then (.reply .done, [], { s with current := index })
    else (.stray, [], s)
  | .newCompilation => (.reply (.index s.compilations.size), [], s.newCompilation)
  | .useCompilation index =>
    if index < s.compilations.size then (.reply .done, [], { s with active := index })
    else (.stray, [], s)
  | .step step =>
    let (ending, tr) := step.start s.registry.table (depthFor s.registry.table) s.moment
    (ending, tr.journal.reverse,
      (s.withNames tr.now.names).withCompilation tr.now.compilation)

def report (s : Session) (command : Command) : Report × Session :=
  let (ending, events, next) := s.perform command
  (⟨s.current, s.active, ending, events, next.counts⟩, next)

def run (s : Session) : List Command → List Report × Session
  | [] => ([], s)
  | command :: commands =>
    let (report, next) := s.report command
    match report.ending with
    | .reply _ =>
      let (reports, last) := next.run commands
      (report :: reports, last)
    | _ => ([report], next)

end Session

end ConfigClasses

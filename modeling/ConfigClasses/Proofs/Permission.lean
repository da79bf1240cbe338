import ConfigClasses.Journal
import ConfigClasses.Proofs.Lineage

/-!
What may happen next in a run over a class table. A permission depends on the activities under way,
on the compilation, and on the last event, so that what holds of every run is proved event by event.
-/

namespace ConfigClasses

def RunsSteps : List Activity → Prop
  | .evaluator :: _ | .body _ _ :: _ => True
  | _ => False

def errand : List Activity → Option (ScopeId × Resource)
  | .call _ caller (some r) :: _ => some (caller, r)
  | .ascent _ :: stack => errand stack
  | _ => none

/-- The scope `s` is what a class gets inside `outer`: for the main resource `outer` itself, else
the newest scope of the tree. -/
def ScopeTree.Suits (t : ScopeTree) (outer : ScopeId) (r : Resource) (s : ScopeId) : Prop :=
  if r.IsMain then s = outer
  else s.raw + 1 = t.size ∧ t.parent? s = some outer ∧ (t.find? s).bind Scope.resource = some r

namespace Trace

def Paused (tr : Trace) : Prop :=
  tr.now.stack = [] ∧ ∀ e ∈ tr.journal.head?, e = .closed .evaluator

end Trace

namespace ClassTable

variable {β : Type} (t : ClassTable β)

def body? (c : ClassId) : Option β := (t.decl? c).bind ClassDecl.body

def Awaits (c : ClassId) : List Activity → Prop
  | .call d _ (some _) :: _ => d = c
  | .ascent d :: _ => t.parentOf d = .ok (some c)
  | _ => False

def Outer (k : Compilation) (c : ClassId) (caller outer : ScopeId) : Prop :=
  (t.parentOf c = .ok none ∧ outer = caller) ∨
    ∃ p, t.parentOf c = .ok (some p) ∧ k.classScope p = some outer

def Belongs (m : Moment) (c : ClassId) (s : ScopeId) : Prop :=
  ∃ caller r outer, errand m.stack = some (caller, r) ∧ t.Outer m.compilation c caller outer ∧
    m.compilation.tree.Suits outer r s

def AllowsRaised (tr : Trace) : EvaluationError → Prop
  | .missingResource c => ∃ caller, tr.now.stack.head? = some (.call c caller none)
  | .parentScopeMissing c p =>
    tr.now.stack.head? = some (.ascent c) ∧ t.parentOf c = .ok (some p) ∧
      tr.now.compilation.classScope p = none ∧
      ∃ s, tr.journal.head? = some (.placed p s) ∨ tr.journal.head? = some (.closed (.body p s))
  | .reentrant c =>
    t.Awaits c tr.now.stack ∧ ¬ tr.now.compilation.IsEvaluated c ∧ isPending c tr.now.stack = true
  | .table e =>
    (∃ text, e = .unknownClass text) ∧ RunsSteps tr.now.stack ∨
      ∃ c caller r, tr.now.stack.head? = some (.call c caller (some r)) ∧ t.lineage c = .error e

def Allows (tr : Trace) : Event → Prop
  | .opened .evaluator => tr.now.stack = [] ∨ RunsSteps tr.now.stack
  | .opened (.call _ _ _) => RunsSteps tr.now.stack
  | .opened (.ascent c) =>
    t.Awaits c tr.now.stack ∧ (∃ cs, t.Ancestry c cs) ∧
      (∃ d, t.decl? c = some d ∧ tr.now.compilation.IsTagged d.name) ∧
      ¬ tr.now.compilation.IsEvaluated c ∧ isPending c tr.now.stack = false
  | .opened (.body c s) =>
    t.Awaits c tr.now.stack ∧ tr.journal.head? = some (.placed c s) ∧ (t.body? c).isSome
  | .closed a => tr.now.stack.head? = some a
  | .interned _ | .assigned _ _ | .reset => RunsSteps tr.now.stack
  | .tagged name =>
    RunsSteps tr.now.stack ∨
      ∃ c d, t.Awaits c tr.now.stack ∧ t.decl? c = some d ∧ name = d.name
  | .nested none outer _ => RunsSteps tr.now.stack ∧ outer.raw < tr.now.compilation.tree.size
  | .nested (some c) outer r =>
    tr.now.stack.head? = some (.ascent c) ∧ outer.raw < tr.now.compilation.tree.size ∧ ¬ r.IsMain ∧
      ∃ caller, errand tr.now.stack = some (caller, r) ∧
        t.Outer tr.now.compilation c caller outer
  | .namespaceAdded s _ =>
    s.raw < tr.now.compilation.tree.size ∧
      (RunsSteps tr.now.stack ∨
        ∃ c, tr.now.stack.head? = some (.ascent c) ∧ t.Belongs tr.now c s)
  | .bound s x _ =>
    RunsSteps tr.now.stack ∧ s.raw < tr.now.compilation.tree.size ∧
      tr.now.compilation.tree.lookupLocal s x = none
  | .placed c s =>
    t.Awaits c tr.now.stack ∧ tr.journal.head? = some (.closed (.ascent c)) ∧ t.Belongs tr.now c s
  | .raised e => t.AllowsRaised tr e

def NothingDue (tr : Trace) : Prop :=
  ∀ c s, tr.journal.head? = some (.placed c s) → t.body? c = none

/-- Once a class with a body has its scope, nothing but the start of the body may happen. -/
def Permits (tr : Trace) (e : Event) : Prop :=
  ((∃ c s, e = .opened (.body c s)) ∨ t.NothingDue tr) ∧ t.Allows tr e

inductive Path (tr : Trace) : Trace → Prop
  | refl : Path tr tr
  | record {tr' : Trace} {e : Event} (h : Path tr tr') (he : t.Permits tr' e) :
      Path tr (tr'.record e)

variable {t}

theorem Path.trans {tr tr' tr'' : Trace} (h : t.Path tr tr') (h' : t.Path tr' tr'') :
    t.Path tr tr'' := by
  induction h' with
  | refl => exact h
  | record _ he ih => exact ih.record he

theorem Permits.path {tr : Trace} {e : Event} (h : t.Permits tr e) : t.Path tr (tr.record e) :=
  Path.refl.record h

theorem Permits.append {tr : Trace} {e : Event} (h : t.Permits tr e) {past : List Event}
    (hp : ∀ x ∈ past.head?, x = .closed .evaluator) :
    t.Permits ⟨tr.now, tr.journal ++ past⟩ e := by
  obtain ⟨m, journal⟩ := tr
  cases journal with
  | cons x journal => exact h
  | nil =>
    have hdue : t.NothingDue ⟨m, past⟩ := fun c s hc => by cases hp _ hc
    refine ⟨.inr hdue, ?_⟩
    obtain ⟨-, h⟩ := h
    cases e with
    | opened a =>
      cases a with
      | body c s => simp [Allows] at h
      | _ => exact h
    | placed c s => simp [Allows] at h
    | nested owner outer r => cases owner <;> exact h
    | raised err =>
      cases err with
      | parentScopeMissing c p => simp [Allows, AllowsRaised] at h
      | _ => exact h
    | _ => exact h

theorem Path.append {m : Moment} {tr : Trace} (h : t.Path ⟨m, []⟩ tr) {past : List Event}
    (hp : ∀ x ∈ past.head?, x = .closed .evaluator) :
    t.Path ⟨m, past⟩ ⟨tr.now, tr.journal ++ past⟩ := by
  induction h with
  | refl => exact .refl
  | record _ he ih => exact ih.record (he.append hp)

/-- Whatever a compilation goes through from its beginning: one command after another, each over
the table that `Next` leads to, and with any names. -/
inductive Chronicle (Next : ClassTable β → ClassTable β → Prop) : ClassTable β → Trace → Prop
  | start (t : ClassTable β) (names : Interner) : Chronicle Next t ⟨⟨names, .initial, []⟩, []⟩
  | record {t : ClassTable β} {tr : Trace} {e : Event} (h : Chronicle Next t tr)
      (he : t.Permits tr e) : Chronicle Next t (tr.record e)
  | resume {t t' : ClassTable β} {tr : Trace} (h : Chronicle Next t tr) (hp : tr.Paused)
      (ht : Next t t') (names : Interner) : Chronicle Next t' ⟨{ tr.now with names }, tr.journal⟩

theorem Chronicle.follow {Next : ClassTable β → ClassTable β → Prop} {tr tr' : Trace}
    (h : Chronicle Next t tr) (hp : t.Path tr tr') : Chronicle Next t tr' := by
  induction hp with
  | refl => exact h
  | record _ he ih => exact ih.record he

end ClassTable

end ConfigClasses

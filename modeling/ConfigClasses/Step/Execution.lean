import ConfigClasses.Evaluation
import ConfigClasses.Reply
import ConfigClasses.Step

namespace ConfigClasses

open Eval

def Eval.intern (text : String) : Eval Name := do
  record (.interned text)
  return ((← now).names.find? text).getD .empty

def NameRef.resolve : NameRef → Eval Name
  | number n => return n
  | text s => intern s

section

variable {β : Type} (t : ClassTable β)

def classNamed (name : String) : Eval ClassId := do
  match t.find? (← now).names name with
  | none => fail .noClass
  | some c => return c

def ClassRef.resolve : ClassRef → Eval ClassId
  | number c => return c
  | named name => classNamed t name

def ScopeRef.resolve (here : ScopeId) : ScopeRef → Eval ScopeId
  | .here => return here
  | number s => return s
  | top => return .top
  | around => do
    match (← scopeAt here).parent with
    | none => fail .noScope
    | some s => return s
  | ofClass name => do
    let c ← classNamed t name
    match (← compilation).classScope c with
    | none => fail .noScope
    | some s => return s

def ResourceRef.resolve (s : ScopeId) : ResourceRef → Eval (Option Resource)
  | ofScope => return (← scopeAt s).resource
  | none => return .none
  | main type => return some ⟨← type.resolve, .main⟩
  | titled type title => return some ⟨← type.resolve, .named (← title.resolve)⟩

def bindIn (s : ScopeId) (x : Name) (v : Value) : Eval Unit := do
  match (← scopeAt s).bindings[x]? with
  | some _ => fail (.rebinding x)
  | none => record (.bound s x v)

def answering (act : Eval Reply) : Eval Reply := fun tr =>
  match act tr with
  | .error (.failure f) tr => .ok (.failed f (f.message? t tr.now.names)) tr
  | result => result

end

section

variable (t : ClassTable Body) (evaluate : ClassId → ScopeId → Option Resource → Eval (Option Output))

mutual

def Step.exec (here : ScopeId) : Step → Eval Reply
  | .intern text => return .name (← Eval.intern text)
  | .findName text => return .name ((← now).names.find? text)
  | .spell n => do
    let n ← n.resolve
    return .spelling ((← now).names.text n) n
  | .countNames => do
    let names := (← now).names
    return .names names.size names.IsPristine
  | .findClass name => return .cls (t.find? (← now).names name)
  | .findClassNamed n => return .cls (t.findName? (← n.resolve))
  | .describeClass c => do
    let c ← c.resolve t
    let d ← t.declAt c
    return .classView (d.view (← now).names c)
  | .listClasses => return .declared (t.declared (← now).names)
  | .parentOf c => do
    let c ← c.resolve t
    let _ ← t.declAt c
    match t.parentOf c with
    | .ok p => return .cls p
    | .error e => Eval.fail (.table e)
  | .lineage c => do
    let c ← c.resolve t
    let _ ← t.declAt c
    match t.lineage c with
    | .ok above => return .classes above
    | .error e => Eval.fail (.table e)
  | .inherits c ancestor => do
    let c ← c.resolve t
    let a ← ancestor.resolve t
    let _ ← t.declAt c
    return .flag (t.inherits c a)
  | .nest s r => do
    let s ← s.resolve t here
    match ← r.resolve s with
    | none => Eval.fail .noResource
    | some r => return .scope (← Eval.nest none s r)
  | .describeScope s => do
    let s ← s.resolve t here
    let scope ← scopeAt s
    return .scopeView (scope.view (← now).names s)
  | .ancestors s => do
    let s ← s.resolve t here
    let _ ← scopeAt s
    return .scopes ((← compilation).tree.ancestors s)
  | .addNamespace s ns => do
    let s ← s.resolve t here
    let ns ← ns.resolve
    let _ ← scopeAt s
    record (.namespaceAdded s ns)
    return .done
  | .bind s x v => do
    let s ← s.resolve t here
    let x ← x.resolve
    bindIn s x v
    return .done
  | .lookup s x => do
    let s ← s.resolve t here
    let x ← x.resolve
    let _ ← scopeAt s
    return .value ((← compilation).tree.lookup s x)
  | .lookupLocal s x => do
    let s ← s.resolve t here
    let x ← x.resolve
    return .value (← scopeAt s).bindings[x]?
  | .tag n => do
    record (.tagged (← n.resolve))
    return .done
  | .isTagged n => do
    let n ← n.resolve
    return .flag ((← compilation).IsTagged n)
  | .assign c s => do
    let c ← c.resolve t
    let s ← s.resolve t here
    record (.assigned c s)
    return .done
  | .classScope c => do
    let c ← c.resolve t
    return .scope ((← compilation).classScope c)
  | .isEvaluated c => do
    let c ← c.resolve t
    return .flag ((← compilation).IsEvaluated c)
  | .reset => do
    record .reset
    return .done
  | .describeState => do
    let m ← now
    return .stateView (m.compilation.view m.names)
  | .evaluate c s r => do
    let c ← c.resolve t
    let s ← s.resolve t here
    let r ← r.resolve s
    return .output (← evaluate c s r)
  | .includeClass name s r => do
    let s ← s.resolve t here
    let r ← r.resolve s
    match t.find? (← now).names name with
    | none => raise (.table (.unknownClass (ClassName.normalize name)))
    | some c => return .output (← evaluate c s r)
  | .each steps => return .each (← execEach here steps)
  | .fresh step => during .evaluator (step.exec here)
  | .fail message => Eval.fail (.body message)

def execEach (here : ScopeId) : List Step → Eval (List Reply)
  | [] => return []
  | step :: steps => do
    let reply ← answering t (step.exec here)
    return reply :: (← execEach here steps)

end

def execAll (here : ScopeId) : List Step → Eval (List Reply)
  | [] => return []
  | step :: steps => do
    let reply ← step.exec t evaluate here
    return reply :: (← execAll here steps)

end

def ClassTable.runBody (t : ClassTable Body) : Nat → ScopeId → Body → Eval Output
  | 0 => fun _ _ => throw .exhausted
  | depth + 1 => fun s body => return (s, ← execAll t (t.evaluate (t.runBody depth)) s body)

end ConfigClasses

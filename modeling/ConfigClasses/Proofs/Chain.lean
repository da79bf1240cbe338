import ConfigClasses.Proofs.QuietBody
import ConfigClasses.Proofs.Refusal

namespace ConfigClasses

open Eval

namespace ScopeTree

/-- The scope of the `n`th class of a chain that starts from `base`, when the chain is built in this
tree. -/
def rung (t : ScopeTree) (base : ScopeId) (r : Resource) : Nat → ScopeId
  | 0 => base
  | n + 1 => if r.IsMain then base else ⟨t.size + n⟩

theorem rung_of_isMain {t : ScopeTree} {r : Resource} (hr : r.IsMain) (base : ScopeId) (n : Nat) :
    t.rung base r n = base := by
  cases n with
  | zero => rfl
  | succ n => exact if_pos hr

theorem exists_find? {t : ScopeTree} {s : ScopeId} (h : s.raw < t.size) :
    ∃ scope, t.find? s = some scope :=
  ⟨t.scopes[s.raw], Array.getElem?_eq_getElem h⟩

end ScopeTree

def Trace.starting? (tr : Trace) : Option (ClassId × ScopeId) :=
  match tr.journal.head? with
  | some (.opened (.body c s)) => some (c, s)
  | _ => none

def Trace.AtStart (P : ClassId → ScopeId → Prop) (tr : Trace) : Prop :=
  ∀ p ∈ tr.starting?, P p.1 p.2

instance {P : ClassId → ScopeId → Prop} [∀ c s, Decidable (P c s)] (tr : Trace) :
    Decidable (tr.AtStart P) :=
  inferInstanceAs (Decidable (∀ p ∈ tr.starting?, P p.1 p.2))

def Compilation.baseFor (k : Compilation) (caller : ScopeId) : List ClassId → Option ScopeId
  | [] => some caller
  | p :: _ => k.classScope p

namespace ClassTable

variable {β α : Type} (t : ClassTable β)

/-- The classes of `new` were evaluated for `r` one after another, the first one from `base` and
each other one from the scope of the one before, and the names were tagged. -/
structure Builds (base : ScopeId) (r : Resource) (new : List ClassId) (names : List Name)
    (tr tr' : Trace) : Prop where
  starts : started tr'.journal =
    (new.filter fun a => (t.body? a).isSome).reverse ++ started tr.journal
  evaluated : tr'.now.compilation.evaluated.toList = tr.now.compilation.evaluated.toList ++ new
  tags : tr'.now.compilation.tags.toList =
    tr.now.compilation.tags.toList ++ names.filter (¬ tr.now.compilation.IsTagged ·)
  isTagged : ∀ name, tr'.now.compilation.IsTagged name ↔
    name ∈ names ∨ tr.now.compilation.IsTagged name
  links : tr'.now.compilation.tree.links = tr.now.compilation.tree.links ++
    if r.IsMain then [] else (List.range new.length).map fun n =>
      (some (tr.now.compilation.tree.rung base r n), some r)
  classScope : ∀ n a, new[n]? = some a →
    tr'.now.compilation.classScope a = some (tr.now.compilation.tree.rung base r (n + 1))
  others : ∀ a, a ∉ new → tr'.now.compilation.classScope a = tr.now.compilation.classScope a

variable {t} {base : ScopeId} {r : Resource} {new : List ClassId} {names : List Name}
  {tr tr' : Trace} {c : ClassId}

namespace Builds

theorem refl (tr : Trace) : t.Builds base r [] [] tr tr where
  starts := rfl
  evaluated := by simp
  tags := by simp
  isTagged := by simp
  links := by simp
  classScope := by simp
  others := by simp

variable (h : t.Builds base r new names tr tr')
include h

theorem size : tr'.now.compilation.tree.size =
    tr.now.compilation.tree.size + if r.IsMain then 0 else new.length := by
  have hlength := congrArg List.length h.links
  rw [List.length_append, ScopeTree.length_links, ScopeTree.length_links] at hlength
  rw [hlength]
  split <;> simp

theorem working : tr'.now.compilation.tree.working
      (tr.now.compilation.tree.rung base r new.length) r =
    tr.now.compilation.tree.rung base r (new.length + 1) := by
  unfold ScopeTree.working
  split
  · next hr => rw [ScopeTree.rung_of_isMain hr, ScopeTree.rung_of_isMain hr]
  · next hr => simp only [ScopeTree.next, h.size, ScopeTree.rung, if_neg hr]

theorem classScope_eq_none {a : ClassId} (ha : a ∉ new)
    (hunevaluated : ¬ tr.now.compilation.IsEvaluated a) :
    tr'.now.compilation.classScope a = none := by
  rw [h.others a ha]
  exact Compilation.not_isEvaluated_iff.1 hunevaluated

theorem rung_lt (hbase : base.raw < tr.now.compilation.tree.size) :
    (tr.now.compilation.tree.rung base r new.length).raw < tr'.now.compilation.tree.size := by
  rw [h.size]
  cases new with
  | nil => exact Nat.lt_add_right _ hbase
  | cons a new =>
    simp only [List.length_cons, ScopeTree.rung]
    split
    · exact hbase
    · exact Nat.add_lt_add_left (Nat.lt_succ_self _) _

end Builds

theorem Builds.entered (h : t.Builds base r new names (t.enter tr c) tr')
    (hc : t.nameOf c ∉ names) : t.Builds base r new (t.nameOf c :: names) tr tr' := by
  have htag : (t.enter tr c).now.compilation = tr.now.compilation.tag (t.nameOf c) := rfl
  constructor
  case starts => exact h.starts
  case evaluated => rw [h.evaluated, htag, Compilation.tag_evaluated]
  case tags => rw [h.tags, htag, Compilation.tags_tag_append hc]
  case isTagged =>
    intro name
    rw [h.isTagged, htag, Compilation.isTagged_tag, List.mem_cons, or_assoc, or_left_comm]
  case links => rw [h.links, htag, Compilation.tag_tree]
  case classScope =>
    intro n a ha
    rw [h.classScope n a ha, htag, Compilation.tag_tree]
  case others =>
    intro a ha
    rw [h.others a ha, htag, Compilation.tag_classScope]

theorem started_placed (tr : Trace) (c : ClassId) (outer : ScopeId) (r : Resource) (w : ScopeId)
    (namespaces : List Name) :
    started (tr.follow
        (making c outer r w namespaces ++ [.closed (.ascent c), .placed c w])).journal =
      started tr.journal := by
  refine started_follow ?_
  rintro e he d s rfl
  rcases List.mem_append.1 he with he | he
  · cases isOfMaking_of_mem he
  · simp at he

theorem Builds.placed {tr₁ tr₂ : Trace} {outer w : ScopeId} {namespaces : List Name}
    (h : t.Builds base r new names tr tr₁) (hc : c ∉ new)
    (hnew : ¬ tr.now.compilation.IsEvaluated c)
    (houter : outer = tr.now.compilation.tree.rung base r new.length)
    (hw : w = tr.now.compilation.tree.rung base r (new.length + 1))
    (hran : (tr₁.follow
      (making c outer r w namespaces ++ [.closed (.ascent c), .placed c w])).Leaves
        (if (t.body? c).isSome then [c] else []) tr₂) :
    t.Builds base r (new ++ [c]) names tr tr₂ := by
  obtain ⟨hleft, hlinks, hstarts⟩ := hran
  have hworking : w = tr₁.now.compilation.tree.working outer r := by rw [hw, houter, h.working]
  rw [started_placed] at hstarts
  rw [now_placed tr₁ c outer r namespaces hworking] at hleft hlinks
  generalize htree : tr₁.now.compilation.tree.withWorking outer r namespaces = tree at hleft hlinks
  have hunevaluated : ¬ Compilation.IsEvaluated { tr₁.now.compilation with tree := tree } c :=
    Compilation.not_isEvaluated_iff.2 (h.classScope_eq_none hc hnew)
  have hscope (a : ClassId) : tr₂.now.compilation.classScope a =
      if a = c then some w else tr₁.now.compilation.classScope a :=
    (congrArg (Compilation.classScope · a) hleft).trans
      (Compilation.register_classScope c a w hunevaluated)
  constructor
  case starts =>
    rw [hstarts, h.starts, List.filter_append, List.reverse_append, List.append_assoc]
    split <;> simp [*]
  case evaluated =>
    rw [hleft, Compilation.register, if_neg hunevaluated]
    simp [h.evaluated]
  case tags =>
    rw [hleft, Compilation.register, if_neg hunevaluated]
    exact h.tags
  case isTagged =>
    rw [hleft, Compilation.register, if_neg hunevaluated]
    exact h.isTagged
  case links =>
    rw [hlinks, Compilation.register_tree, ← htree, ScopeTree.links_withWorking, h.links, houter]
    split
    · simp
    · simp [List.range_succ]
  case classScope =>
    intro n a ha
    rcases getElem?_concat_eq_some.1 ha with hold | ⟨rfl, rfl⟩
    · have hne : a ≠ c := fun heq => hc (heq ▸ List.mem_of_getElem? hold)
      rw [hscope, if_neg hne, h.classScope n a hold]
    · rw [hscope, if_pos rfl, hw]
  case others =>
    intro a ha
    obtain ⟨hold, hne⟩ : a ∉ new ∧ a ≠ c := by simpa using ha
    rw [hscope, if_neg hne, h.others a hold]

section Descend

variable (t) {run : ScopeId → β → Eval α} {fails : ClassId → Option Halt} {cs : List ClassId}
  {caller : ScopeId}

/-- If the body of one of the classes has started just now, it will leave alone what quiet bodies
do, and end as `fails` says. -/
def Conforms (run : ScopeId → β → Eval α) (fails : ClassId → Option Halt) (cs : List ClassId)
    (tr : Trace) : Prop :=
  tr.AtStart fun a s => a ∈ cs → ∀ b ∈ t.body? a,
    (run s b).halt? tr = fails a ∧ tr.Leaves [] ((run s b).final tr)

structure Yields (run : ScopeId → β → Eval α) (c : ClassId) (act : Eval (Option α)) (tr : Trace) :
    Prop where
  bodiless : t.body? c = none → act.answer tr = .ok none
  body : ∀ b, t.body? c = some b → ∃ s, (act.final tr).now.compilation.classScope c = some s ∧
    ∃ tr' ∈ act.course tr, tr'.starting? = some (c, s) ∧
      act.answer tr = ((run s b).answer tr').map some

variable {t}

theorem launch_of_conforms {s : ScopeId} (hc : c ∈ cs)
    (h : ∀ b, t.body? c = some b → t.Conforms run fails cs (tr.record (.opened (.body c s)))) :
    tr.Leaves (if (t.body? c).isSome then [c] else []) ((t.launch run c s).final tr) ∧
      (t.launch run c s).halt? tr = (t.body? c).bind fun _ => fails c := by
  unfold launch
  cases hb : t.body? c with
  | none => exact ⟨.refl tr, rfl⟩
  | some b =>
    obtain ⟨hhalt, hcompilation, hlinks, hstarts⟩ := h b hb (c, s) rfl hc b hb
    simp only [final_map, final_during]
    exact ⟨⟨hcompilation, hlinks, hstarts⟩, by simp [halt?_map, halt?_during, hhalt]⟩

theorem settle_builds {above : List ClassId} {outer w : ScopeId} {namespaces : List Name}
    {tr₁ : Trace}
    (hrun : ∀ s b, Contained (run s b)) (hclear : t.Clear tr [c])
    (hbuilds : t.Builds base r new names (t.enter tr c) tr₁)
    (houter : outer = tr.now.compilation.tree.rung base r new.length)
    (hw : w = tr.now.compilation.tree.rung base r (new.length + 1))
    (hplace : t.placing run caller r c above (t.enter tr c) =
      .ok w (tr₁.follow (making c outer r w namespaces)))
    (hnew : c ∉ new) (hname : t.nameOf c ∉ names) (hc : c ∈ cs)
    (hends : (t.descend run caller r above c).Along tr (t.Conforms run fails cs)) :
    let act := t.descend run caller r above c
    t.Builds base r (new ++ [c]) (t.nameOf c :: names) tr (act.final tr) ∧ t.Yields run c act tr ∧
      act.halt? tr = (t.body? c).bind fun _ => fails c := by
  intro act
  let granted := (tr₁.follow (making c outer r w namespaces)).follow
    [.closed (.ascent c), .placed c w]
  have hgranted : granted = tr₁.follow
      (making c outer r w namespaces ++ [.closed (.ascent c), .placed c w]) :=
    (Trace.follow_append _ _).symm
  have hact : act tr = t.launch run c w granted := descend_of_placing hclear hplace
  have hfinal : act.final tr = (t.launch run c w).final granted := by simp only [final, hact]
  have hstart {P : Trace → Prop} (h : act.Along tr P) (b : β) (hb : t.body? c = some b) :
      P (granted.record (.opened (.body c w))) := along_body hrun hclear h hplace hb
  obtain ⟨hleaves, hhalt⟩ := launch_of_conforms hc (hstart hends)
  have hbuilt : t.Builds base r (new ++ [c]) (t.nameOf c :: names) tr (act.final tr) := by
    have htree : (t.enter tr c).now.compilation.tree = tr.now.compilation.tree :=
      Compilation.tag_tree _
    have hunevaluated : ¬ (t.enter tr c).now.compilation.IsEvaluated c :=
      mt (Compilation.tag_isEvaluated _ c).1 (hclear.unevaluated c List.mem_cons_self)
    rw [← htree] at houter hw
    rw [hgranted] at hleaves
    rw [hfinal, hgranted]
    exact (hbuilds.placed hnew hunevaluated houter hw hleaves).entered hname
  refine ⟨hbuilt, ⟨fun hb => ?_, fun b hb => ?_⟩, ?_⟩
  · simp only [answer, hact, launch, hb]
    rfl
  · have hscope : (act.final tr).now.compilation.classScope c = some w := by
      rw [hw]
      exact hbuilt.classScope new.length c (by simp)
    refine ⟨w, hscope, granted.record (.opened (.body c w)), hstart (fun _ h => h) b hb, rfl, ?_⟩
    have hanswer : act.answer tr = (t.launch run c w).answer granted := by simp only [answer, hact]
    simp only [hanswer, launch, hb, answer_map, answer_during]
  · have hhalt' : act.halt? tr = (t.launch run c w).halt? granted := by simp only [halt?, hact]
    rw [hhalt', hhalt]

variable {rest : List ClassId}

theorem baseFor_ascend (tr : Trace) (cs : List ClassId) (caller : ScopeId) (rest : List ClassId) :
    (t.ascend tr cs).now.compilation.baseFor caller rest =
      tr.now.compilation.baseFor caller rest := by
  rw [ascend_now]
  cases rest with
  | nil => rfl
  | cons p rest => exact Compilation.tagAll_classScope p

theorem placing_of_baseFor (run : ScopeId → β → Eval α) (c : ClassId)
    (hbase : tr.now.compilation.baseFor caller rest = some base)
    (hin : base.raw < tr.now.compilation.tree.size) :
    ∃ namespaces, t.placing run caller r c rest tr = .ok (tr.now.compilation.tree.working base r)
      (tr.follow (making c base r (tr.now.compilation.tree.working base r) namespaces)) := by
  obtain ⟨scope, hscope⟩ := ScopeTree.exists_find? hin
  cases rest with
  | nil =>
    obtain rfl : caller = base := Option.some.inj hbase
    rcases nestFor_cases c caller r tr with h | ⟨-, hnone⟩
    · exact ⟨[], h⟩
    · cases hscope.symm.trans hnone
  | cons p rest =>
    have hparent : t.descend run caller r rest p tr = .ok none tr := by
      rw [descend_eq]
      exact settle_of_isEvaluated (Compilation.isEvaluated_of_classScope hbase)
    exact ⟨scope.namespaces, (bind_of_ok hparent).trans (nestBelow_of_find? c r hbase hscope)⟩

theorem placing_of_builds (c : ClassId) {p : ClassId} {above : List ClassId} {x : Option α}
    {tr₁ : Trace}
    (hparent : t.descend run caller r above p tr = .ok x tr₁)
    (hbuilds : t.Builds base r (new ++ [p]) names tr tr₁)
    (hin : base.raw < tr.now.compilation.tree.size) :
    let outer := tr.now.compilation.tree.rung base r (new ++ [p]).length
    let w := tr.now.compilation.tree.rung base r ((new ++ [p]).length + 1)
    ∃ namespaces, t.placing run caller r c (p :: above) tr =
      .ok w (tr₁.follow (making c outer r w namespaces)) := by
  intro outer w
  have hp : tr₁.now.compilation.classScope p = some outer := by
    simp only [outer, List.length_append, List.length_singleton]
    exact hbuilds.classScope new.length p (by simp)
  obtain ⟨scope, hscope⟩ := ScopeTree.exists_find? (hbuilds.rung_lt hin)
  have hmade := nestBelow_of_find? c r hp hscope
  rw [hbuilds.working] at hmade
  exact ⟨scope.namespaces, (bind_of_ok hparent).trans hmade⟩

theorem descend_builds (hrun : ∀ s b, Contained (run s b)) (ht : t.Indexed) {mid : List ClassId}
    (hclear : t.Clear tr (c :: mid)) (hbase : tr.now.compilation.baseFor caller rest = some base)
    (hin : base.raw < tr.now.compilation.tree.size)
    (hends : (t.descend run caller r (mid ++ rest) c).Along tr (t.Conforms run fails (c :: mid)))
    (hfails : ∀ a ∈ mid, fails a = none) :
    let act := t.descend run caller r (mid ++ rest) c
    t.Builds base r (c :: mid).reverse ((c :: mid).map t.nameOf) tr (act.final tr) ∧
      t.Yields run c act tr ∧ act.halt? tr = (t.body? c).bind fun _ => fails c := by
  have htree : (t.enter tr c).now.compilation.tree = tr.now.compilation.tree :=
    Compilation.tag_tree _
  have hbase' : (t.enter tr c).now.compilation.baseFor caller rest = some base :=
    (t.baseFor_ascend tr [c] caller rest).trans hbase
  have hin' : base.raw < (t.enter tr c).now.compilation.tree.size := htree ▸ hin
  -- To enter a class changes neither the scopes nor where the chain starts from, so that the parent
  -- finds the way down as `c` does.
  induction mid generalizing c tr with
  | nil =>
    obtain ⟨namespaces, hplace⟩ := placing_of_baseFor run c hbase' hin'
    rw [htree] at hplace
    exact settle_builds hrun hclear (.refl _) rfl rfl hplace List.not_mem_nil List.not_mem_nil
      List.mem_cons_self hends
  | cons p mid ih =>
    have hends' := (along_parent hrun hclear.head hends).imp
      fun tr' h p hp ha => h p hp (List.mem_cons_of_mem c ha)
    obtain ⟨hbuilds, -, hhalt⟩ := ih hclear.tail hbase' hin' hends'
      (fun a ha => hfails a (List.mem_cons_of_mem p ha)) (Compilation.tag_tree _)
      ((t.baseFor_ascend _ [p] caller rest).trans hbase') ((Compilation.tag_tree _).symm ▸ hin')
    have hnone : (t.descend run caller r (mid ++ rest) p).halt? (t.enter tr c) = none := by
      rw [hhalt, hfails p List.mem_cons_self]
      cases t.body? p <;> rfl
    obtain ⟨x, tr₁, hparent⟩ := halt?_eq_none.1 hnone
    rw [final_of_ok hparent, List.reverse_cons] at hbuilds
    obtain ⟨namespaces, hplace⟩ := placing_of_builds c hparent hbuilds hin'
    rw [htree] at hplace
    have hnodup := ht.nodup_names hclear.declared hclear.nodup
    rw [List.map_cons, List.nodup_cons] at hnodup
    have hnew : c ∉ mid.reverse ++ [p] := by
      rw [← List.reverse_cons, List.mem_reverse]
      exact (List.nodup_cons.1 hclear.nodup).1
    rw [List.reverse_cons, List.reverse_cons, List.map_cons]
    exact settle_builds hrun hclear.head hbuilds rfl rfl hplace hnew hnodup.1 List.mem_cons_self
      hends

end Descend

section Call

variable {run : ScopeId → β → Eval α} {caller : ScopeId} {resource : Option Resource}

theorem Builds.called
    (h : t.Builds base r new names (tr.record (.opened (.call c caller resource))) tr') :
    t.Builds base r new names tr (tr'.record (.closed (.call c caller resource))) :=
  ⟨h.starts, h.evaluated, h.tags, h.isTagged, h.links, h.classScope, h.others⟩

theorem Yields.called {act : Eval (Option α)} (hact : act.Forward)
    (h : t.Yields run c act (tr.record (.opened (.call c caller resource)))) :
    t.Yields run c (during (.call c caller resource) act) tr := by
  constructor
  case bodiless => exact fun hb => (answer_during _).trans (h.bodiless hb)
  case body =>
    intro b hb
    obtain ⟨s, hscope, tr', hcourse, hstarting, hanswer⟩ := h.body b hb
    have hall : (during (.call c caller resource) act).Along tr
        (· ∈ (during (.call c caller resource) act).course tr) := fun _ h => h
    refine ⟨s, ?_, tr', ((along_during _ hact).1 hall).2.1 tr' hcourse, hstarting,
      (answer_during _).trans hanswer⟩
    rw [final_during]
    exact hscope

end Call

section Evaluate

variable {t : ClassTable Body} {depth : Nat} {ps rest : List ClassId} {caller : ScopeId}

def GoesWell (t : ClassTable Body) (depth : Nat) {α : Type} (act : Eval α) (tr : Trace) : Prop :=
  act.Along tr fun tr' => tr'.AtStart fun a s => ∀ b ∈ t.body? a,
    (t.runBody depth s b).halt? tr' = none

instance {α : Type} (act : Eval α) (tr : Trace) : Decidable (t.GoesWell depth act tr) :=
  inferInstanceAs (Decidable (act.Along tr fun tr' => tr'.AtStart fun a s => ∀ b ∈ t.body? a,
    (t.runBody depth s b).halt? tr' = none))

theorem conforms_of_quiet {cs : List ClassId}
    (hquiet : ∀ a ∈ cs, ∀ b ∈ t.body? a, areQuiet b = true)
    (h : tr.AtStart fun a s => ∀ b ∈ t.body? a, (t.runBody depth s b).halt? tr = none) :
    t.Conforms (t.runBody depth) (fun _ => none) cs tr :=
  fun p hp hcs b hb => ⟨h p hp b hb, leaves_runBody (hquiet p.1 hcs b hb)⟩

theorem clear_of_idle {above before : List ClassId} (ht : empty.GrowsTo t)
    (hidle : ∀ a, isPending a tr.now.stack = false) (hc : (t.decl? c).isSome)
    (habove : t.lineage c = .ok above) (hbefore : before <+: c :: above)
    (hnew : ∀ a ∈ before, ¬ tr.now.compilation.IsEvaluated a) : t.Clear tr before := by
  refine (lineage_eq_ok.1 habove).clear ht hc hbefore fun a ha hstops => ?_
  rcases hstops with hevaluated | hpending
  · exact hnew a ha hevaluated
  · simp [hidle a] at hpending

theorem evaluate_builds (ht : empty.GrowsTo t) (hidle : ∀ a, isPending a tr.now.stack = false)
    (hc : (t.decl? c).isSome) (habove : t.lineage c = .ok (ps ++ rest))
    (hnew : ∀ a ∈ c :: ps, ¬ tr.now.compilation.IsEvaluated a)
    (hbase : tr.now.compilation.baseFor caller rest = some base)
    (hin : base.raw < tr.now.compilation.tree.size)
    (hquiet : ∀ a ∈ c :: ps, ∀ b ∈ t.body? a, areQuiet b = true)
    (hwell : t.GoesWell depth (t.evaluate (t.runBody depth) c caller (some r)) tr) :
    let act := t.evaluate (t.runBody depth) c caller (some r)
    ∃ out tr', act tr = .ok out tr' ∧
      t.Builds base r (c :: ps).reverse ((c :: ps).map t.nameOf) tr tr' ∧
      t.Yields (t.runBody depth) c act tr := by
  intro act
  have hrun := contained_runBody t depth
  have hforward := (contained_descend hrun caller r (ps ++ rest) c (t := t)).forward
  let called := tr.record (.opened (.call c caller (some r)))
  have hact : act = during (.call c caller (some r))
      (t.descend (t.runBody depth) caller r (ps ++ rest) c) := evaluate_declared hc habove caller r
  have hclear : t.Clear called (c :: ps) := clear_of_idle ht hidle hc habove ⟨rest, rfl⟩ hnew
  rw [GoesWell, evaluate_declared hc habove, along_during _ hforward] at hwell
  obtain ⟨hbuilds, hyields, hhalt⟩ := descend_builds hrun ht.indexed hclear hbase hin
    (hwell.2.1.imp fun tr' => conforms_of_quiet hquiet) fun _ _ => rfl
  have hnone : act.halt? tr = none := by
    rw [hact, halt?_during, hhalt]
    cases t.body? c <;> rfl
  obtain ⟨out, tr', hok⟩ := halt?_eq_none.1 hnone
  refine ⟨out, tr', hok, ?_, ?_⟩
  · rw [← final_of_ok hok, hact, final_during]
    exact hbuilds.called
  · rw [hact]
    exact hyields.called hforward

end Evaluate

end ClassTable

theorem Trace.Faithful.idle {tr : Trace} (h : tr.Faithful) (hidle : inProgress tr.journal = ∅)
    (c : ClassId) : isPending c tr.now.stack = false := by
  refine Bool.eq_false_iff.2 fun hc => ?_
  have hmem : c ∈ inProgress tr.journal := by
    rw [inProgress, h]
    exact isPending_iff.1 hc
  simp [hidle] at hmem

theorem chain_evaluated (i : Instant) (depth : Nat) {c : ClassId} {ps rest : List ClassId}
    (hidle : inProgress i.trace.journal = ∅) (hc : (i.before.registry.table.decl? c).isSome)
    (habove : i.before.registry.table.lineage c = .ok (ps ++ rest))
    (hnew : ∀ a ∈ c :: ps, ¬ i.moment.compilation.IsEvaluated a) {caller base : ScopeId}
    (hbase : i.moment.compilation.baseFor caller rest = some base)
    (hin : base.raw < i.moment.compilation.tree.size)
    (hquiet : ∀ a ∈ c :: ps, ∀ b ∈ i.before.registry.table.body? a, areQuiet b = true)
    (r : Resource) :
    let t := i.before.registry.table
    let act := t.evaluate (t.runBody depth) c caller (some r)
    t.GoesWell depth act i.trace →
      ∃ out tr', act i.trace = .ok out tr' ∧
        t.Builds base r (c :: ps).reverse ((c :: ps).map t.nameOf) i.trace tr' ∧
        t.Yields (t.runBody depth) c act i.trace := by
  intro t act hwell
  have ht : ClassTable.empty.GrowsTo t := Session.empty_growsTo_tableAt i.done i.before.current
  have hfaithful := i.chronicle_trace.faithful
  exact ClassTable.evaluate_builds ht (hfaithful.idle hidle) hc habove hnew hbase hin hquiet hwell

def halfBuilt : Instant :=
  .upTo
    [.define "base" none (some [.addNamespace .here (.text "net")]),
      .define "web" (some "base") (some [.bind .here (.text "port") .undef]),
      .define "shop" (some "web") none,
      .define "mall" (some "shop")
        (some [.addNamespace .here (.text "lot"), .lookup .here (.text "port")]),
      .step (.evaluate (.named "base") .top (.titled (.number ⟨0⟩) (.number ⟨0⟩)))]
    (.step (.evaluate (.named "mall") .top (.main (.number ⟨0⟩)))) 1

theorem halfBuilt_evaluated :
    let i := halfBuilt
    let t := i.before.registry.table
    let r : Resource := ⟨⟨0⟩, .named ⟨0⟩⟩
    let act := t.evaluate (t.runBody 2) ⟨3⟩ .top (some r)
    t.lineage ⟨3⟩ = .ok [⟨2⟩, ⟨1⟩, ⟨0⟩] ∧ i.moment.compilation.classScope ⟨0⟩ = some ⟨1⟩ ∧
      ∃ out tr', act i.trace = .ok out tr' ∧
        t.Builds ⟨1⟩ r [⟨1⟩, ⟨2⟩, ⟨3⟩] [t.nameOf ⟨3⟩, t.nameOf ⟨2⟩, t.nameOf ⟨1⟩] i.trace tr' ∧
        t.Yields (t.runBody 2) ⟨3⟩ act i.trace := by
  intro i t r act
  have habove : t.lineage ⟨3⟩ = .ok ([⟨2⟩, ⟨1⟩] ++ [⟨0⟩]) := by decide +kernel
  have hbase : i.moment.compilation.baseFor .top [⟨0⟩] = some ⟨1⟩ := by decide +kernel
  have hbodies : ∀ a ∈ [(⟨3⟩ : ClassId), ⟨2⟩, ⟨1⟩], ∀ b ∈ t.body? a, areQuiet b = true := by
    decide +kernel
  exact ⟨habove, hbase, chain_evaluated i 2 (by decide +kernel) (by decide +kernel) habove
    (by decide +kernel) hbase (by decide +kernel) hbodies r (by decide +kernel)⟩

end ConfigClasses

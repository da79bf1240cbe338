import ConfigClasses.Proofs.Descent
import ConfigClasses.Proofs.InternalError
import ConfigClasses.Proofs.Reference
import ConfigClasses.Proofs.Representation

namespace ConfigClasses

open Eval

namespace ClassTable

variable {β α γ : Type} (t : ClassTable β)

/-- The class is called for, or stands above the class `d` that is, and those before it on the way up
are under way. The call gives the scope and the resource. -/
def Serves (c : ClassId) (caller : ScopeId) (r : Resource) (stack : List Activity) : Prop :=
  ∃ (d : ClassId) (ds above : List ClassId) (outside : List Activity), t.lineage d = .ok above ∧
    ds ++ [c] <+: d :: above ∧
      stack = ds.reverse.map .ascent ++ .call d caller (some r) :: outside

def ascents (cs : List ClassId) : List Event :=
  cs.flatMap fun c => [.tagged (t.nameOf c), .opened (.ascent c)]

theorem ascend_eq_follow (tr : Trace) (cs : List ClassId) :
    t.ascend tr cs = tr.follow (t.ascents cs) := by
  induction cs generalizing tr with
  | nil => rfl
  | cons c cs ih => exact ih (t.enter tr c)

/-- Where a class got its scope just now, what went before: the scope was made inside that of the
parent, or inside that of the caller if there is no parent. In the latter case nothing but ascents had
begun since the call. -/
inductive Placed (start : Trace) (c : ClassId) (w : ScopeId) : Trace → Prop
  | top {called before : Trace} {d : ClassId} {caller : ScopeId} {r : Resource} {ds : List ClassId}
      (hc : t.parentOf c = .ok none) (hcalled : start.Reaches called)
      (hbefore : before = t.ascend (called.record (.opened (.call d caller (some r)))) (ds ++ [c]))
      (hserves : t.Serves c caller r before.now.stack.tail)
      (hw : w = before.now.compilation.tree.working caller r) :
      Placed start c w
        (before.follow (making c caller r w [] ++ [.closed (.ascent c), .placed c w]))
  | below {before : Trace} {p : ClassId} {caller outer : ScopeId} {r : Resource} {scope : Scope}
      (hc : t.parentOf c = .ok (some p)) (hbefore : start.Reaches before)
      (hserves : t.Serves c caller r before.now.stack.tail)
      (hp : before.now.compilation.classScope p = some outer)
      (hscope : before.now.compilation.tree.find? outer = some scope)
      (hw : w = before.now.compilation.tree.working outer r) :
      Placed start c w
        (before.follow (making c outer r w scope.namespaces ++
          [.closed (.ascent c), .placed c w]))

def Accounted (start tr : Trace) : Prop :=
  ∀ c w, tr.journal.head? = some (.placed c w) → t.Placed start c w tr

variable {t} {start tr : Trace}

theorem accounted_of_head {e : Event} (hhead : tr.journal.head? = some e)
    (he : ∀ c w, e ≠ .placed c w) : t.Accounted start tr :=
  fun c w hplaced => (he c w (Option.some.inj (hhead.symm.trans hplaced))).elim

structure Accounts (t : ClassTable β) (start : Trace) (act : Eval α) : Prop where
  contained : Contained act
  along : ∀ tr, start.Reaches tr → act.Along tr (t.Accounted start)

namespace Accounts

variable {act : Eval α}

theorem of_silent (h : ∀ tr, act.final tr = tr) : t.Accounts start act :=
  ⟨contained_of_silent h, fun tr _ => along_of_silent (h tr)⟩

theorem record {e : Event} (he : ∀ m : Moment, (m.after e).stack = m.stack)
    (hplaced : ∀ c w, e ≠ .placed c w) : t.Accounts start (Eval.record e) :=
  ⟨contained_record he, fun _ _ => (along_record e).2 (accounted_of_head rfl hplaced)⟩

theorem bind {next : α → Eval γ} (ha : t.Accounts start act)
    (hn : ∀ x, t.Accounts start (next x)) : t.Accounts start (act >>= next) := by
  refine ⟨ha.contained.bind fun x => (hn x).contained, fun tr htr => ?_⟩
  refine (along_bind ha.contained.forward fun x => (hn x).contained.forward).2
    ⟨ha.along tr htr, fun x tr' hact => (hn x).along tr' ?_⟩
  exact final_of_ok hact ▸ ha.contained.forward.reaches htr

theorem during (h : t.Accounts start act) (a : Activity) : t.Accounts start (during a act) := by
  refine ⟨h.contained.during a, fun tr htr => (along_during a h.contained.forward).2 ?_⟩
  exact ⟨accounted_of_head rfl nofun, h.along _ (htr.record _), accounted_of_head rfl nofun⟩

theorem answering {act : Eval Reply} (h : t.Accounts start act) :
    t.Accounts start (answering t act) :=
  ⟨h.contained.answering, fun tr htr => (along_answering h.contained.forward).2 (h.along tr htr)⟩

theorem raise (e : EvaluationError) : t.Accounts start (raise e : Eval α) := by
  have hfail : t.Accounts start (fail (.evaluation e) : Eval α) := of_silent fun _ => rfl
  exact (record (fun _ => rfl) (by simp)).bind fun _ => hfail

end Accounts

theorem accounts_compositional (t : ClassTable β) (start : Trace) :
    Compositional t fun _ act _ => t.Accounts start act where
  pure _ := .of_silent fun _ => rfl
  bind := .bind
  now h := by
    have hnow : t.Accounts start now := .of_silent fun _ => rfl
    exact hnow.bind fun m => h m m (.refl m)
  fail _ := .of_silent fun _ => rfl
  stray := .of_silent fun _ => rfl
  answering := .answering

theorem accounts_steps (t : ClassTable β) (start : Trace) :
    StepCongruence t fun _ act _ => t.Accounts start act := by
  refine (accounts_compositional t start).steps (fun hact => hact.during _) (fun _ => .raise _)
    fun e he => .record ?_ ?_
  · intro m
    cases e <;> first | rfl | cases he
  · rintro c w rfl
    cases he

theorem accounted_of_making (tr' : Trace) (e : Event) (hhead : tr'.journal.head? = some e)
    (he : e.isOfMaking = true) : t.Accounted start tr' := by
  refine accounted_of_head hhead ?_
  rintro c w rfl
  cases he

section Evaluation

variable {run : ScopeId → β → Eval α} (hrun : ∀ s b, t.Accounts start (run s b))
include hrun

theorem along_settle {c : ClassId} {place : Eval ScopeId} (htr : start.Reaches tr)
    (hplace : Contained place) (halong : place.Along (t.enter tr c) (t.Accounted start))
    (hmade : ∀ w tr', place (t.enter tr c) = .ok w tr' →
      t.Placed start c w (tr'.follow [.closed (.ascent c), .placed c w])) :
    (t.settle run c place).Along tr (t.Accounted start) := by
  have hcontained s b := (hrun s b).contained
  rcases settle_cases t run place tr c with ⟨-, hevaluated⟩ | ⟨-, hpending⟩ | hstray | ⟨-, hclear⟩
  · exact along_of_silent (final_of_ok hevaluated)
  · exact (along_of_single (final_of_error hpending)).2 (accounted_of_head rfl nofun)
  · exact along_of_silent (final_of_error hstray)
  rw [along_congr hclear, along_settling hcontained hplace]
  refine ⟨accounted_of_head rfl nofun, accounted_of_head rfl nofun, halong,
    accounted_of_head rfl nofun, fun w tr' hw => (along_install hcontained).2 ⟨?_, fun b _ => ?_⟩⟩
  · rintro c' w' ⟨⟩
    exact hmade w tr' hw
  · have hreached : start.Reaches tr' :=
      final_of_ok hw ▸ hplace.forward.reaches (htr.follow [_, _])
    exact ((hrun w b).during _).along _ (hreached.follow [_, _])

theorem along_descend {called : Trace} (hcalled : start.Reaches called) {c d : ClassId}
    {caller : ScopeId} {r : Resource} {above ds all : List ClassId} (hd : t.lineage d = .ok all)
    (hds : ds ++ c :: above = d :: all) (h : t.Ancestry c above)
    (htr : tr = t.ascend (called.record (.opened (.call d caller (some r)))) ds) :
    (t.descend run caller r above c).Along tr (t.Accounted start) := by
  have hcontained s b := (hrun s b).contained
  -- The classes of `ds` are those that the way up has passed.
  induction h generalizing tr ds with
  | @top c hc =>
    have hserves : t.Serves c caller r tr.now.stack :=
      ⟨d, ds, all, _, hd, ⟨[], by simpa using hds⟩, by rw [htr, ascend_now]; rfl⟩
    rw [descend_eq]
    refine along_settle hrun (htr ▸ reaches_ascend (hcalled.record _) ds)
      (contained_placing hcontained caller r c [])
      (along_nestFor accounted_of_making c caller r) fun w tr' hw => ?_
    rcases nestFor_cases c caller r (t.enter tr c) with hmade | ⟨hstray, -⟩
    · cases hw.symm.trans hmade
      rw [← Trace.follow_append]
      exact .top hc hcalled (htr ▸ (t.ascend_concat _ ds c).symm) hserves rfl
    · cases hw.symm.trans hstray
  | @up c p above hc hp ih =>
    have hserves : t.Serves c caller r tr.now.stack :=
      ⟨d, ds, all, _, hd, ⟨p :: above, by simpa using hds⟩, by rw [htr, ascend_now]; rfl⟩
    have hds' : (ds ++ [c]) ++ p :: above = d :: all := by simpa using hds
    have htr' : start.Reaches tr := htr ▸ reaches_ascend (hcalled.record _) ds
    have hdescend := contained_descend hcontained caller r above p (t := t)
    have hbelow := (contained_congruence t).nestBelow c p r
    rw [descend_eq]
    refine along_settle hrun htr' (contained_placing hcontained caller r c (p :: above))
      ((along_bind hdescend.forward fun _ => hbelow.forward).2
        ⟨ih hds' (htr ▸ (t.ascend_concat _ ds c).symm), fun _ _ _ =>
          along_nestBelow accounted_of_making c p r⟩) fun w tr' hw => ?_
    obtain ⟨out, before, hout, hw⟩ := bind_eq_ok.1 hw
    have hbefore : start.Reaches before :=
      final_of_ok hout ▸ hdescend.forward.reaches (htr'.follow [_, _])
    have hstack : before.now.stack = .ascent c :: tr.now.stack :=
      final_of_ok hout ▸ hdescend.stack (t.enter tr c)
    rcases nestBelow_cases c p r before with ⟨outer, scope, hp', hscope, hmade⟩ | hmissing | hstray
    · cases hw.symm.trans hmade
      rw [← Trace.follow_append]
      exact .below hc hbefore (by rwa [hstack]) hp' hscope rfl
    · cases hw.symm.trans hmissing
    · cases hw.symm.trans hstray

theorem accounts_evaluate (c : ClassId) (caller : ScopeId) (resource : Option Resource) :
    t.Accounts start (t.evaluate run c caller resource) := by
  cases resource with
  | none =>
    have hrefused : t.Accounts start
        (t.declAt c >>= fun _ => (Eval.raise (.missingResource c) : Eval (Option α))) :=
      .bind ((accounts_compositional t start).declAt c) fun _ => .raise _
    exact hrefused.during _
  | some r =>
    have hcontained : Contained (t.evaluateFor run c caller r) :=
      (contained_congruence t).evaluateFor run (fun _ s b => (hrun s b).contained.during _) c caller r
    refine ⟨hcontained.during _, fun tr htr => (along_during _ hcontained.forward).2
      ⟨accounted_of_head rfl nofun, ?_, accounted_of_head rfl nofun⟩⟩
    rcases evaluateFor_cases t run c caller r (tr.record (.opened (.call c caller (some r))))
      with ⟨-, hevaluated⟩ | hstray | ⟨e, hrefused⟩ | ⟨above, habove, hdescend⟩
    · exact along_of_silent (final_of_ok hevaluated)
    · exact along_of_silent (final_of_error hstray)
    · exact (along_of_single (final_of_error hrefused)).2 (accounted_of_head rfl nofun)
    · have hopened : tr.record (.opened (.call c caller (some r))) =
          t.ascend (tr.record (.opened (.call c caller (some r)))) [] := rfl
      rw [hdescend]
      exact along_descend hrun htr (lineage_eq_ok.2 habove) rfl habove hopened

end Evaluation

theorem Path.last {tr' : Trace} (h : t.Path tr tr') (htr : tr.journal = []) {e : Event}
    {journal : List Event} (hj : tr'.journal = e :: journal) :
    ∃ tr₁, tr₁.journal = journal ∧ t.Permits tr₁ e := by
  cases h with
  | refl => cases htr.symm.trans hj
  | @record tr₁ x h hx =>
    obtain ⟨rfl, rfl⟩ := List.cons.inj hj
    exact ⟨tr₁, rfl, hx⟩

end ClassTable

variable {t : ClassTable Body}

theorem accounts_step (t : ClassTable Body) (start : Trace) (depth : Nat) (here : ScopeId)
    (step : Step) : t.Accounts start (step.exec t (t.evaluate (t.runBody depth)) here) :=
  (t.accounts_steps start).step (.of_silent fun _ => rfl)
    (fun _ hrun => ClassTable.accounts_evaluate hrun) depth here step

theorem Instant.of_along (i : Instant) {P : Trace → Prop} (hne : i.events ≠ [])
    (h : ∀ step : Step, let t := i.before.registry.table
      (during .evaluator (step.exec t (t.evaluate (t.runBody (depthFor t))) .top)).Along
        ⟨i.before.moment, []⟩ P) :
    P (Trace.follow ⟨i.before.moment, []⟩ i.events) := by
  let t := i.before.registry.table
  have hbegun : i.events <+: (i.before.perform i.next).2.1 := i.begun
  by_cases hstep : ∀ step, i.next ≠ .step step
  · rw [Session.perform_events _ hstep] at hbegun
    exact (hne (List.prefix_nil.1 hbegun)).elim
  obtain ⟨step, hstep⟩ : ∃ step, i.next = .step step := by simpa using hstep
  let act := during .evaluator (step.exec t (t.evaluate (t.runBody (depthFor t))) .top)
  have hforward : act.Forward :=
    (accounts_step t ⟨i.before.moment, []⟩ _ _ step).contained.forward.during _
  have hevents : (i.before.perform (.step step)).2.1 = act.events ⟨i.before.moment, []⟩ := by
    have hfinal := hforward ⟨i.before.moment, []⟩
    have hstart := Session.start_trace t (depthFor t) i.before.moment step
    have hjournal : (step.start t (depthFor t) i.before.moment).2.journal =
        (act.events ⟨i.before.moment, []⟩).reverse := by
      rw [hstart, hfinal, Trace.journal_follow, List.append_nil]
    exact (congrArg List.reverse hjournal).trans (List.reverse_reverse _)
  rw [hstep, hevents] at hbegun
  exact h step _ (Trace.mem_onward.2 ⟨i.events, hne, hbegun, rfl⟩)

structure Instant.Made (i : Instant) (c : ClassId) (outer : ScopeId) (r : Resource) (w : ScopeId)
    (namespaces : List Name) : Prop where
  newest : w.raw + 1 = i.moment.compilation.tree.size
  scope : i.moment.compilation.tree.find? w = some ⟨some outer, some r, namespaces, ∅⟩
  making : ∃ past, w = (i.before.moment.replay past).compilation.tree.next ∧
    i.events = past ++ .nested (some c) outer r ::
      (namespaces.map (.namespaceAdded w) ++ [.closed (.ascent c), .placed c w])

section

variable (i : Instant) {c : ClassId} {w : ScopeId}

theorem Instant.body_next (hlast : i.events.getLast? = some (.placed c w))
    (hbody : (i.before.registry.table.body? c).isSome) :
    i.events ++ [.opened (.body c w)] <+: (i.before.perform i.next).2.1 := by
  obtain ⟨hpath, hpaused⟩ := i.before.path_perform i.next
  obtain ⟨rest, hrest⟩ : i.events <+: (i.before.perform i.next).2.1 := i.begun
  obtain ⟨events, hevents⟩ := List.getLast?_eq_some_iff.1 hlast
  cases rest with
  | nil =>
    have hall : (i.before.perform i.next).2.1.reverse.head? = some (.placed c w) := by
      simp [← hrest, hevents]
    cases hpaused.2 _ hall
  | cons e rest =>
    obtain ⟨es, hes, -, hprefixes⟩ := hpath.replay
    have hall : es = i.events ++ e :: rest := by simpa [← hrest] using hes.symm
    have hnext := hprefixes (i.events ++ [e]) ⟨rest, by simp [hall]⟩
    have hjournal : (i.events ++ [e]).reverse ++ [] = e :: i.events.reverse := by simp
    obtain ⟨tr, hjournal, hdue, hallows⟩ := hnext.last rfl hjournal
    have hplaced : tr.journal.head? = some (.placed c w) := by simp [hjournal, hevents]
    rcases hdue with ⟨c', w', rfl⟩ | hdue
    · cases hplaced.symm.trans hallows.2.1
      exact ⟨rest, by simp [← hrest]⟩
    · simp [hdue c w hplaced] at hbody

theorem Trace.follow_inj {tr : Trace} {es fs : List Event} (h : tr.follow es = tr.follow fs) :
    es = fs := by
  have hjournal := congrArg Trace.journal h
  rw [journal_follow, journal_follow] at hjournal
  exact List.reverse_injective (List.append_cancel_right hjournal)

theorem Instant.namespaces_nodup {past : List Event} (hpast : past <+: i.events) {s : ScopeId}
    {scope : Scope}
    (hscope : (i.before.moment.replay past).compilation.tree.find? s = some scope) :
    scope.namespaces.Nodup := by
  let earlier : Instant := ⟨i.done, i.next, past, hpast.trans i.begun⟩
  exact earlier.chronicle_trace.formed.tree.namespaces s scope hscope

section

variable {outer : ScopeId} {r : Resource} {namespaces : List Name} {past : List Event}
  (hevents : i.events = past ++ (making c outer r w namespaces ++ [.closed (.ascent c), .placed c w]))
  (hw : w = (i.before.moment.replay past).compilation.tree.working outer r)
include hevents hw

theorem Instant.moment_placed :
    let m := i.before.moment.replay past
    i.moment = ⟨m.names, { m.compilation with
      tree := m.compilation.tree.withWorking outer r namespaces }.register c w, m.stack.tail⟩ := by
  let tr : Trace := Trace.follow ⟨i.before.moment, []⟩ past
  have htr : tr.now = i.before.moment.replay past := Trace.now_follow past
  have hmoment : i.moment = (Trace.follow ⟨i.before.moment, []⟩ i.events).now := by
    rw [Trace.now_follow]
    rfl
  rw [hmoment, hevents, Trace.follow_append, now_placed tr c outer r namespaces (htr ▸ hw), htr]

theorem Instant.made_of_events (hr : ¬ r.IsMain) (hnodup : namespaces.Nodup) :
    i.Made c outer r w namespaces := by
  have htree := congrArg (·.compilation.tree) (i.moment_placed hevents hw)
  simp only [Compilation.register_tree] at htree
  have hnext : w = (i.before.moment.replay past).compilation.tree.next := hw.trans (if_neg hr)
  constructor
  case newest => rw [htree, ScopeTree.size_withWorking hr, hnext]; rfl
  case scope => rw [htree, ScopeTree.find?_withWorking hr hnodup, if_pos hnext]
  case making => exact ⟨past, hnext, by rw [hevents, making, if_neg hr]; rfl⟩

end

theorem Moment.tree_replay_ascents (m : Moment) (past : List Event) (a : Activity)
    (cs : List ClassId) :
    (m.replay (past ++ .opened a :: t.ascents cs)).compilation.tree =
      (m.replay past).compilation.tree := by
  let tr : Trace := Trace.follow ⟨m, []⟩ past
  have hlater : Trace.follow ⟨m, []⟩ (past ++ .opened a :: t.ascents cs) =
      t.ascend (tr.record (.opened a)) cs := by
    rw [ClassTable.ascend_eq_follow, Trace.follow_append, Trace.follow_cons]
  have hnow := congrArg (·.now.compilation.tree) hlater
  simp only [Trace.now_follow, ClassTable.ascend_now, Compilation.tagAll_tree] at hnow
  exact hnow.trans (congrArg (·.compilation.tree) (Trace.now_follow past))

theorem Instant.placed_top {caller : ScopeId} {r : Resource} {d : ClassId} {ds : List ClassId}
    {past : List Event}
    (hevents : i.events = (past ++ .opened (.call d caller (some r)) :: t.ascents ds) ++
      (making c caller r w [] ++ [.closed (.ascent c), .placed c w]))
    (hw : w = (i.before.moment.replay (past ++ .opened (.call d caller (some r)) ::
      t.ascents ds)).compilation.tree.working caller r) :
    if r.IsMain then
      w = caller ∧ ∃ past d ds,
        i.events = past ++ .opened (.call d caller (some r)) ::
          (t.ascents ds ++ [.closed (.ascent c), .placed c w]) ∧
        i.moment.compilation.tree = (i.before.moment.replay past).compilation.tree
    else i.Made c caller r w [] := by
  split
  · next hr =>
    refine ⟨hw.trans (if_pos hr), past, d, ds, by simp [hevents, making, hr], ?_⟩
    rw [i.moment_placed hevents hw, Compilation.register_tree, ScopeTree.withWorking_nil_main hr]
    exact i.before.moment.tree_replay_ascents past _ ds
  · next hr => exact i.made_of_events hevents hw hr List.nodup_nil

theorem Instant.placed_below {outer : ScopeId} {r : Resource} {scope : Scope} {p : ClassId}
    {past : List Event}
    (hevents : i.events =
      past ++ (making c outer r w scope.namespaces ++ [.closed (.ascent c), .placed c w]))
    (hw : w = (i.before.moment.replay past).compilation.tree.working outer r)
    (hp : (i.before.moment.replay past).compilation.classScope p = some outer)
    (hscope : (i.before.moment.replay past).compilation.tree.find? outer = some scope) :
    let k := i.moment.compilation
    k.classScope p = some outer ∧ k.tree.find? outer = some scope ∧
      (k.tree.find? w).map Scope.namespaces = some scope.namespaces ∧
      if r.IsMain then w = outer else i.Made c outer r w scope.namespaces := by
  intro k
  have hmoment := i.moment_placed hevents hw
  have hnodup := i.namespaces_nodup ⟨_, hevents.symm⟩ hscope
  have hp' : k.classScope p = some outer := by
    simp only [k, hmoment]
    exact Compilation.classScope_register c p w hp
  have htree : k.tree =
      (i.before.moment.replay past).compilation.tree.withWorking outer r scope.namespaces := by
    simp only [k, hmoment, Compilation.register_tree]
  by_cases hr : r.IsMain
  · rw [ScopeTree.withWorking_main hr hscope] at htree
    have hsame : w = outer := hw.trans (if_pos hr)
    have hscope' : k.tree.find? outer = some scope := by rw [htree, hscope]
    exact ⟨hp', hscope', by rw [hsame, hscope']; rfl, by rwa [if_pos hr]⟩
  · have hmade := i.made_of_events hevents hw hr hnodup
    -- The scope of the parent is not the new one.
    have hold : outer ≠ (i.before.moment.replay past).compilation.tree.next := by
      rintro rfl
      exact Nat.lt_irrefl _ (ScopeTree.lt_size_of_find? hscope)
    have hscope' : k.tree.find? outer = some scope := by
      rw [htree, ScopeTree.find?_withWorking hr hnodup, if_neg hold, hscope]
    exact ⟨hp', hscope', by rw [hmade.scope]; rfl, by rwa [if_neg hr]⟩

end

theorem working_scope (i : Instant) {c : ClassId} {w : ScopeId}
    (hlast : i.events.getLast? = some (.placed c w)) :
    let t := i.before.registry.table
    let k := i.moment.compilation
    (∃ caller r, t.Serves c caller r i.moment.stack ∧
      match t.parentOf c with
      | .error _ => False
      | .ok none =>
        if r.IsMain then
          w = caller ∧ ∃ past d ds,
            i.events = past ++ .opened (.call d caller (some r)) ::
              (t.ascents ds ++ [.closed (.ascent c), .placed c w]) ∧
            k.tree = (i.before.moment.replay past).compilation.tree
        else i.Made c caller r w []
      | .ok (some p) => ∃ outer scope, k.classScope p = some outer ∧
        k.tree.find? outer = some scope ∧
        (k.tree.find? w).map Scope.namespaces = some scope.namespaces ∧
        if r.IsMain then w = outer else i.Made c outer r w scope.namespaces) ∧
      ((t.body? c).isSome →
        i.events ++ [.opened (.body c w)] <+: (i.before.perform i.next).2.1) := by
  intro t k
  refine ⟨?_, i.body_next hlast⟩
  obtain ⟨events, hevents⟩ := List.getLast?_eq_some_iff.1 hlast
  let start : Trace := ⟨i.before.moment, []⟩
  -- What a step accounts for all along, it accounts for at this instant.
  have haccounted : t.Accounted start (start.follow i.events) :=
    i.of_along (by simp [hevents]) fun step =>
      ((accounts_step t start (depthFor t) .top step).during .evaluator).along start (.refl _)
  have hplaced := haccounted c w (by simp [Trace.journal_follow, hevents])
  generalize htr : start.follow i.events = tr at hplaced
  cases hplaced with
  | @top called before d caller r ds hc hcalled hbefore hserves hw =>
    obtain ⟨past, rfl⟩ := hcalled
    have hlater : before =
        start.follow (past ++ .opened (.call d caller (some r)) :: t.ascents (ds ++ [c])) := by
      rw [hbefore, ClassTable.ascend_eq_follow, Trace.follow_append, Trace.follow_cons]
    rw [hlater] at htr hserves hw
    rw [Trace.now_follow] at hserves hw
    have hevents := Trace.follow_inj (htr.trans (Trace.follow_append _ _).symm)
    refine ⟨caller, r, by rw [i.moment_placed hevents hw]; exact hserves, ?_⟩
    simp only [t, hc]
    exact i.placed_top hevents hw
  | @below before p caller outer r scope hc hbefore hserves hp hscope hw =>
    obtain ⟨past, rfl⟩ := hbefore
    have hevents := Trace.follow_inj (htr.trans (Trace.follow_append past _).symm)
    rw [Trace.now_follow] at hserves hp hscope hw
    have hmoment := i.moment_placed hevents hw
    refine ⟨caller, r, by rw [hmoment]; exact hserves, ?_⟩
    simp only [t, hc]
    exact ⟨outer, scope, i.placed_below hevents hw hp hscope⟩

def namespaceAbove : Instant :=
  .upTo
    [.define "base" none
        (some [.addNamespace .here (.text "net"), .bind .here (.text "port") .undef]),
      .define "web" (some "base") (some [])]
    (.step (.evaluate (.named "web") .top (.titled (.number ⟨0⟩) (.number ⟨0⟩)))) 19

theorem namespaceAbove_working_scope :
    let i := namespaceAbove
    let k := i.moment.compilation
    i.events.getLast? = some (.placed ⟨1⟩ ⟨2⟩) ∧
      (k.tree.find? ⟨2⟩).map Scope.namespaces = some [⟨4⟩] ∧
      ∃ caller r, i.before.registry.table.Serves ⟨1⟩ caller r i.moment.stack ∧
        ∃ outer scope, k.classScope ⟨0⟩ = some outer ∧ k.tree.find? outer = some scope ∧
          (k.tree.find? ⟨2⟩).map Scope.namespaces = some scope.namespaces ∧
          if r.IsMain then ⟨2⟩ = outer else i.Made ⟨1⟩ outer r ⟨2⟩ scope.namespaces := by
  intro i k
  have hlast : i.events.getLast? = some (.placed ⟨1⟩ ⟨2⟩) := by decide +kernel
  have hparent : i.before.registry.table.parentOf ⟨1⟩ = .ok (some ⟨0⟩) := by decide +kernel
  obtain ⟨⟨caller, r, hserves, hscope⟩, -⟩ := working_scope i hlast
  simp only [hparent] at hscope
  exact ⟨hlast, by decide +kernel, caller, r, hserves, hscope⟩

end ConfigClasses

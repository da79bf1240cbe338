import ConfigClasses.Proofs.PlainEvaluation
import ConfigClasses.Proofs.Spelling

namespace ConfigClasses

open Eval

section

variable {t : ClassTable Body} {start : Interner} {stack : List Activity}
  {due evaluated : List ClassId} {c : ClassId} {tr : Trace}

theorem Charted.holds_sheet (h : Charted t start (.rest t stack due evaluated) tr) {s : ScopeId}
    (hs : tr.now.compilation.classScope c = some s) : tr.now.Holds s (t.sheet c) := by
  obtain ⟨n, rfl, hn⟩ := (h.scopes c s).1 hs
  have hevaluated : evaluated[n]? = some c := hn
  exact h.sheets n _ (by simp [Chart.rest, hevaluated])

theorem Charted.mem_ancestors (h : Charted t start (.rest t stack due evaluated) tr)
    {above : List ClassId} (hc : t.Ancestry c above) {s : ScopeId}
    (hs : tr.now.compilation.classScope c = some s) (o : ScopeId) :
    o ∈ tr.now.compilation.tree.ancestors s ↔
      o = .top ∨ ∃ a ∈ c :: above, tr.now.compilation.classScope a = some o := by
  induction hc generalizing s with
  | @top c htop =>
    obtain ⟨scope, outer, hscope, houter, hparent, -⟩ := h.holds_sheet hs
    rw [(ClassTable.Ancestry.top htop).sheet] at houter
    obtain rfl : ScopeId.top = outer := Option.some.inj houter
    have hup : tr.now.compilation.tree.parent? s = some .top := by
      simp [ScopeTree.parent?, hscope, hparent]
    rw [ScopeTree.ancestors_of_parent? h.ordered hup, h.ancestors_top]
    simp [hs, or_comm, eq_comm]
  | @up c p above hcp hp ih =>
    obtain ⟨scope, outer, hscope, houter, hparent, -⟩ := h.holds_sheet hs
    rw [(ClassTable.Ancestry.up hcp hp).sheet] at houter
    have hup : tr.now.compilation.tree.parent? s = some outer := by
      simp [ScopeTree.parent?, hscope, hparent]
    rw [ScopeTree.ancestors_of_parent? h.ordered hup, List.mem_cons, ih houter,
      List.exists_mem_cons_iff (a := c), hs, Option.some.injEq, eq_comm (a := s), or_left_comm]

theorem count_started (h : Charted t start (.rest t stack due evaluated) tr) (c : ClassId) :
    (started tr.journal).count c = if c ∈ evaluated ∧ (t.body? c).isSome then 1 else 0 := by
  have hnodup : (t.begunOf evaluated).Nodup :=
    List.nodup_reverse.2 (h.evaluated_nodup.filter _)
  rw [h.started]
  refine (List.Nodup.count hnodup).trans ?_
  simp [ClassTable.begunOf]

end

namespace Session

variable (s s' : Session)

def Encloses (a c : ClassId) : Prop :=
  ∃ u o, s.compilation.classScope c = some u ∧ s.compilation.classScope a = some o ∧
    o ∈ s.compilation.tree.ancestors u

def scopeOf (c : ClassId) : Option Scope :=
  (s.compilation.classScope c).bind s.compilation.tree.find?

def spacesOf (c : ClassId) : Option (List String) :=
  (s.scopeOf c).map fun scope => scope.namespaces.map s.names.text

def Binds (c : ClassId) (x : String) (v : Value) : Prop :=
  ∃ scope n, s.scopeOf c = some scope ∧ s.names.text n = x ∧ scope.bindings[n]? = some v

/-- But for the numbers of scopes and of names that the evaluations gave out, the compilations are
the same. -/
structure Matches : Prop where
  evaluated : ∀ c, s.compilation.IsEvaluated c ↔ s'.compilation.IsEvaluated c
  tags : ∀ n, s.compilation.IsTagged n ↔ s'.compilation.IsTagged n
  tagTexts : ∀ n, s.compilation.IsTagged n → s.names.text n = s'.names.text n
  size : s.compilation.tree.size = s'.compilation.tree.size
  path : ∀ a c, s.Encloses a c ↔ s'.Encloses a c
  namespaces : ∀ c, s.spacesOf c = s'.spacesOf c
  bindings : ∀ c x v, s.Binds c x v ↔ s'.Binds c x v

def evaluateAll (type title : NameRef) (cs : List ClassId) : List Report × Session :=
  s.run (cs.map fun c => .step (evaluation type title c))

structure Evaluates (type title : NameRef) (cs : List ClassId) : Prop where
  length : (s.evaluateAll type title cs).1.length = cs.length
  outputs : ∀ report ∈ (s.evaluateAll type title cs).1,
    ∃ result, report.ending = .reply (.output result)
  evaluated : ∀ c, (s.evaluateAll type title cs).2.compilation.IsEvaluated c ↔
    ∃ d ∈ cs, c = d ∨ s.registry.table.inherits d c = true
  together : (s.run [.step (.each (cs.map (evaluation type title)))]).2 =
    (s.evaluateAll type title cs).2
  bodies : ∀ c, (started ((s.evaluateAll type title cs).1.flatMap Report.events)).count c =
    if (s.evaluateAll type title cs).2.compilation.IsEvaluated c ∧
      (s.registry.table.body? c).isSome then 1 else 0

/-- The session is what an evaluator has left that has evaluated the classes of `E`. -/
def Settled (t : ClassTable Body) (start : Interner) (E : ClassId → Prop) : Prop :=
  ∃ stack tr, Resting t start E stack [] tr ∧ s.compilation = tr.now.compilation ∧
    s.names = tr.now.names

section

variable {s s'} {t : ClassTable Body} {start : Interner} {E : ClassId → Prop}
  {stack : List Activity}

theorem Settled.isEvaluated_iff (h : s.Settled t start E) (c : ClassId) :
    s.compilation.IsEvaluated c ↔ E c := by
  obtain ⟨stack, tr, hresting, hk, -⟩ := h
  rw [hk]
  exact hresting.isEvaluated_iff c

theorem Settled.isTagged_iff (h : s.Settled t start E) (n : Name) :
    s.compilation.IsTagged n ↔ ∃ c d, E c ∧ t.decl? c = some d ∧ d.name = n := by
  obtain ⟨stack, tr, ⟨evaluated, hevaluated, hcharted⟩, hk, -⟩ := h
  rw [hk, hcharted.tags]
  simp [Chart.rest, hevaluated]

theorem Settled.text (h : s.Settled t start E) (hstart : start.Sound) {n : Name}
    (hn : n.raw < start.size) : s.names.text n = start.text n := by
  obtain ⟨stack, tr, ⟨evaluated, -, hcharted⟩, -, hnames⟩ := h
  rw [hnames]
  exact hcharted.sound.text_of_find? (hcharted.since _ n (hstart.find?_text hn))

theorem Settled.size (h : s.Settled t start E) (h' : s'.Settled t start E) :
    s.compilation.tree.size = s'.compilation.tree.size := by
  obtain ⟨stack, tr, ⟨evaluated, hevaluated, hcharted⟩, hk, -⟩ := h
  obtain ⟨stack', tr', ⟨evaluated', hevaluated', hcharted'⟩, hk', -⟩ := h'
  have hperm : evaluated.Perm evaluated' :=
    (List.perm_ext_iff_of_nodup hcharted.evaluated_nodup hcharted'.evaluated_nodup).2
      fun c => (hevaluated c).trans (hevaluated' c).symm
  rw [hk, hk', hcharted.size, hcharted'.size]
  simp [Chart.rest, hperm.length_eq]

theorem Settled.encloses_iff (h : s.Settled t start E) (hclosed : t.Closed E)
    (hE : ∀ c, E c → t.Ancestry c (t.aboveOf c)) (a c : ClassId) :
    s.Encloses a c ↔ E c ∧ a ∈ c :: t.aboveOf c := by
  have hevaluated := h.isEvaluated_iff
  obtain ⟨stack, tr, ⟨evaluated, -, hcharted⟩, hk, -⟩ := h
  simp only [Encloses]
  rw [hk] at hevaluated ⊢
  constructor
  · rintro ⟨u, o, hu, ho, hancestor⟩
    have hc : E c := (hevaluated c).1 (Compilation.isEvaluated_of_classScope hu)
    refine ⟨hc, ?_⟩
    rcases (hcharted.mem_ancestors (hE c hc) hu o).1 hancestor with rfl | ⟨b, hb, hob⟩
    · exact (hcharted.ne_top a ho).elim
    · exact hcharted.scope_injective ho hob ▸ hb
  · rintro ⟨hc, ha⟩
    have haE : E a := (List.mem_cons.1 ha).elim (fun he => he ▸ hc) (hclosed c hc a)
    obtain ⟨u, hu⟩ := Compilation.isEvaluated_iff.1 ((hevaluated c).2 hc)
    obtain ⟨o, ho⟩ := Compilation.isEvaluated_iff.1 ((hevaluated a).2 haE)
    exact ⟨u, o, hu, ho, (hcharted.mem_ancestors (hE c hc) hu o).2 (.inr ⟨a, ha, ho⟩)⟩

theorem Settled.scopeOf (h : s.Settled t start E) {c : ClassId} (hc : E c) :
    ∃ scope, s.scopeOf c = some scope ∧
      scope.Shows s.names (t.sheet c).spaces (t.sheet c).settings := by
  have hevaluated := (h.isEvaluated_iff c).2 hc
  obtain ⟨stack, tr, ⟨evaluated, -, hcharted⟩, hk, hnames⟩ := h
  rw [hk] at hevaluated
  obtain ⟨u, hu⟩ := Compilation.isEvaluated_iff.1 hevaluated
  obtain ⟨scope, -, hscope, -, -, hshows⟩ := hcharted.holds_sheet hu
  refine ⟨scope, ?_, hnames ▸ hshows⟩
  simp [Session.scopeOf, hk, hu, hscope]

theorem Settled.scopeOf_none (h : s.Settled t start E) {c : ClassId} (hc : ¬ E c) :
    s.scopeOf c = none := by
  have hnone := Compilation.not_isEvaluated_iff.1 (mt (h.isEvaluated_iff c).1 hc)
  simp [Session.scopeOf, hnone]

theorem Settled.sound (h : s.Settled t start E) : s.names.Sound := by
  obtain ⟨stack, tr, ⟨evaluated, -, hcharted⟩, -, hnames⟩ := h
  exact hnames ▸ hcharted.sound

theorem Settled.spacesOf (h : s.Settled t start E) {c : ClassId} (hc : E c) :
    s.spacesOf c = some (t.sheet c).spaces := by
  obtain ⟨scope, hscope, hshows⟩ := h.scopeOf hc
  simp [Session.spacesOf, hscope, hshows.texts]

theorem Settled.binds_iff (h : s.Settled t start E) (c : ClassId) (x : String) (v : Value) :
    s.Binds c x v ↔ E c ∧ (x, v) ∈ (t.sheet c).settings := by
  by_cases hc : E c
  · obtain ⟨scope, hscope, hshows⟩ := h.scopeOf hc
    simp [Binds, hscope, hc, hshows.vars_iff h.sound]
  · simp [Binds, h.scopeOf_none hc, hc]

theorem Settled.matches (h : s.Settled t start E) (h' : s'.Settled t start E)
    (hstart : start.Sound) (hspelled : t.SpelledIn start) (hclosed : t.Closed E)
    (hE : ∀ c, E c → t.Ancestry c (t.aboveOf c)) : s.Matches s' where
  evaluated c := (h.isEvaluated_iff c).trans (h'.isEvaluated_iff c).symm
  tags n := (h.isTagged_iff n).trans (h'.isTagged_iff n).symm
  tagTexts n hn := by
    obtain ⟨c, d, -, hd, rfl⟩ := (h.isTagged_iff n).1 hn
    have hissued := hspelled d (Array.mem_of_getElem? hd)
    exact (h.text hstart hissued).trans (h'.text hstart hissued).symm
  size := h.size h'
  path a c := (h.encloses_iff hclosed hE a c).trans (h'.encloses_iff hclosed hE a c).symm
  namespaces c := by
    by_cases hc : E c
    · exact (h.spacesOf hc).trans (h'.spacesOf hc).symm
    · simp [Session.spacesOf, h.scopeOf_none hc, h'.scopeOf_none hc]
  bindings c x v := (h.binds_iff c x v).trans (h'.binds_iff c x v).symm

theorem resting_entry (hi : s.Interned) (hfresh : s.compilation = .initial) :
    Resting s.registry.table s.names (fun _ => False) [.evaluator] [] s.entry := by
  have hk : s.entry.now.compilation = .initial := hfresh
  refine ⟨[], by simp, rfl, hi.names, .refl _, ?_, ?_, ?_, ?_, rfl, by simp [Chart.rest]⟩
  · rw [hk]
    exact ScopeTree.ordered_initial
  · rw [hk]
    rfl
  · simp [hk, Chart.rest, Compilation.classScope, Compilation.initial]
  · simp [hk, Chart.rest, Compilation.IsTagged, Compilation.initial]

variable {cs : List ClassId} {tr : Trace}

theorem each_succeeds (hi : s.Interned) (ht : ClassTable.empty.GrowsTo s.registry.table)
    (hfresh : s.compilation = .initial)
    (hcs : ∀ c ∈ cs, s.registry.table.PlainChain s.names c) (type title : NameRef) :
    ∃ replies tr,
      execEach s.registry.table s.calls .top (cs.map (evaluation type title)) s.entry =
        .ok replies tr ∧
      replies.length = cs.length ∧ (∀ reply ∈ replies, ∃ result, reply = .output result) ∧
      Resting s.registry.table s.names (fun a => ∃ c ∈ cs, a ∈ c :: s.registry.table.aboveOf c)
        [.evaluator] [] tr := by
  have hpos : 0 < depthFor s.registry.table :=
    Nat.lt_of_lt_of_le (Nat.pow_pos Nat.zero_lt_two) (Nat.le_add_left _ _)
  obtain ⟨depth, hdepth⟩ := Nat.exists_eq_succ_of_ne_zero (Nat.ne_of_gt hpos)
  have hclosed : s.registry.table.Closed fun _ => False := fun _ h => h.elim
  obtain ⟨replies, tr, hact, hlength, houtputs, hresting⟩ :=
    (succeeds_evaluations ht hcs hclosed type title depth).ok (resting_entry hi hfresh)
  rw [calls, hdepth]
  exact ⟨replies, tr, hact, hlength, houtputs, hresting.congr (by simp)⟩

theorem evaluateAll_eq (s : Session) (type title : NameRef) (cs : List ClassId) :
    s.evaluateAll type title cs = s.run ((cs.map (evaluation type title)).map .step) := by
  simp [evaluateAll, Function.comp_def]

theorem settled_leave (hs : s.Sound) (hn : s.Named) (h : Resting t start E stack [] tr) :
    (s.leave tr.now).Settled t start E := by
  have hmoment := moment_leave hs hn tr.now
  exact ⟨stack, tr, h, congrArg Moment.compilation hmoment, congrArg Moment.names hmoment⟩

theorem evaluates (hs : s.Sound) (hn : s.Named) (hi : s.Interned)
    (ht : ClassTable.empty.GrowsTo s.registry.table) (hfresh : s.compilation = .initial)
    (hcs : ∀ c ∈ cs, s.registry.table.PlainChain s.names c) (type title : NameRef) :
    s.Evaluates type title cs ∧ (s.evaluateAll type title cs).2.Settled s.registry.table s.names
      (fun a => ∃ c ∈ cs, a ∈ c :: s.registry.table.aboveOf c) := by
  obtain ⟨replies, tr, hact, hlength, houtputs, hresting⟩ := each_succeeds hi ht hfresh hcs type title
  obtain ⟨hendings, hstarts, hlast⟩ := run_apart hs hn hact
  rw [← evaluateAll_eq] at hendings hstarts hlast
  have hsettled := hlast ▸ settled_leave hs hn hresting
  refine ⟨⟨?_, ?_, ?_, ?_, ?_⟩, hsettled⟩
  · simpa [hlength] using congrArg List.length hendings
  · intro report hreport
    have hmem := List.mem_map_of_mem (f := Report.ending) hreport
    rw [hendings] at hmem
    obtain ⟨reply, hreply, hending⟩ := List.mem_map.1 hmem
    obtain ⟨result, rfl⟩ := houtputs reply hreply
    exact ⟨result, hending.symm⟩
  · refine fun c => (hsettled.isEvaluated_iff c).trans ?_
    exact exists_congr fun d => and_congr_right fun hd => (hcs d hd).mem_iff c
  · exact (run_together hs hn hact).2.2.trans hlast.symm
  · intro c
    obtain ⟨evaluated, hevaluated, hcharted⟩ := hresting
    have hstarted : started ((s.evaluateAll type title cs).1.flatMap Report.events) =
        (started tr.journal).reverse := by
      rw [started, hstarts, started]
      simp [startsOf, List.filterMap_reverse, List.map_reverse]
    rw [hstarted, List.count_reverse, count_started hcharted c]
    exact if_congr (and_congr_left' ((hevaluated c).trans (hsettled.isEvaluated_iff c).symm)) rfl rfl

end

end Session

theorem evaluation_order_irrelevant (done : List Command) (type title : NameRef)
    {cs ds : List ClassId} (hsame : ∀ c, c ∈ cs ↔ c ∈ ds) :
    let s := (Session.initial.run done).2.newCompilation
    (∀ c ∈ cs, s.registry.table.PlainChain s.names c) →
      s.Evaluates type title cs ∧ s.Evaluates type title ds ∧
        (s.evaluateAll type title cs).2.Matches (s.evaluateAll type title ds).2 := by
  intro s hcs
  obtain ⟨hs, hn⟩ := Session.reachable done
  have hi : s.Interned := Session.interned_run done
  have ht : ClassTable.empty.GrowsTo s.registry.table := Session.empty_growsTo_tableAt done _
  have hspelled : s.registry.table.SpelledIn s.names := (Session.spelled_run done).names hs
  have hfresh : s.compilation = .initial := by
    simp [s, Session.newCompilation, Session.compilation]
  have hs' : s.Sound := hs.perform .newCompilation
  have hn' : s.Named := hn.perform hs .newCompilation
  have hds : ∀ c ∈ ds, s.registry.table.PlainChain s.names c := fun c hc => hcs c ((hsame c).2 hc)
  obtain ⟨hevaluates, hsettled⟩ := Session.evaluates hs' hn' hi ht hfresh hcs type title
  obtain ⟨hevaluates', hsettled'⟩ := Session.evaluates hs' hn' hi ht hfresh hds type title
  refine ⟨hevaluates, hevaluates', ?_⟩
  simp only [← hsame] at hsettled'
  refine hsettled.matches hsettled' hi.names hspelled ?_ ?_
  · rintro a ⟨c, hc, ha⟩ b hb
    exact ⟨c, hc, (hcs c hc).ancestry.closed a ha b hb⟩
  · rintro a ⟨c, hc, ha⟩
    exact (hcs c hc).ancestry.of_mem ha

def shopClasses : List Command :=
  [.define "base" none
      (some [.addNamespace .here (.text "std"), .bind .here (.text "port") (.bool true)]),
    .define "web" (some "base")
      (some [.bind (.ofClass "web") (.text "port") (.str "http"), .addNamespace .here (.text "net")]),
    .define "shop" (some "web") (some [.addNamespace (.ofClass "Shop") (.text "std")]),
    .define "log" (some "base") (some [.bind .here (.text "file") (.str "log")])]

theorem shopClasses_order_irrelevant :
    let s := (Session.initial.run shopClasses).2.newCompilation
    let cs : List ClassId := [⟨2⟩, ⟨3⟩, ⟨2⟩]
    let ds : List ClassId := [⟨3⟩, ⟨2⟩]
    (∀ c, c ∈ cs ↔ c ∈ ds) ∧ (∀ c ∈ cs, s.registry.table.PlainChain s.names c) ∧
      (s.evaluateAll (.text "db") (.text "one") cs).2.compilation.classScope ⟨3⟩ = some ⟨4⟩ ∧
      (s.evaluateAll (.text "db") (.text "one") ds).2.compilation.classScope ⟨3⟩ = some ⟨2⟩ ∧
      s.Evaluates (.text "db") (.text "one") cs ∧ s.Evaluates (.text "db") (.text "one") ds ∧
      (s.evaluateAll (.text "db") (.text "one") cs).2.Matches
        (s.evaluateAll (.text "db") (.text "one") ds).2 := by
  intro s cs ds
  have hsame : ∀ c, c ∈ cs ↔ c ∈ ds := by
    simp only [cs, ds, List.mem_cons, List.not_mem_nil, or_false]
    tauto
  have hcs : ∀ c ∈ cs, s.registry.table.PlainChain s.names c := by decide +kernel
  exact ⟨hsame, hcs, by decide +kernel, by decide +kernel,
    evaluation_order_irrelevant shopClasses (.text "db") (.text "one") hsame hcs⟩

end ConfigClasses

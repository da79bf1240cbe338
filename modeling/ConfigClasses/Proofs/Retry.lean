import ConfigClasses.Proofs.Chain

namespace ConfigClasses

open Eval

namespace ClassTable

section Builds

variable {β : Type} {t : ClassTable β} {base : ScopeId} {r : Resource} {new cs : List ClassId}
  {names : List Name} {tr tr' : Trace}

theorem Builds.ascended (h : t.Builds base r new names (t.ascend tr cs) tr')
    (hnames : (cs.map t.nameOf ++ names).Nodup) :
    t.Builds base r new (cs.map t.nameOf ++ names) tr tr' := by
  induction cs generalizing tr with
  | nil => exact h
  | cons c cs ih =>
    obtain ⟨hc, hcs⟩ := List.nodup_cons.1 hnames
    exact (ih h hcs).entered hc

theorem Builds.withdrawn (h : t.Builds base r new names tr tr') (cs : List ClassId) :
    t.Builds base r new names tr (tr'.withdraw cs) := by
  induction cs with
  | nil => exact h
  | cons c cs ih =>
    exact ⟨ih.starts, ih.evaluated, ih.tags, ih.isTagged, ih.links, ih.classScope, ih.others⟩

end Builds

variable {t : ClassTable Body} {depth : Nat} {tr : Trace} {c q : ClassId}
  {ps mid rest : List ClassId} {steps unrun : Body} {caller base : ScopeId} {r : Resource} {e : Halt}

theorem conforms_of_failing (hbody : t.body? q = some (steps ++ unrun))
    (hsteps : areQuiet steps = true)
    (hquiet : ∀ a ∈ mid, ∀ b ∈ t.body? a, areQuiet b = true)
    (h : tr.AtStart fun a s => if a = q then (t.runBody depth s steps).halt? tr = some e
      else ∀ b ∈ t.body? a, (t.runBody depth s b).halt? tr = none) :
    t.Conforms (t.runBody depth) (fun a => if a = q then some e else none) (q :: mid) tr := by
  rintro ⟨a, s⟩ hstarting ha b hb
  have hends := h (a, s) hstarting
  by_cases haq : a = q
  · subst haq
    obtain rfl : b = steps ++ unrun := Option.some.inj (hb.symm.trans hbody)
    obtain ⟨tr', hfailed⟩ := halt?_eq_some.1 (by simpa using hends)
    have hall := runBody_append_of_error hfailed unrun
    refine ⟨by simp [halt?, hall], ?_⟩
    rw [final_of_error hall, ← final_of_error hfailed]
    exact leaves_runBody hsteps
  · have hmid : a ∈ mid := (List.mem_cons.1 ha).resolve_left haq
    simp only [if_neg haq] at hends ⊢
    exact ⟨hends b hb, leaves_runBody (hquiet a hmid b hb)⟩

theorem evaluate_fails (ht : empty.GrowsTo t) (hidle : ∀ a, isPending a tr.now.stack = false)
    (hc : (t.decl? c).isSome) (habove : t.lineage c = .ok (ps ++ q :: (mid ++ rest)))
    (hnew : ∀ a ∈ c :: ps ++ q :: mid, ¬ tr.now.compilation.IsEvaluated a)
    (hbase : tr.now.compilation.baseFor caller rest = some base)
    (hin : base.raw < tr.now.compilation.tree.size)
    (hbody : t.body? q = some (steps ++ unrun)) (hsteps : areQuiet steps = true)
    (hquiet : ∀ a ∈ mid, ∀ b ∈ t.body? a, areQuiet b = true)
    (hends : (t.evaluate (t.runBody depth) c caller (some r)).Along tr fun tr' =>
      tr'.AtStart fun a s => if a = q then (t.runBody depth s steps).halt? tr' = some e
        else ∀ b ∈ t.body? a, (t.runBody depth s b).halt? tr' = none) :
    ∃ tr', t.evaluate (t.runBody depth) c caller (some r) tr = .error e tr' ∧
      t.Builds base r (q :: mid).reverse ((c :: ps ++ q :: mid).map t.nameOf) tr tr' := by
  have hrun := contained_runBody t depth
  have hforward := (contained_descend hrun caller r (ps ++ q :: (mid ++ rest)) c (t := t)).forward
  let called := tr.record (.opened (.call c caller (some r)))
  let entered := t.ascend called (c :: ps)
  have hway : c :: ps ++ q :: mid <+: c :: (ps ++ q :: (mid ++ rest)) := ⟨rest, by simp⟩
  have hclear : t.Clear called (c :: ps ++ q :: mid) := clear_of_idle ht hidle hc habove hway hnew
  have hnames := ht.indexed.nodup_names hclear.declared hclear.nodup
  obtain ⟨hbelow, habove'⟩ := hclear.append
  have hbase' : entered.now.compilation.baseFor caller rest = some base :=
    (t.baseFor_ascend called (c :: ps) caller rest).trans hbase
  have hin' : base.raw < entered.now.compilation.tree.size := by
    rw [t.ascend_now, Compilation.tagAll_tree]
    exact hin
  rw [evaluate_declared hc habove, along_during _ hforward] at hends
  -- Past the classes below `q`, what counts is the way up from `q`.
  have hinner := along_ascend hrun rfl hbelow hends.2.1
  have hothers : ∀ a ∈ mid, (if a = q then some e else none) = none := by
    intro a ha
    refine if_neg ?_
    rintro rfl
    exact (List.nodup_cons.1 habove'.nodup).1 ha
  obtain ⟨hbuilds, -, hhalt⟩ := descend_builds hrun ht.indexed habove' hbase' hin'
    (hinner.imp fun tr' => conforms_of_failing hbody hsteps hquiet) hothers
  rw [hbody, Option.bind_some, if_pos rfl] at hhalt
  obtain ⟨tr₁, hfailed⟩ := halt?_eq_some.1 hhalt
  rw [final_of_error hfailed] at hbuilds
  have hdescend : t.descend (t.runBody depth) caller r (ps ++ q :: (mid ++ rest)) c called =
      .error e (tr₁.withdraw (c :: ps)) := descend_error rfl hbelow hfailed
  refine ⟨(tr₁.withdraw (c :: ps)).record (.closed (.call c caller (some r))), ?_, ?_⟩
  · rw [evaluate_declared hc habove, during, hdescend]
  · rw [List.map_append] at hnames ⊢
    exact ((hbuilds.ascended hnames).withdrawn (c :: ps)).called

end ClassTable

/-- If the body of an ancestor `q` fails, the error goes to the caller as it is. The ancestors down
to `q` stay evaluated, and of the classes below nothing is left but their tags. If the class is called
for once more, `q` is not run again, and the rest of the way starts from the scope of `q`. -/
theorem failed_ancestor_retried (i : Instant) (depth : Nat) {c q : ClassId}
    {ps mid rest : List ClassId} (hidle : inProgress i.trace.journal = ∅)
    (hc : (i.before.registry.table.decl? c).isSome)
    (habove : i.before.registry.table.lineage c = .ok (ps ++ q :: (mid ++ rest)))
    (hnew : ∀ a ∈ c :: ps ++ q :: mid, ¬ i.moment.compilation.IsEvaluated a) {caller base : ScopeId}
    (hbase : i.moment.compilation.baseFor caller rest = some base)
    (hin : base.raw < i.moment.compilation.tree.size) {steps unrun : Body}
    (hbody : i.before.registry.table.body? q = some (steps ++ unrun)) (hsteps : areQuiet steps = true)
    (hquiet : ∀ a ∈ mid, ∀ b ∈ i.before.registry.table.body? a, areQuiet b = true) (r : Resource)
    (f : Failure) :
    let t := i.before.registry.table
    let act := t.evaluate (t.runBody depth) c caller (some r)
    (act.Along i.trace fun tr => tr.AtStart fun a s =>
        if a = q then (t.runBody depth s steps).halt? tr = some (.failure f)
        else ∀ b ∈ t.body? a, (t.runBody depth s b).halt? tr = none) →
      ∃ tr', act i.trace = .error (.failure f) tr' ∧
        t.Builds base r (q :: mid).reverse ((c :: ps ++ q :: mid).map t.nameOf) i.trace tr' ∧
        (∀ a ∈ c :: ps, tr'.now.compilation.IsTagged (t.nameOf a) ∧
          tr'.now.compilation.classScope a = none) ∧
        tr'.Faithful ∧ inProgress tr'.journal = ∅ ∧
        ∃ s, tr'.now.compilation.classScope q = some s ∧
          ∀ (tr₁ : Trace) (depth' : Nat) (caller' : ScopeId) (r' : Resource),
            tr₁.now.compilation = tr'.now.compilation → tr₁.Faithful → inProgress tr₁.journal = ∅ →
            (∀ a ∈ c :: ps, ∀ b ∈ t.body? a, areQuiet b = true) →
            let again := t.evaluate (t.runBody depth') c caller' (some r')
            t.GoesWell depth' again tr₁ →
              ∃ out tr₂, again tr₁ = .ok out tr₂ ∧
                t.Builds s r' (c :: ps).reverse ((c :: ps).map t.nameOf) tr₁ tr₂ ∧
                t.Yields (t.runBody depth') c again tr₁ := by
  intro t act hends
  have ht : ClassTable.empty.GrowsTo t := Session.empty_growsTo_tableAt i.done i.before.current
  have hfaithful := i.chronicle_trace.faithful
  obtain ⟨tr', hfailed, hbuilds⟩ := ClassTable.evaluate_fails ht (hfaithful.idle hidle) hc habove hnew
    hbase hin hbody hsteps hquiet hends
  have hrestores := restores_of_keeps (faithful_invariance.call t depth c caller (some r))
  obtain ⟨hfaithful', hidle'⟩ := hrestores.inProgress hfaithful
  rw [final_of_error hfailed] at hfaithful' hidle'
  have hnodup : (c :: ps ++ q :: mid).Nodup := by
    refine (ClassTable.lineage_eq_ok.1 habove).nodup.sublist ?_
    exact List.IsPrefix.sublist ⟨rest, by simp⟩
  -- The way up has led past the classes below `q`, and none of them has got a scope.
  have hbelow : ∀ a ∈ c :: ps, tr'.now.compilation.classScope a = none := by
    intro a ha
    have hnot : a ∉ (q :: mid).reverse := fun hmem =>
      (List.nodup_append.1 hnodup).2.2 a ha a (List.mem_reverse.1 hmem) rfl
    exact hbuilds.classScope_eq_none hnot (hnew a (List.mem_append_left _ ha))
  refine ⟨tr', hfailed, hbuilds, fun a ha => ⟨?_, hbelow a ha⟩, hfaithful', hidle'.trans hidle, ?_⟩
  · exact (hbuilds.isTagged _).2 (.inl (List.mem_map_of_mem (List.mem_append_left _ ha)))
  -- The second call goes up to `q` only, and comes down from its scope.
  let s := i.moment.compilation.tree.rung base r (mid.length + 1)
  have hq : tr'.now.compilation.classScope q = some s := hbuilds.classScope mid.length q (by simp)
  refine ⟨s, hq, ?_⟩
  intro tr₁ depth' caller' r' hsame hfaithful₁ hidle₁ hquiet' again hwell
  have hs : s.raw < tr₁.now.compilation.tree.size := by
    have hlt := hbuilds.rung_lt hin
    rw [List.length_reverse, List.length_cons] at hlt
    rwa [hsame]
  have hbase' : tr₁.now.compilation.baseFor caller' (q :: (mid ++ rest)) = some s := by
    rw [hsame]
    exact hq
  have hnew' : ∀ a ∈ c :: ps, ¬ tr₁.now.compilation.IsEvaluated a := by
    rw [hsame]
    exact fun a ha => Compilation.not_isEvaluated_iff.2 (hbelow a ha)
  exact ClassTable.evaluate_builds ht (hfaithful₁.idle hidle₁) hc habove hnew' hbase' hs hquiet' hwell

def failingAncestor : Instant :=
  .upTo
    [.define "base" none (some [.addNamespace .here (.text "net")]),
      .define "web" (some "base") (some [.bind .here (.text "port") .undef, .fail "no port", .reset]),
      .define "shop" (some "web") none,
      .define "mall" (some "shop") (some [.lookup .here (.text "port")])]
    (.step (.evaluate (.named "mall") .top (.main (.number ⟨0⟩)))) 1

theorem failingAncestor_retried :
    let i := failingAncestor
    let t := i.before.registry.table
    let r : Resource := ⟨⟨0⟩, .named ⟨0⟩⟩
    let r' : Resource := ⟨⟨0⟩, .main⟩
    let act := t.evaluate (t.runBody 2) ⟨3⟩ .top (some r)
    t.lineage ⟨3⟩ = .ok [⟨2⟩, ⟨1⟩, ⟨0⟩] ∧
      ∃ tr', act i.trace = .error (.failure (.body "no port")) tr' ∧
        t.Builds .top r [⟨0⟩, ⟨1⟩] ([⟨3⟩, ⟨2⟩, ⟨1⟩, ⟨0⟩].map t.nameOf) i.trace tr' ∧
        inProgress tr'.journal = ∅ ∧
        ∃ out tr₁, t.evaluate (t.runBody 2) ⟨3⟩ ⟨1⟩ (some r') tr' = .ok out tr₁ ∧
          t.Builds ⟨2⟩ r' [⟨2⟩, ⟨3⟩] ([⟨3⟩, ⟨2⟩].map t.nameOf) tr' tr₁ := by
  intro i t r r' act
  have habove : t.lineage ⟨3⟩ = .ok ([⟨2⟩] ++ ⟨1⟩ :: ([⟨0⟩] ++ [])) := by decide +kernel
  have hbody : t.body? ⟨1⟩ =
      some ([.bind .here (.text "port") .undef, .fail "no port"] ++ [.reset]) := rfl
  have hbase : i.moment.compilation.baseFor .top [] = some .top := rfl
  have hscope : (act.final i.trace).now.compilation.classScope ⟨1⟩ = some ⟨2⟩ := by decide +kernel
  have hwell : t.GoesWell 2 (t.evaluate (t.runBody 2) ⟨3⟩ ⟨1⟩ (some r')) (act.final i.trace) := by
    decide +kernel
  obtain ⟨tr', hfailed, hbuilds, -, hfaithful, hidle, s, hs, hagain⟩ :=
    failed_ancestor_retried i 2 (by decide +kernel) (by decide +kernel) habove (by decide +kernel)
      hbase (by decide +kernel) hbody rfl (by decide +kernel) r (.body "no port")
      (by decide +kernel)
  have hfinal : act.final i.trace = tr' := final_of_error hfailed
  rw [hfinal] at hscope hwell
  obtain rfl : ⟨2⟩ = s := Option.some.inj (hscope.symm.trans hs)
  obtain ⟨out, tr₁, hok, hbuilds', -⟩ := hagain tr' 2 ⟨1⟩ r' rfl hfaithful hidle (by decide +kernel)
    hwell
  exact ⟨habove, tr', hfailed, hbuilds, hidle, out, tr₁, hok, hbuilds'⟩

end ConfigClasses

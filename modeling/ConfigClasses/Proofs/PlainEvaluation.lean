import ConfigClasses.Proofs.Chart
import ConfigClasses.Proofs.Ensures
import ConfigClasses.Proofs.Reference

namespace ConfigClasses

open Eval

section

variable {t : ClassTable Body} {start : Interner} {χ : Chart} {sheet : Sheet} {c : ClassId}
  {evaluate : ClassId → ScopeId → Option Resource → Eval (Option Output)}

theorem ClassTable.find?_within {names names' : Interner} (hw : names.Within names') {name : String}
    (h : t.find? names name = some c) : t.find? names' name = some c := by
  obtain ⟨n, hn, hc⟩ := Option.bind_eq_some_iff.1 h
  exact Option.bind_eq_some_iff.2 ⟨n, hw _ n hn, hc⟩

theorem resolve_own {s : ScopeRef} (hs : t.isOwn start c s = true) {tr : Trace}
    (h : Charted t start χ tr) {here : ScopeId} (hhere : tr.now.compilation.classScope c = some here) :
    s.resolve t here tr = .ok here tr := by
  cases s with
  | here => rfl
  | ofClass name =>
    have hfound : t.find? tr.now.names name = some c :=
      ClassTable.find?_within h.since (of_decide_eq_true hs)
    simp [ScopeRef.resolve, classNamed, now, compilation, bind, EStateM.bind, hfound, hhere, pure,
      EStateM.pure]
  | _ => cases hs

theorem resolve_text (x : String) :
    Succeeds (Charted t start χ) (NameRef.text x).resolve
      fun n tr => Charted t start χ tr ∧ tr.now.names.find? x = some n := by
  refine succeeds_of_ok fun tr h => ⟨_, _, rfl, h.interned x, ?_⟩
  change (tr.now.names.intern x).2.find? x = some (((tr.now.names.intern x).2.find? x).getD _)
  rw [Interner.find?_intern]
  rfl

theorem resolve_name (n : NameRef) :
    Succeeds (Charted t start χ) n.resolve fun _ => Charted t start χ := by
  cases n with
  | number n => exact ensures_pure (Q := fun _ => Charted t start χ) n
  | text x => exact (resolve_text x).after fun _ _ h => h.1

theorem succeeds_step {step : Step} (hstep : t.isPlain start c step = true)
    (hscope : χ.evaluated[χ.sheets.length]? = some c)
    (honce : ((sheet.settings ++ settings [step]).map Prod.fst).Nodup) :
    Succeeds (Charted t start (χ.write sheet)) (step.exec t evaluate χ.next)
      fun _ => Charted t start (χ.write (sheet.run [step])) := by
  have hhere (tr : Trace) (h : Charted t start (χ.write sheet) tr) :
      tr.now.compilation.classScope c = some χ.next := (h.scopes c _).2 ⟨_, rfl, hscope⟩
  unfold ClassTable.isPlain at hstep
  split at hstep
  · next s x =>
    rw [Sheet.run_addNamespace]
    intro tr h
    rw [Step.exec, bind_of_ok (resolve_own hstep h (hhere tr h))]
    refine (resolve_text x).bind (fun n => succeeds_of_ok fun tr h => ?_) tr h
    obtain ⟨scope, -, hfind, -⟩ := h.1.last
    exact ⟨.done, _, bind_of_ok (scopeAt_of_find? hfind), h.1.namespaceAdded h.2⟩
  · next s x v =>
    rw [Sheet.run_bind]
    intro tr h
    rw [Step.exec, bind_of_ok (resolve_own hstep h (hhere tr h))]
    refine (resolve_text x).bind (fun n => succeeds_of_ok fun tr h => ?_) tr h
    obtain ⟨scope, -, hfind, -, -, hshows⟩ := h.1.last
    have hnew : x ∉ sheet.settings.map Prod.fst := by
      intro hx
      rw [List.map_append, List.nodup_append] at honce
      exact honce.2.2 x hx x List.mem_cons_self rfl
    have hbind : bindIn χ.next n v tr = .ok () (tr.record (.bound χ.next n v)) := by
      rw [bindIn, bind_of_ok (scopeAt_of_find? hfind), hshows.unbound h.2 hnew]
      rfl
    exact ⟨.done, _, bind_of_ok hbind, h.1.bound h.2 hnew v⟩
  · cases hstep

theorem succeeds_execAll {body : Body} (hplain : ∀ step ∈ body, t.isPlain start c step = true)
    (hscope : χ.evaluated[χ.sheets.length]? = some c)
    (honce : ((sheet.settings ++ settings body).map Prod.fst).Nodup) :
    Succeeds (Charted t start (χ.write sheet)) (execAll t evaluate χ.next body)
      fun _ => Charted t start (χ.write (sheet.run body)) := by
  induction body generalizing sheet with
  | nil =>
    rw [Sheet.run_nil]
    exact ensures_pure (Q := fun _ => Charted t start (χ.write sheet)) []
  | cons step body ih =>
    have hsettings : sheet.settings ++ settings (step :: body) =
        (sheet.run [step]).settings ++ settings body :=
      congrArg Sheet.settings (sheet.run_cons step body)
    rw [hsettings] at honce
    have hfirst : ((sheet.settings ++ settings [step]).map Prod.fst).Nodup := by
      rw [List.map_append] at honce
      exact honce.of_append_left
    rw [Sheet.run_cons]
    refine (succeeds_step (hplain step List.mem_cons_self) hscope hfirst).bind fun reply => ?_
    have hrest := ih (fun step hs => hplain step (List.mem_cons_of_mem _ hs)) honce
    refine hrest.bind fun replies => ?_
    exact ensures_pure (Q := fun _ => Charted t start (χ.write ((sheet.run [step]).run body))) _

theorem succeeds_runBody (χ : Chart) {body : Body}
    (hplain : ∀ step ∈ body, t.isPlain start c step = true)
    (hscope : χ.evaluated[χ.sheets.length]? = some c)
    (honce : ((sheet.settings ++ settings body).map Prod.fst).Nodup) (depth : Nat) :
    Succeeds (Charted t start (χ.write sheet)) (t.runBody (depth + 1) χ.next body)
      fun _ => Charted t start (χ.write (sheet.run body)) := by
  refine (succeeds_execAll hplain hscope honce).bind fun replies => ?_
  exact ensures_pure (Q := fun _ => Charted t start (χ.write (sheet.run body))) _

theorem succeeds_body {body : Body} (hplain : ∀ step ∈ body, t.isPlain start c step = true)
    (hscope : χ.evaluated[χ.sheets.length]? = some c)
    (honce : ((sheet.settings ++ settings body).map Prod.fst).Nodup) (depth : Nat) :
    Succeeds (Charted t start (χ.write sheet))
      (during (.body c χ.next) (t.runBody (depth + 1) χ.next body))
      fun _ => Charted t start ((χ.begin c).write (sheet.run body)) := by
  have hrun := succeeds_runBody { χ.begin c with stack := .body c χ.next :: χ.stack }
    hplain hscope honce depth
  exact hrun.during (fun tr h => h.begun c χ.next) (fun _ tr h => h.closed _) fun _ h => h

end

def ClassTable.begunOf (t : ClassTable Body) (evaluated : List ClassId) : List ClassId :=
  (evaluated.filter fun c => (t.body? c).isSome).reverse

/-- What there is when every evaluation that began has run its body. -/
def Chart.rest (t : ClassTable Body) (stack : List Activity) (due evaluated : List ClassId) : Chart :=
  ⟨stack, evaluated, due, t.begunOf evaluated, evaluated.map t.sheet⟩

theorem ClassTable.begunOf_of_none {t : ClassTable Body} {c : ClassId} (hb : t.body? c = none)
    (evaluated : List ClassId) : t.begunOf (evaluated ++ [c]) = t.begunOf evaluated := by
  simp [begunOf, hb]

theorem ClassTable.begunOf_of_some {t : ClassTable Body} {c : ClassId} {b : Body}
    (hb : t.body? c = some b) (evaluated : List ClassId) :
    t.begunOf (evaluated ++ [c]) = c :: t.begunOf evaluated := by
  simp [begunOf, hb]

def Resting (t : ClassTable Body) (start : Interner) (E : ClassId → Prop) (stack : List Activity)
    (due : List ClassId) (tr : Trace) : Prop :=
  ∃ evaluated, (∀ c, c ∈ evaluated ↔ E c) ∧ Charted t start (.rest t stack due evaluated) tr

def Made (t : ClassTable Body) (start : Interner) (E : ClassId → Prop) (stack : List Activity)
    (due above : List ClassId) (s : ScopeId) (tr : Trace) : Prop :=
  ∃ evaluated, (∀ c, c ∈ evaluated ↔ E c) ∧ s = (Chart.rest t stack due evaluated).next ∧
    Charted t start ((Chart.rest t stack due evaluated).write (t.blank above)) tr

section

variable {t : ClassTable Body} {start : Interner} {E : ClassId → Prop} {stack : List Activity}
  {due above : List ClassId} {c p : ClassId} {r : Resource} {tr : Trace}

theorem Resting.congr {E' : ClassId → Prop} (h : Resting t start E stack due tr)
    (hE : ∀ a, E a ↔ E' a) : Resting t start E' stack due tr := by
  obtain ⟨evaluated, hevaluated, hcharted⟩ := h
  exact ⟨evaluated, fun a => (hevaluated a).trans (hE a), hcharted⟩

theorem Resting.isEvaluated_iff (h : Resting t start E stack due tr) (c : ClassId) :
    tr.now.compilation.IsEvaluated c ↔ E c := by
  obtain ⟨evaluated, hevaluated, hcharted⟩ := h
  exact (hcharted.isEvaluated_iff c).trans (hevaluated c)

theorem Resting.stack_eq (h : Resting t start E stack due tr) : tr.now.stack = stack := by
  obtain ⟨evaluated, -, hcharted⟩ := h
  exact hcharted.stack

theorem Resting.opened (h : Resting t start E stack due tr) {a : Activity}
    (ha : ∀ c s, a ≠ .body c s) : Resting t start E (a :: stack) due (tr.record (.opened a)) := by
  obtain ⟨evaluated, hevaluated, hcharted⟩ := h
  exact ⟨evaluated, hevaluated, hcharted.opened ha⟩

theorem Resting.closed {a : Activity} (h : Resting t start E (a :: stack) due tr) :
    Resting t start E stack due (tr.record (.closed a)) := by
  obtain ⟨evaluated, hevaluated, hcharted⟩ := h
  exact ⟨evaluated, hevaluated, hcharted.closed a⟩

theorem Resting.tagged (h : Resting t start E stack due tr) {d : ClassDecl Body}
    (hd : t.decl? c = some d) : Resting t start E stack (c :: due) (tr.record (.tagged d.name)) := by
  obtain ⟨evaluated, hevaluated, hcharted⟩ := h
  exact ⟨evaluated, hevaluated, hcharted.tagged hd⟩

theorem Made.closed {a : Activity} {s : ScopeId} (h : Made t start E (a :: stack) due above s tr) :
    Made t start E stack due above s (tr.record (.closed a)) := by
  obtain ⟨evaluated, hevaluated, hs, hcharted⟩ := h
  exact ⟨evaluated, hevaluated, hs, hcharted.closed a⟩

theorem succeeds_nestFor_top (hr : ¬ r.IsMain) (c : ClassId) :
    Succeeds (Resting t start E stack due) (nestFor c .top r) (Made t start E stack due []) := by
  refine succeeds_of_ok ?_
  rintro tr ⟨evaluated, hevaluated, hcharted⟩
  obtain ⟨scope, hscope⟩ := hcharted.top
  rw [nestFor, if_neg hr]
  refine ⟨_, _, nest_of_find? hscope r, evaluated, hevaluated, hcharted.next_eq, ?_⟩
  exact hcharted.nested rfl (ScopeTree.lt_size_of_find? hscope) _ r

theorem succeeds_addNamespaces {χ : Chart} {sheet : Sheet} {names : Interner}
    {namespaces : List Name} (hissued : ∀ ns ∈ namespaces, ns.raw < names.size) :
    Succeeds (fun tr => Charted t start (χ.write sheet) tr ∧ tr.now.names = names)
      (namespaces.forM fun ns => record (.namespaceAdded χ.next ns))
      fun _ => Charted t start (χ.write
        { sheet with spaces := (namespaces.map names.text).foldl addOnce sheet.spaces }) := by
  induction namespaces generalizing sheet with
  | nil => exact fun _ h => h.1
  | cons ns namespaces ih =>
    have hfirst : Succeeds (fun tr => Charted t start (χ.write sheet) tr ∧ tr.now.names = names)
        (record (.namespaceAdded χ.next ns)) fun _ tr =>
          Charted t start (χ.write (sheet.addNamespace (names.text ns))) tr ∧
            tr.now.names = names := by
      refine ensures_record ?_
      rintro tr ⟨hcharted, rfl⟩
      have hns := hcharted.sound.find?_text (hissued ns List.mem_cons_self)
      exact ⟨hcharted.namespaceAdded hns, rfl⟩
    exact hfirst.bind fun _ => ih fun ns hns => hissued ns (List.mem_cons_of_mem _ hns)

theorem succeeds_nestBelow (hr : ¬ r.IsMain) (hp : t.Ancestry p above) (hE : E p) (c : ClassId) :
    Succeeds (Resting t start E stack due) (nestBelow c p r)
      (Made t start E stack due (p :: above)) := by
  refine succeeds_of_ok ?_
  rintro tr ⟨evaluated, hevaluated, hcharted⟩
  obtain ⟨n, hn⟩ := List.mem_iff_getElem?.1 ((hevaluated p).2 hE)
  have houter : tr.now.compilation.classScope p = some ⟨n + 1⟩ :=
    (hcharted.scopes p _).2 ⟨n, rfl, hn⟩
  obtain ⟨scope, -, hscope, -, -, hshows⟩ :=
    hcharted.sheets n (t.sheet p) (by simp [Chart.rest, hn])
  have hhome : tr.now.compilation.home (some p) = some ⟨n + 1⟩ := houter
  have hnested := hcharted.nested hhome (ScopeTree.lt_size_of_find? hscope) (some c) r
  obtain ⟨x, tr', hadd, hcharted'⟩ := (succeeds_addNamespaces hshows.issued).ok ⟨hnested, rfl⟩
  have hact : nestBelow c p r tr = .ok (Chart.rest t stack due evaluated).next tr' := by
    have hcompilation : compilation tr = .ok tr.now.compilation tr := rfl
    rw [nestBelow, bind_of_ok hcompilation]
    simp only [houter]
    rw [bind_of_ok (scopeAt_of_find? hscope), nestFor, if_neg hr,
      bind_of_ok (nest_of_find? hscope r), hcharted.next_eq]
    exact bind_of_ok hadd
  refine ⟨_, _, hact, evaluated, hevaluated, rfl, ?_⟩
  have hspaces : (scope.namespaces.map tr.now.names.text).foldl addOnce [] =
      t.namespacesOf (p :: above) := by
    have hnodup : ([] ++ (t.sheet p).spaces).Nodup := hshows.texts_nodup hcharted.sound
    rw [hshows.texts, foldl_addOnce hnodup, List.nil_append, ClassTable.sheet_spaces hp]
  rw [ClassTable.blank, ← hspaces]
  exact hcharted'

theorem succeeds_place {d : ClassDecl Body} (hd : t.decl? c = some d) (hc : t.Ancestry c above)
    (hplain : t.Plain start c) (hnew : ¬ E c) (depth : Nat) (s : ScopeId) :
    Succeeds (Made t start E stack (c :: due) above s)
      (do
        record (.placed c s)
        match d.body with
        | none => return none
        | some b => some <$> during (.body c s) (t.runBody (depth + 1) s b))
      fun _ => Resting t start (fun a => E a ∨ a = c) stack due := by
  refine succeeds_of_ok ?_
  rintro tr ⟨evaluated, hevaluated, rfl, hcharted⟩
  have hmem (a : ClassId) : a ∈ evaluated ++ [c] ↔ E a ∨ a = c := by
    rw [List.mem_append, List.mem_singleton, hevaluated]
  let χ := (Chart.rest t stack (c :: due) evaluated).place c
  have hnext : χ.next = ⟨evaluated.length + 1⟩ := by simp [χ, Chart.next, Chart.place, Chart.rest]
  have hplaced : Charted t start (χ.write (t.blank above)) (tr.record (.placed c χ.next)) :=
    hnext ▸ hcharted.placed rfl (mt (hevaluated c).1 hnew)
  have hrecord : record (.placed c χ.next) tr = .ok () (tr.record (.placed c χ.next)) := rfl
  have hbody : t.body? c = d.body := by simp [ClassTable.body?, hd]
  cases hb : d.body with
  | none =>
    refine ⟨none, _, bind_of_ok hrecord, evaluated ++ [c], hmem, ?_⟩
    have hsheet : t.sheet c = t.blank above := by
      rw [hc.sheet, ClassTable.bodyOf, hbody, hb]
      exact Sheet.run_nil _
    simpa [χ, Chart.rest, Chart.write, Chart.place, t.begunOf_of_none (hbody.trans hb), hsheet]
      using hplaced
  | some b =>
    obtain rfl : t.bodyOf c = b := by simp [ClassTable.bodyOf, hbody, hb]
    have hscope : χ.evaluated[χ.sheets.length]? = some c := by simp [χ, Chart.place, Chart.rest]
    obtain ⟨x, tr', hact, hcharted'⟩ := (succeeds_body hplain.steps hscope
      (by simpa [ClassTable.blank] using hplain.once) depth).ok hplaced
    refine ⟨some x, tr', (bind_of_ok hrecord).trans ?_, evaluated ++ [c], hmem, ?_⟩
    · simp only [← bind_pure_comp]
      exact bind_of_ok hact
    · simpa [χ, Chart.rest, Chart.write, Chart.place, Chart.begin,
        t.begunOf_of_some (hbody.trans hb), hc.sheet] using hcharted'

theorem succeeds_settle_again (hE : E c) (run : ScopeId → Body → Eval Output)
    (place : Eval ScopeId) :
    Succeeds (Resting t start E stack due) (t.settle run c place)
      fun _ => Resting t start E stack due := by
  refine succeeds_of_ok fun tr h => ⟨none, tr, ?_, h⟩
  have hevaluated : tr.now.compilation.IsEvaluated c := (h.isEvaluated_iff c).2 hE
  simp [ClassTable.settle, compilation, bind, EStateM.bind, hevaluated, pure, EStateM.pure]

theorem succeeds_settle {E' : ClassId → Prop} {d : ClassDecl Body} {place : Eval ScopeId}
    (hd : t.decl? c = some d) (hc : t.Ancestry c above) (hplain : t.Plain start c)
    (hpending : isPending c stack = false) (hE : ¬ E c) (hE' : ¬ E' c)
    (hplace : Succeeds (Resting t start E (.ascent c :: stack) (c :: due)) place
      (Made t start E' (.ascent c :: stack) (c :: due) above)) (depth : Nat) :
    Succeeds (Resting t start E stack due) (t.settle (t.runBody (depth + 1)) c place)
      fun _ => Resting t start (fun a => E' a ∨ a = c) stack due := by
  have hascent : Succeeds (Resting t start E stack (c :: due)) (during (.ascent c) place)
      (Made t start E' stack (c :: due) above) :=
    hplace.during (fun _ h => h.opened (by simp)) (fun _ _ h => h.closed) fun _ h => h
  refine ensures_compilation_bind fun k => ?_
  split
  · next hk =>
    rintro tr ⟨h, rfl⟩
    exact (hE ((h.isEvaluated_iff c).1 hk)).elim
  refine ensures_now_bind fun m => ensures_refusal ?_ fun _ => ?_
  · rintro hm tr ⟨⟨h, -⟩, rfl⟩
    rw [h.stack_eq, hpending] at hm
    cases hm
  have hdecl : t.declAt c = pure d := by simp [ClassTable.declAt, hd]
  rw [hdecl, pure_bind]
  have htag : Succeeds (Resting t start E stack due) (record (.tagged d.name))
      fun _ => Resting t start E stack (c :: due) := ensures_record fun _ h => h.tagged hd
  refine (htag.bind fun _ => hascent.bind fun s => ?_).before fun _ h => h.1.1
  have hplaced : Succeeds (Made t start E' stack (c :: due) above s) _ _ :=
    succeeds_place hd hc hplain hE' depth s
  cases hb : d.body with
  | none => simpa only [hb] using hplaced
  | some b => simpa only [hb] using hplaced

def ClassTable.Closed (t : ClassTable Body) (E : ClassId → Prop) : Prop :=
  ∀ c, E c → ∀ a ∈ t.aboveOf c, E a

theorem ClassTable.Ancestry.closed (hc : t.Ancestry c above) : t.Closed (· ∈ c :: above) := by
  rintro a ha b hb
  rcases List.mem_cons.1 ha with rfl | ha
  · exact List.mem_cons_of_mem _ (hc.aboveOf ▸ hb)
  · obtain ⟨ds, hds, -⟩ := hc.tail_of_mem ha
    exact List.mem_cons_of_mem _ (hc.subset ha hds (hds.aboveOf ▸ hb))

theorem ClassTable.Closed.absorbs (h : t.Closed E) (hc : t.Ancestry c above) (hE : E c)
    (a : ClassId) : E a ↔ E a ∨ a ∈ c :: above := by
  refine ⟨.inl, fun ha => ha.elim id fun ha => ?_⟩
  rcases List.mem_cons.1 ha with rfl | ha
  · exact hE
  · exact h c hE a (hc.aboveOf.symm ▸ ha)

theorem succeeds_descend (hr : ¬ r.IsMain) (hc : t.Ancestry c above) (hclosed : t.Closed E)
    (hdecl : ∀ a ∈ c :: above, (t.decl? a).isSome) (hplain : ∀ a ∈ c :: above, t.Plain start a)
    (hpending : ∀ a ∈ c :: above, isPending a stack = false) (depth : Nat) :
    Succeeds (Resting t start E stack due) (t.descend (t.runBody (depth + 1)) .top r above c)
      fun _ => Resting t start (fun a => E a ∨ a ∈ c :: above) stack due := by
  induction hc generalizing stack due with
  | @top c htop =>
    by_cases hE : E c
    · exact (succeeds_settle_again hE _ _).after fun _ _ h =>
        h.congr (hclosed.absorbs (.top htop) hE)
    · obtain ⟨d, hd⟩ := Option.isSome_iff_exists.1 (hdecl c List.mem_cons_self)
      have hplace : Succeeds (Resting t start E (.ascent c :: stack) (c :: due)) (nestFor c .top r)
          (Made t start E (.ascent c :: stack) (c :: due) []) := succeeds_nestFor_top hr c
      exact (succeeds_settle hd (.top htop) (hplain c List.mem_cons_self)
        (hpending c List.mem_cons_self) hE hE hplace depth).after fun _ _ h => h.congr (by simp)
  | @up c p above hcp hp ih =>
    have hc : t.Ancestry c (p :: above) := .up hcp hp
    -- A class of the set is passed over, and so are all classes above it.
    by_cases hE : E c
    · exact (succeeds_settle_again hE _ _).after fun _ _ h => h.congr (hclosed.absorbs hc hE)
    · obtain ⟨d, hd⟩ := Option.isSome_iff_exists.1 (hdecl c List.mem_cons_self)
      have hpending' : ∀ a ∈ p :: above, isPending a (.ascent c :: stack) = false := by
        intro a ha
        have hne : c ≠ a := fun he => hc.not_mem (he ▸ ha)
        simp [isPending, hne, hpending a (List.mem_cons_of_mem c ha)]
      have hparent : Succeeds (Resting t start E (.ascent c :: stack) (c :: due))
          (t.descend (t.runBody (depth + 1)) .top r above p)
          fun _ => Resting t start (fun a => E a ∨ a ∈ p :: above) (.ascent c :: stack) (c :: due) :=
        ih (fun a ha => hdecl a (List.mem_cons_of_mem c ha))
          (fun a ha => hplain a (List.mem_cons_of_mem c ha)) hpending'
      have hplace : Succeeds (Resting t start E (.ascent c :: stack) (c :: due))
          (do let _ ← t.descend (t.runBody (depth + 1)) .top r above p; nestBelow c p r)
          (Made t start (fun a => E a ∨ a ∈ p :: above) (.ascent c :: stack) (c :: due)
            (p :: above)) :=
        hparent.bind fun _ => succeeds_nestBelow hr hp (.inr List.mem_cons_self) c
      have hnew : ¬ (E c ∨ c ∈ p :: above) := fun h => h.elim hE hc.not_mem
      refine (succeeds_settle hd hc (hplain c List.mem_cons_self) (hpending c List.mem_cons_self) hE
        hnew hplace depth).after fun _ _ h => h.congr fun a => ?_
      rw [List.mem_cons (a := a) (b := c), or_assoc, or_comm (b := a = c)]

theorem succeeds_evaluate (ht : ClassTable.empty.GrowsTo t) (hr : ¬ r.IsMain)
    (hc : t.PlainChain start c) (hclosed : t.Closed E)
    (hpending : ∀ a ∈ c :: t.aboveOf c, isPending a stack = false) (depth : Nat) :
    Succeeds (Resting t start E stack due) (t.evaluate (t.runBody (depth + 1)) c .top (some r))
      fun _ => Resting t start (fun a => E a ∨ a ∈ c :: t.aboveOf c) stack due := by
  obtain ⟨d, hd⟩ := Option.isSome_iff_exists.1 hc.declared
  have hdecl : ∀ a ∈ c :: t.aboveOf c, (t.decl? a).isSome :=
    List.forall_mem_cons.2 ⟨hc.declared, hc.ancestry.declared ht⟩
  have hpending' : ∀ a ∈ c :: t.aboveOf c, isPending a (.call c .top (some r) :: stack) = false :=
    hpending
  unfold ClassTable.evaluate
  simp only [ClassTable.evaluateFor_declared hd hc.lineage]
  have hdescend : Succeeds (Resting t start E (.call c .top (some r) :: stack) due)
      (t.descend (t.runBody (depth + 1)) .top r (t.aboveOf c) c)
      fun _ => Resting t start (fun a => E a ∨ a ∈ c :: t.aboveOf c)
        (.call c .top (some r) :: stack) due :=
    succeeds_descend hr hc.ancestry hclosed hdecl hc.plain hpending' depth
  exact hdescend.during (fun _ h => h.opened (by simp)) (fun _ _ h => h.closed) fun _ h => h

theorem resting_resolve (n : NameRef) :
    Succeeds (Resting t start E stack due) n.resolve fun _ => Resting t start E stack due := by
  rintro tr ⟨evaluated, hevaluated, hcharted⟩
  exact (resolve_name n).after (fun _ _ h => ⟨evaluated, hevaluated, h⟩) tr hcharted

def evaluation (type title : NameRef) (c : ClassId) : Step :=
  .evaluate (.number c) .top (.titled type title)

theorem succeeds_evaluation (ht : ClassTable.empty.GrowsTo t) (hc : t.PlainChain start c)
    (hclosed : t.Closed E) (type title : NameRef) (depth : Nat) :
    Succeeds (Resting t start E [.evaluator] [])
      ((evaluation type title c).exec t (t.evaluate (t.runBody (depth + 1))) .top)
      fun reply tr => (∃ result, reply = .output result) ∧
        Resting t start (fun a => E a ∨ a ∈ c :: t.aboveOf c) [.evaluator] [] tr := by
  rw [evaluation, Step.exec]
  simp only [ClassRef.resolve, ScopeRef.resolve, ResourceRef.resolve, pure_bind, bind_assoc]
  refine (resting_resolve type).bind fun n => (resting_resolve title).bind fun m => ?_
  have hr : ¬ (⟨n, .named m⟩ : Resource).IsMain := by simp [Resource.IsMain]
  refine (succeeds_evaluate ht hr hc hclosed (fun _ _ => rfl) depth).bind fun o => ?_
  exact succeeds_of_ok fun tr h => ⟨.output o, tr, rfl, ⟨o, rfl⟩, h⟩

theorem ClassTable.Closed.insert (h : t.Closed E) (hc : t.Ancestry c above) :
    t.Closed fun a => E a ∨ a ∈ c :: above := by
  rintro a (ha | ha) b hb
  · exact .inl (h a ha b hb)
  · exact .inr (hc.closed a ha b hb)

theorem succeeds_evaluations (ht : ClassTable.empty.GrowsTo t) {cs : List ClassId}
    (hcs : ∀ c ∈ cs, t.PlainChain start c) (hclosed : t.Closed E) (type title : NameRef)
    (depth : Nat) :
    Succeeds (Resting t start E [.evaluator] [])
      (execEach t (t.evaluate (t.runBody (depth + 1))) .top (cs.map (evaluation type title)))
      fun replies tr => replies.length = cs.length ∧
        (∀ reply ∈ replies, ∃ result, reply = .output result) ∧
        Resting t start (fun a => E a ∨ ∃ c ∈ cs, a ∈ c :: t.aboveOf c) [.evaluator] [] tr := by
  induction cs generalizing E with
  | nil => exact succeeds_of_ok fun tr h => ⟨[], tr, rfl, rfl, by simp, h.congr (by simp)⟩
  | cons c cs ih =>
    have hc := hcs c List.mem_cons_self
    have hfirst := (succeeds_evaluation ht hc hclosed type title depth).answering (t := t)
    refine succeeds_of_ok fun tr h => ?_
    obtain ⟨reply, tr₁, hact, hreply, hresting⟩ := hfirst.ok h
    have hclosed' := hclosed.insert hc.ancestry
    obtain ⟨replies, tr₂, hrest, hlength, hreplies, hresting'⟩ :=
      (ih (fun c hc => hcs c (List.mem_cons_of_mem _ hc)) hclosed').ok hresting
    refine ⟨reply :: replies, tr₂, ?_, by simp [hlength], ?_, hresting'.congr fun a => ?_⟩
    · rw [List.map_cons, execEach, bind_of_ok hact]
      exact bind_of_ok hrest
    · exact List.forall_mem_cons.2 ⟨hreply, hreplies⟩
    · simp only [List.exists_mem_cons_iff, or_assoc]

end

end ConfigClasses

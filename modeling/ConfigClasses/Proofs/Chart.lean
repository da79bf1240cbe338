import ConfigClasses.Proofs.PlainBody
import ConfigClasses.Proofs.Registration
import ConfigClasses.Proofs.Starts

/-!
A chart tells what evaluations of plain bodies have come to by classes and texts alone. The numbers of
scopes follow from the order of the classes, and those of names do not matter.
-/

namespace ConfigClasses

def Compilation.home (k : Compilation) : Option ClassId → Option ScopeId
  | none => some .top
  | some p => k.classScope p

def Moment.Holds (m : Moment) (s : ScopeId) (sheet : Sheet) : Prop :=
  ∃ scope outer, m.compilation.tree.find? s = some scope ∧
    m.compilation.home sheet.around = some outer ∧ scope.parent = some outer ∧
    scope.Shows m.names sheet.spaces sheet.settings

structure Chart where
  stack : List Activity
  evaluated : List ClassId
  due : List ClassId
  begun : List ClassId
  sheets : List Sheet

namespace Chart

def next (χ : Chart) : ScopeId := ⟨χ.sheets.length + 1⟩

def write (χ : Chart) (sheet : Sheet) : Chart := { χ with sheets := χ.sheets ++ [sheet] }

def place (χ : Chart) (c : ClassId) : Chart :=
  { χ with evaluated := χ.evaluated ++ [c], due := χ.due.tail }

def begin (χ : Chart) (c : ClassId) : Chart := { χ with begun := c :: χ.begun }

end Chart

structure Charted (t : ClassTable Body) (start : Interner) (χ : Chart) (tr : Trace) : Prop where
  stack : tr.now.stack = χ.stack
  sound : tr.now.names.Sound
  since : start.Within tr.now.names
  ordered : tr.now.compilation.tree.Ordered
  size : tr.now.compilation.tree.size = χ.sheets.length + 1
  scopes : ∀ c s,
    tr.now.compilation.classScope c = some s ↔ ∃ n, s = ⟨n + 1⟩ ∧ χ.evaluated[n]? = some c
  tags : ∀ name, tr.now.compilation.IsTagged name ↔
    ∃ c d, (c ∈ χ.evaluated ∨ c ∈ χ.due) ∧ t.decl? c = some d ∧ d.name = name
  started : started tr.journal = χ.begun
  sheets : ∀ n sheet, χ.sheets[n]? = some sheet → tr.now.Holds ⟨n + 1⟩ sheet

theorem Moment.Holds.frame {m m' : Moment} {s : ScopeId} {sheet : Sheet} (h : m.Holds s sheet)
    (hnames : m.names.Sound) (hnames' : m'.names.Sound) (hwithin : m.names.Within m'.names)
    (hfind : m'.compilation.tree.find? s = m.compilation.tree.find? s)
    (hhome : ∀ around outer, m.compilation.home around = some outer →
      m'.compilation.home around = some outer) : m'.Holds s sheet := by
  obtain ⟨scope, outer, hscope, houter, hparent, hshows⟩ := h
  exact ⟨scope, outer, hfind.trans hscope, hhome _ _ houter, hparent,
    hshows.within hnames hnames' hwithin⟩

namespace Charted

variable {t : ClassTable Body} {start : Interner} {χ : Chart} {tr : Trace} {sheet : Sheet}

theorem isEvaluated_iff (h : Charted t start χ tr) (c : ClassId) :
    tr.now.compilation.IsEvaluated c ↔ c ∈ χ.evaluated := by
  rw [Compilation.isEvaluated_iff, List.mem_iff_getElem?]
  constructor
  · rintro ⟨s, hs⟩
    obtain ⟨n, -, hn⟩ := (h.scopes c s).1 hs
    exact ⟨n, hn⟩
  · rintro ⟨n, hn⟩
    exact ⟨⟨n + 1⟩, (h.scopes c _).2 ⟨n, rfl, hn⟩⟩

theorem top (h : Charted t start χ tr) :
    ∃ scope, tr.now.compilation.tree.find? .top = some scope := by
  refine ⟨_, Array.getElem?_eq_getElem (?_ : 0 < tr.now.compilation.tree.scopes.size)⟩
  have hsize := h.size
  unfold ScopeTree.size at hsize
  omega

theorem next_eq (h : Charted t start χ tr) : tr.now.compilation.tree.next = χ.next :=
  congrArg ScopeId.mk h.size

theorem last (h : Charted t start (χ.write sheet) tr) : tr.now.Holds χ.next sheet :=
  h.sheets χ.sheets.length sheet (by simp [Chart.write])

theorem others (h : Charted t start (χ.write sheet) tr) {n : Nat} {other : Sheet}
    (hn : χ.sheets[n]? = some other) : (⟨n + 1⟩ : ScopeId) ≠ χ.next ∧ tr.now.Holds ⟨n + 1⟩ other := by
  have hlt : n < χ.sheets.length := (List.getElem?_eq_some_iff.1 hn).1
  refine ⟨fun heq => ?_, h.sheets n other ?_⟩
  · have := congrArg ScopeId.raw heq
    simp only [Chart.next] at this
    omega
  · exact getElem?_concat_eq_some.2 (.inl hn)

theorem scope_injective (h : Charted t start χ tr) {c d : ClassId} {s : ScopeId}
    (hc : tr.now.compilation.classScope c = some s)
    (hd : tr.now.compilation.classScope d = some s) : c = d := by
  obtain ⟨n, rfl, hn⟩ := (h.scopes c s).1 hc
  obtain ⟨m, hm, hmd⟩ := (h.scopes d _).1 hd
  obtain rfl : n = m := Nat.succ.inj (congrArg ScopeId.raw hm)
  exact Option.some.inj (hn.symm.trans hmd)

theorem ne_top (h : Charted t start χ tr) (c : ClassId) :
    tr.now.compilation.classScope c ≠ some .top := by
  intro hc
  obtain ⟨n, hn, -⟩ := (h.scopes c _).1 hc
  exact Nat.succ_ne_zero n (congrArg ScopeId.raw hn).symm

theorem evaluated_nodup (h : Charted t start χ tr) : χ.evaluated.Nodup := by
  refine List.nodup_iff_getElem?_ne_getElem?.2 fun i j hij hj heq => ?_
  obtain ⟨c, hc⟩ : ∃ c, χ.evaluated[j]? = some c := ⟨_, List.getElem?_eq_getElem hj⟩
  have hi := (h.scopes c ⟨i + 1⟩).2 ⟨i, rfl, heq.trans hc⟩
  have hj := (h.scopes c ⟨j + 1⟩).2 ⟨j, rfl, hc⟩
  have := congrArg ScopeId.raw (Option.some.inj (hi.symm.trans hj))
  simp only at this
  omega

theorem ancestors_top (h : Charted t start χ tr) :
    tr.now.compilation.tree.ancestors .top = [.top] := by
  have hparent : tr.now.compilation.tree.parent? .top = none :=
    Option.eq_none_iff_forall_ne_some.2 fun o ho => Nat.not_lt_zero _ (h.ordered _ _ ho)
  simp [ScopeTree.ancestors, ScopeTree.ancestorsFrom, hparent]

theorem opened (h : Charted t start χ tr) {a : Activity} (ha : ∀ c s, a ≠ .body c s) :
    Charted t start { χ with stack := a :: χ.stack } (tr.record (.opened a)) :=
  { h with
    stack := congrArg (a :: ·) h.stack
    started := (started_cons (fun c s he => ha c s (Event.opened.inj he)) _).trans h.started }

theorem begun (h : Charted t start χ tr) (c : ClassId) (s : ScopeId) :
    Charted t start { χ.begin c with stack := .body c s :: χ.stack }
      (tr.record (.opened (.body c s))) :=
  { h with
    stack := congrArg (Activity.body c s :: ·) h.stack
    started := (started_opened c s _).trans (congrArg (c :: ·) h.started) }

theorem closed (h : Charted t start χ tr) (a : Activity) :
    Charted t start { χ with stack := χ.stack.tail } (tr.record (.closed a)) :=
  { h with
    stack := congrArg List.tail h.stack
    started := (started_cons (by simp) _).trans h.started }

theorem interned (h : Charted t start χ tr) (x : String) :
    Charted t start χ (tr.record (.interned x)) :=
  { h with
    sound := h.sound.intern x
    since := h.since.trans (Interner.within_intern _ x)
    started := (started_cons (by simp) _).trans h.started
    sheets := fun n sheet hn => (h.sheets n sheet hn).frame h.sound (h.sound.intern x)
      (Interner.within_intern _ x) rfl fun _ _ ho => ho }

theorem tagged (h : Charted t start χ tr) {c : ClassId} {d : ClassDecl Body}
    (hd : t.decl? c = some d) :
    Charted t start { χ with due := c :: χ.due } (tr.record (.tagged d.name)) where
  stack := h.stack
  sound := h.sound
  since := h.since
  ordered := by
    simpa [Trace.record, Moment.after] using h.ordered
  size := by
    simpa [Trace.record, Moment.after] using h.size
  scopes c s := by
    simpa [Trace.record, Moment.after] using h.scopes c s
  tags name := by
    simp only [Trace.record, Moment.after, Compilation.isTagged_tag, h.tags, List.mem_cons]
    constructor
    · rintro (rfl | ⟨e, d', he, hd', hname⟩)
      · exact ⟨c, d, .inr (.inl rfl), hd, rfl⟩
      · exact ⟨e, d', he.imp_right .inr, hd', hname⟩
    · rintro ⟨e, d', he | rfl | he, hd', rfl⟩
      · exact .inr ⟨e, d', .inl he, hd', rfl⟩
      · cases hd.symm.trans hd'
        exact .inl rfl
      · exact .inr ⟨e, d', .inr he, hd', rfl⟩
  started := (started_cons (by simp) _).trans h.started
  sheets n sheet hn := by
    refine (h.sheets n sheet hn).frame h.sound h.sound (.refl _) ?_ fun around outer ho => ?_
    · simp [Trace.record, Moment.after]
    · cases around with
      | none => exact ho
      | some p => simpa [Trace.record, Moment.after, Compilation.home] using ho

theorem nested (h : Charted t start χ tr) {around : Option ClassId} {outer : ScopeId}
    (howner : tr.now.compilation.home around = some outer)
    (houter : outer.raw < tr.now.compilation.tree.size) (owner : Option ClassId) (r : Resource) :
    Charted t start (χ.write ⟨around, [], []⟩) (tr.record (.nested owner outer r)) where
  stack := h.stack
  sound := h.sound
  since := h.since
  ordered := h.ordered.nest r houter
  size := by
    simp [Trace.record, Moment.after, Chart.write, h.size]
  scopes := h.scopes
  tags := h.tags
  started := (started_cons (by simp) _).trans h.started
  sheets n sheet hn := by
    rcases getElem?_concat_eq_some.1 hn with hold | ⟨rfl, rfl⟩
    · have hheld := h.sheets n sheet hold
      have hlt : n < χ.sheets.length := (List.getElem?_eq_some_iff.1 hold).1
      refine hheld.frame h.sound h.sound (.refl _) ?_ fun _ _ ho => ho
      refine ScopeTree.find?_nest_of_lt outer r ?_
      rw [h.size]
      exact Nat.succ_lt_succ hlt
    · refine ⟨.fresh (some outer) (some r), outer, ?_, howner, rfl, Scope.shows_fresh _ _ _⟩
      have hnext : (⟨χ.sheets.length + 1⟩ : ScopeId) = tr.now.compilation.tree.next :=
        h.next_eq.symm
      simp [Trace.record, Moment.after, hnext, ScopeTree.find?_nest]

theorem rewritten (h : Charted t start (χ.write sheet) tr) {e : Event} {tree : ScopeTree}
    {f : Scope → Scope} {sheet' : Sheet}
    (hafter : tr.now.after e = { tr.now with compilation.tree := tree })
    (hfind : ∀ u, tree.find? u = if u = χ.next then (tr.now.compilation.tree.find? u).map f
      else tr.now.compilation.tree.find? u)
    (hordered : tree.Ordered) (hsize : tree.size = tr.now.compilation.tree.size)
    (hparent : ∀ scope, (f scope).parent = scope.parent) (haround : sheet'.around = sheet.around)
    (hshows : ∀ scope : Scope, scope.Shows tr.now.names sheet.spaces sheet.settings →
      (f scope).Shows tr.now.names sheet'.spaces sheet'.settings)
    (hstarted : ConfigClasses.started (e :: tr.journal) = ConfigClasses.started tr.journal) :
    Charted t start (χ.write sheet') (tr.record e) := by
  have hrecord : tr.record e = ⟨{ tr.now with compilation.tree := tree }, e :: tr.journal⟩ :=
    congrArg (Trace.mk · _) hafter
  rw [hrecord]
  refine { h with ordered := hordered, size := ?_, started := hstarted.trans h.started, sheets := ?_ }
  · simpa [hsize, Chart.write] using h.size
  · intro i other hi
    rcases getElem?_concat_eq_some.1 hi with hold | ⟨rfl, rfl⟩
    · obtain ⟨hne, hheld⟩ := h.others hold
      refine hheld.frame h.sound h.sound (.refl _) ?_ fun _ _ ho => ho
      exact (hfind _).trans (if_neg hne)
    · obtain ⟨scope, outer, hscope, houter, houtside, hshown⟩ := h.last
      refine ⟨f scope, outer, ?_, haround ▸ houter, (hparent scope).trans houtside,
        hshows scope hshown⟩
      exact (hfind _).trans ((if_pos rfl).trans (congrArg (Option.map f) hscope))

theorem namespaceAdded (h : Charted t start (χ.write sheet) tr) {x : String} {n : Name}
    (hx : tr.now.names.find? x = some n) :
    Charted t start (χ.write (sheet.addNamespace x)) (tr.record (.namespaceAdded χ.next n)) :=
  h.rewritten rfl (fun u => ScopeTree.find?_addNamespace _ u n) (h.ordered.addNamespace _ n)
    (ScopeTree.size_addNamespace _ n) (fun scope => scope.parent_addNamespace n) rfl
    (fun _ hshown => hshown.addNamespace h.sound hx) (started_cons (by simp) _)

theorem bound (h : Charted t start (χ.write sheet) tr) {x : String} {n : Name}
    (hx : tr.now.names.find? x = some n) (hnew : x ∉ sheet.settings.map Prod.fst) (v : Value) :
    Charted t start (χ.write (sheet.bind x v)) (tr.record (.bound χ.next n v)) :=
  h.rewritten rfl (fun u => ScopeTree.find?_bind _ u n v) (h.ordered.bind _ n v)
    (ScopeTree.size_bind _ n v) (fun _ => rfl) rfl
    (fun _ hshown => hshown.bind h.sound hx hnew v) (started_cons (by simp) _)

theorem placed {c : ClassId} {due : List ClassId} (h : Charted t start χ tr)
    (hdue : χ.due = c :: due) (hnew : c ∉ χ.evaluated) :
    Charted t start (χ.place c) (tr.record (.placed c ⟨χ.evaluated.length + 1⟩)) where
  stack := h.stack
  sound := h.sound
  since := h.since
  ordered := by
    simpa [Trace.record, Moment.after] using h.ordered
  size := by
    simpa [Trace.record, Moment.after, Chart.place] using h.size
  scopes d s := by
    simp only [Trace.record, Moment.after, Chart.place]
    rw [Compilation.register_classScope _ _ _ (mt (h.isEvaluated_iff c).1 hnew)]
    simp only [getElem?_concat_eq_some]
    by_cases hd : d = c
    · subst hd
      have hn (n : Nat) : χ.evaluated[n]? ≠ some d := fun hn =>
        hnew (List.mem_of_getElem? hn)
      simp [hn, eq_comm]
    · simp [h.scopes, hd, Ne.symm hd]
  tags name := by
    simp only [Trace.record, Moment.after, Compilation.register_isTagged, h.tags, Chart.place, hdue]
    simp only [List.tail_cons, List.mem_append, List.mem_cons, List.not_mem_nil, or_false, or_assoc]
  started := (started_cons (by simp) _).trans h.started
  sheets n sheet hn := by
    refine (h.sheets n sheet hn).frame h.sound h.sound (.refl _) ?_ fun around outer ho => ?_
    · simp [Trace.record, Moment.after]
    · cases around with
      | none => exact ho
      | some p => exact Compilation.classScope_register _ _ _ ho

end Charted

end ConfigClasses

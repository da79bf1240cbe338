import ConfigClasses.Proofs.BodyOnce
import ConfigClasses.Proofs.Delivery
import ConfigClasses.Proofs.Growth

namespace ConfigClasses

structure Making where
  scope : ScopeId
  owner : Option ClassId
  resource : Resource
deriving DecidableEq

def makings : List Event → List Making
  | [] => []
  | .nested owner _ r :: journal =>
    ⟨(Moment.ofJournal journal).compilation.tree.next, owner, r⟩ :: makings journal
  | _ :: journal => makings journal

/-- The classes that were given a scope by an evaluation for an ordinary resource. -/
def ordinary : List Event → List ClassId
  | [] => []
  | .placed c _ :: journal =>
    if ordinaryErrand (Moment.ofJournal journal).stack then c :: ordinary journal
    else ordinary journal
  | _ :: journal => ordinary journal

section

variable {journal : List Event}

theorem owners_of_prompt (h : Prompt journal) :
    (makings journal).filterMap Making.owner = (expectant journal).toList ++ ordinary journal := by
  induction journal with
  | nil => rfl
  | cons e journal ih =>
    obtain ⟨htimely, hprompt⟩ := h
    have hold := ih hprompt
    cases e with
    | nested owner outer r =>
      have hnone : expectant journal = none := by cases owner <;> exact htimely
      cases owner <;> simpa [makings, expectant, ordinary, hnone] using hold
    | placed c s =>
      have hdue : expectant journal =
          if ordinaryErrand (Moment.ofJournal journal).stack then some c else none := htimely
      rw [hdue] at hold
      simp only [makings, hold, expectant, ordinary]
      split <;> rfl
    | closed a =>
      cases a with
      | ascent c => exact hold
      | _ =>
        have hnone : expectant journal = none := htimely
        simpa [makings, expectant, ordinary, hnone] using hold
    | namespaceAdded s ns => exact hold
    | _ =>
      have hnone : expectant journal = none := htimely
      simpa [makings, expectant, ordinary, hnone] using hold

theorem makings_cons {e : Event} (h : ∀ owner outer r, e ≠ .nested owner outer r) :
    makings (e :: journal) = makings journal := by
  cases e with
  | nested owner outer r => exact (h owner outer r rfl).elim
  | _ => rfl

theorem size_after {m : Moment} {e : Event} (hreset : e ≠ .reset)
    (h : ∀ owner outer r, e ≠ .nested owner outer r) :
    (m.after e).compilation.tree.size = m.compilation.tree.size := by
  cases e with
  | nested owner outer r => exact (h owner outer r rfl).elim
  | reset => exact (hreset rfl).elim
  | _ => simp [Moment.after]

theorem size_of_makings (hreset : .reset ∉ journal) :
    (Moment.ofJournal journal).compilation.tree.size = 1 + (makings journal).length := by
  induction journal with
  | nil => rfl
  | cons e journal ih =>
    have hold := ih (List.not_mem_of_not_mem_cons hreset)
    by_cases hnested : ∃ owner outer r, e = .nested owner outer r
    · obtain ⟨owner, outer, r, rfl⟩ := hnested
      simp only [Moment.ofJournal, Moment.after, ScopeTree.size_nest, makings, List.length_cons, hold]
      omega
    · have hother : ∀ owner outer r, e ≠ .nested owner outer r := by simpa using hnested
      rw [makings_cons hother, ← hold]
      exact size_after (List.ne_of_not_mem_cons hreset).symm hother

theorem scopes_of_makings (hreset : .reset ∉ journal) :
    (makings journal).map Making.scope =
      ((List.range' 1 (makings journal).length).map ScopeId.mk).reverse := by
  induction journal with
  | nil => rfl
  | cons e journal ih =>
    have hold := ih (List.not_mem_of_not_mem_cons hreset)
    by_cases hnested : ∃ owner outer r, e = .nested owner outer r
    · obtain ⟨owner, outer, r, rfl⟩ := hnested
      have hnext : (Moment.ofJournal journal).compilation.tree.next =
          ⟨1 + (makings journal).length⟩ :=
        congrArg ScopeId.mk (size_of_makings (List.not_mem_of_not_mem_cons hreset))
      simp only [makings, List.map_cons, hold, hnext, List.length_cons, List.range'_concat,
        Nat.one_mul, List.map_append, List.map_nil, List.reverse_append, List.reverse_cons,
        List.reverse_nil, List.nil_append, List.singleton_append]
    · have hother : ∀ owner outer r, e ≠ .nested owner outer r := by simpa using hnested
      rw [makings_cons hother, hold]

theorem makings_nodup (hreset : .reset ∉ journal) : ((makings journal).map Making.scope).Nodup := by
  rw [scopes_of_makings hreset]
  have hinj : Function.Injective ScopeId.mk := fun m n h => congrArg ScopeId.raw h
  exact List.nodup_reverse.2 (List.Nodup.map hinj (List.nodup_range' ))

theorem making_of_scope (hreset : .reset ∉ journal) {s : ScopeId} (hs : s ≠ .top)
    (hin : s.raw < (Moment.ofJournal journal).compilation.tree.size) :
    ∃! m, m ∈ makings journal ∧ m.scope = s := by
  have hmem : s ∈ (makings journal).map Making.scope := by
    have hne : s.raw ≠ 0 := fun h => hs (congrArg ScopeId.mk h)
    rw [size_of_makings hreset] at hin
    rw [scopes_of_makings hreset]
    refine List.mem_reverse.2 (List.mem_map.2 ⟨s.raw, List.mem_range'_1.2 ?_, rfl⟩)
    omega
  obtain ⟨m, hm, rfl⟩ := List.mem_map.1 hmem
  refine ⟨m, ⟨hm, rfl⟩, fun m' hm' => ?_⟩
  exact List.inj_on_of_nodup_map (makings_nodup hreset) hm'.1 hm hm'.2

theorem resource_of_making (hreset : .reset ∉ journal) {m : Making} (hm : m ∈ makings journal) :
    ((Moment.ofJournal journal).compilation.tree.find? m.scope).bind Scope.resource =
      some m.resource := by
  induction journal with
  | nil => cases hm
  | cons e journal ih =>
    have hkept (hold : m ∈ makings journal) :
        ((Moment.ofJournal (e :: journal)).compilation.tree.find? m.scope).bind Scope.resource =
          some m.resource := by
      have hresource := ih (List.not_mem_of_not_mem_cons hreset) hold
      obtain ⟨scope, hscope, hr⟩ := Option.bind_eq_some_iff.1 hresource
      have hcontinues := continues_after (Moment.ofJournal journal)
        (List.ne_of_not_mem_cons hreset).symm
      obtain ⟨scope', hscope', hsame⟩ := hcontinues.tree.scope _ _ hscope
      simp only [Moment.ofJournal, hscope', Option.bind_some, hsame.resource, hr]
    by_cases hnested : ∃ owner outer r, e = .nested owner outer r
    · obtain ⟨owner, outer, r, rfl⟩ := hnested
      rcases List.mem_cons.1 hm with rfl | hold
      · simp [Moment.ofJournal, Moment.after, ScopeTree.find?_nest, Scope.fresh]
      · exact hkept hold
    · exact hkept (makings_cons (by simpa using hnested) ▸ hm)

end

namespace ClassTable.Chronicle

variable {β : Type} {t : ClassTable β} {tr : Trace} {Next : ClassTable β → ClassTable β → Prop}

theorem not_isEvaluated_of_placing (h : Chronicle Next t tr) (hreset : .reset ∉ tr.journal)
    (hone : OneEvaluator tr.journal) (hassigned : Unassigned tr.journal) {c : ClassId}
    {s : ScopeId} (he : t.Permits tr (.placed c s)) : ¬ tr.now.compilation.IsEvaluated c := by
  intro hevaluated
  have hclaimed : c ∈ claims tr := by simp [claims_of_head he.2.2.1 (c := c) rfl]
  obtain ⟨u, hplaced, -⟩ := h.vacant hreset hone hassigned c hclaimed hevaluated
  cases he.2.2.1.symm.trans hplaced

theorem given_of_making (h : Chronicle Next t tr) (hreset : .reset ∉ tr.journal)
    (hone : OneEvaluator tr.journal) (hassigned : Unassigned tr.journal) (hprompt : Prompt tr.journal)
    {m : Making} (hm : m ∈ makings tr.journal) {c : ClassId} (hc : m.owner = some c) :
    ¬ m.resource.IsMain ∧ (tr.now.compilation.classScope c = some m.scope ∨
      expectant tr.journal = some c ∧ m.scope.raw + 1 = tr.now.compilation.tree.size) := by
  induction h with
  | start => cases hm
  | resume h hp ht names ih => exact ih hreset hone hassigned hprompt hm
  | @record t tr e h he ih =>
    obtain ⟨htimely, hprompt⟩ := hprompt
    have hne : e ≠ .reset := (List.ne_of_not_mem_cons hreset).symm
    have hreset' := List.not_mem_of_not_mem_cons hreset
    have hold := ih hreset' hone.2 hassigned.tail hprompt
    -- Where no class is to get a scope, every class has that which was made for it.
    have hsettled (hnone : expectant tr.journal = none) (hm : m ∈ makings tr.journal) :
        ¬ m.resource.IsMain ∧ (tr.record e).now.compilation.classScope c = some m.scope := by
      obtain ⟨hordinary, hscope | ⟨hdue, -⟩⟩ := hold hm
      · exact ⟨hordinary, classScope_after hne hscope⟩
      · cases hnone.symm.trans hdue
    cases e with
    | reset => exact (hne rfl).elim
    | nested owner outer r =>
      have hnone : expectant tr.journal = none := by cases owner <;> exact htimely
      rcases List.mem_cons.1 hm with rfl | hm
      · obtain rfl : owner = some c := hc
        obtain ⟨-, -, -, hordinary, -⟩ := he
        refine ⟨hordinary, .inr ⟨rfl, ?_⟩⟩
        simp [Trace.record, Moment.after, ScopeTree.next, h.ofJournal.1]
      · exact (hsettled hnone hm).imp id .inl
    | placed d s =>
      refine (hold hm).imp id fun hgiven => .inl ?_
      rcases hgiven with hscope | ⟨hdue, hlast⟩
      · exact classScope_after hne hscope
      have hmine : expectant tr.journal =
          if ordinaryErrand tr.now.stack then some d else none := h.ofJournal.2 ▸ htimely
      obtain ⟨caller, r, outer, herrand, -, hsuits⟩ := he.2.2.2
      have hr : ¬ r.IsMain := by
        intro hr
        simp [hdue, ordinaryErrand, herrand, hr] at hmine
      obtain rfl : c = d := by simpa [hdue, ordinaryErrand, herrand, hr] using hmine
      have hnew := h.not_isEvaluated_of_placing hreset' hone.2 hassigned.tail he
      rw [ScopeTree.Suits, if_neg hr] at hsuits
      obtain rfl : m.scope = s := congrArg ScopeId.mk (by omega : m.scope.raw = s.raw)
      simp [Trace.record, Moment.after, Compilation.register_classScope c c _ hnew]
    | namespaceAdded s ns =>
      exact (hold hm).imp id (.imp (classScope_after hne) fun hdue => ⟨hdue.1, by
        simpa [Trace.record, Moment.after] using hdue.2⟩)
    | closed a =>
      cases a with
      | ascent d => exact hold hm
      | _ => exact (hsettled htimely hm).imp id .inl
    | _ => exact (hsettled htimely hm).imp id .inl

end ClassTable.Chronicle

section

variable {i : Instant} {k : Nat} (hbetween : i.events = []) (hreset : .reset ∉ i.journal k)

theorem Instant.ofJournal (i : Instant) (k : Nat) :
    (Moment.ofJournal (i.journal k)).compilation = i.compilation k := by
  obtain ⟨_, tr, h, hjournal, hcomp⟩ := i.chronicle_any k
  rw [← hcomp, ← h.ofJournal.1, hjournal]

include hbetween in
theorem ordinary_of_between :
    ordinary (i.journal k) = (makings (i.journal k)).filterMap Making.owner := by
  obtain ⟨-, hnone, hprompt⟩ := i.rested_journal hbetween k
  simp [owners_of_prompt hprompt, hnone]

include hbetween hreset in
theorem size_of_between :
    (i.compilation k).tree.size =
      1 + (makings (i.journal k)).countP (·.owner.isNone) + (ordinary (i.journal k)).length := by
  have howned : (ordinary (i.journal k)).length =
      (makings (i.journal k)).countP fun m => ¬ m.owner.isNone := by
    rw [ordinary_of_between hbetween, List.length_filterMap_eq_countP]
    refine List.countP_congr fun m _ => ?_
    cases m.owner <;> simp
  rw [← i.ofJournal, size_of_makings hreset, howned, Nat.add_assoc,
    ← List.length_eq_countP_add_countP]

include hbetween hreset in
theorem owned_of_making (hassigned : Unassigned (i.journal k)) (hone : OneEvaluator (i.journal k))
    {m : Making} (hm : m ∈ makings (i.journal k)) {c : ClassId} (hc : m.owner = some c) :
    ¬ m.resource.IsMain ∧ (i.compilation k).classScope c = some m.scope := by
  obtain ⟨-, hnone, hprompt⟩ := i.rested_journal hbetween k
  obtain ⟨_, tr, h, hjournal, hcomp⟩ := i.chronicle_any k
  rw [← hjournal] at hreset hassigned hone hprompt hm hnone
  rw [← hcomp]
  refine (h.given_of_making hreset hone hassigned hprompt hm hc).imp id fun hscope => ?_
  exact hscope.resolve_right fun hdue => by cases hnone.symm.trans hdue.1

include hbetween hreset in
theorem making_of_shared (hassigned : Unassigned (i.journal k)) (hone : OneEvaluator (i.journal k))
    {m m' : Making} (hm : m ∈ makings (i.journal k)) (hm' : m' ∈ makings (i.journal k))
    {c d : ClassId} (hc : m.owner = some c) (hd : m'.owner = some d)
    (hshared : (i.compilation k).classScope c = (i.compilation k).classScope d) : m = m' := by
  rw [(owned_of_making hbetween hreset hassigned hone hm hc).2,
    (owned_of_making hbetween hreset hassigned hone hm' hd).2] at hshared
  exact List.inj_on_of_nodup_map (makings_nodup hreset) hm hm' (Option.some.inj hshared)

end

theorem scopes_accounted_for (i : Instant) (k : Nat) (hbetween : i.events = [])
    (hreset : .reset ∉ i.journal k) (hassigned : Unassigned (i.journal k))
    (hone : OneEvaluator (i.journal k)) :
    (∀ s, s.raw < (i.compilation k).tree.size →
        s = .top ∨ ∃! m, m ∈ makings (i.journal k) ∧ m.scope = s) ∧
      (∀ m ∈ makings (i.journal k), ∀ c, m.owner = some c →
        c ∈ ordinary (i.journal k) ∧ ¬ m.resource.IsMain ∧
          (i.compilation k).classScope c = some m.scope ∧
          ((i.compilation k).tree.find? m.scope).bind Scope.resource = some m.resource) ∧
      (∀ c ∈ ordinary (i.journal k), ∀ d ∈ ordinary (i.journal k), c ≠ d →
        (i.compilation k).classScope c ≠ (i.compilation k).classScope d) ∧
      (ordinary (i.journal k)).Nodup ∧
      (i.compilation k).tree.size =
        1 + (makings (i.journal k)).countP (·.owner.isNone) + (ordinary (i.journal k)).length := by
  have hordinary := ordinary_of_between hbetween (k := k)
  refine ⟨fun s hs => ?_, fun m hm c hc => ?_, ?_, ?_, size_of_between hbetween hreset⟩
  · rw [← i.ofJournal] at hs
    exact or_iff_not_imp_left.2 fun htop => making_of_scope hreset htop hs
  · obtain ⟨hr, hscope⟩ := owned_of_making hbetween hreset hassigned hone hm hc
    have hresource := resource_of_making hreset hm
    rw [i.ofJournal] at hresource
    exact ⟨hordinary ▸ List.mem_filterMap.2 ⟨m, hm, hc⟩, hr, hscope, hresource⟩
  · intro c hc d hd hne hshared
    obtain ⟨m, hm, hmc⟩ := List.mem_filterMap.1 (hordinary ▸ hc)
    obtain ⟨m', hm', hmd⟩ := List.mem_filterMap.1 (hordinary ▸ hd)
    obtain rfl := making_of_shared hbetween hreset hassigned hone hm hm' hmc hmd hshared
    exact hne (Option.some.inj (hmc.symm.trans hmd))
  · rw [hordinary]
    refine List.pairwise_filterMap.2 ((List.pairwise_map.1 (makings_nodup hreset)).imp_of_mem ?_)
    rintro m m' hm hm' hne c hc d hd rfl
    exact hne (congrArg _ (making_of_shared hbetween hreset hassigned hone hm hm' hc hd rfl))

def parentFailedOnce : Instant :=
  .upTo
    [.define "base" none
        (some [.nest .here (.titled (.number ⟨0⟩) (.number ⟨1⟩)), .fail "no port"]),
      .define "web" (some "base") (some []), .define "site" none none,
      .step (.evaluate (.named "web") .top (.titled (.number ⟨0⟩) (.number ⟨0⟩))),
      .step (.evaluate (.named "site") .top (.main (.number ⟨0⟩))),
      .step (.evaluate (.named "web") .top (.titled (.number ⟨0⟩) (.number ⟨0⟩)))]
    .newCompilation 0

theorem parentFailedOnce_accounted_for :
    ordinary (parentFailedOnce.journal 0) = [⟨1⟩, ⟨0⟩] ∧
      (parentFailedOnce.compilation 0).tree.size = 4 ∧
      (parentFailedOnce.compilation 0).classScope ⟨0⟩ ≠
        (parentFailedOnce.compilation 0).classScope ⟨1⟩ ∧
      (parentFailedOnce.compilation 0).tree.size =
        1 + (makings (parentFailedOnce.journal 0)).countP (·.owner.isNone) +
          (ordinary (parentFailedOnce.journal 0)).length := by
  have hall := scopes_accounted_for parentFailedOnce 0 rfl (by decide +kernel) (by decide +kernel)
    (by decide +kernel)
  have hordinary : ordinary (parentFailedOnce.journal 0) = [⟨1⟩, ⟨0⟩] := by decide +kernel
  have hsize : (parentFailedOnce.compilation 0).tree.size = 4 := by decide +kernel
  have hweb : ⟨1⟩ ∈ ordinary (parentFailedOnce.journal 0) := by simp [hordinary]
  have hbase : ⟨0⟩ ∈ ordinary (parentFailedOnce.journal 0) := by simp [hordinary]
  exact ⟨hordinary, hsize, hall.2.2.1 _ hbase _ hweb (by decide), hall.2.2.2.2⟩

end ConfigClasses

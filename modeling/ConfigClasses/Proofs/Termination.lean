import ConfigClasses.Proofs.Balance
import ConfigClasses.Proofs.Kinship
import ConfigClasses.Proofs.RunningBodies
import ConfigClasses.Proofs.Tracking

namespace ConfigClasses

namespace Eval

variable {α β γ : Type} {t : ClassTable β}

/-- The second action does what the first does, where that does not run out of bodies. -/
def Prolongs (act act' : Eval α) : Prop :=
  ∀ tr, (∃ tr', act tr = .error .exhausted tr') ∨ act' tr = act tr

theorem Prolongs.refl (act : Eval α) : Prolongs act act := fun _ => .inr rfl

theorem Prolongs.bind {act act' : Eval α} {next next' : α → Eval γ} (h : Prolongs act act')
    (hn : ∀ x, Prolongs (next x) (next' x)) : Prolongs (act >>= next) (act' >>= next') := by
  intro tr
  rcases h tr with ⟨tr', hout⟩ | heq
  · exact .inl ⟨tr', bind_of_error hout⟩
  · cases hact : act tr with
    | ok x tr' =>
      rw [bind_of_ok hact, bind_of_ok (heq.trans hact)]
      exact hn x tr'
    | error e tr' =>
      rw [bind_of_error hact, bind_of_error (heq.trans hact)]
      exact .inr rfl

theorem Prolongs.answering {act act' : Eval Reply} (h : Prolongs act act') :
    Prolongs (answering t act) (answering t act') := by
  intro tr
  unfold ConfigClasses.answering
  rcases h tr with ⟨tr', hout⟩ | heq
  · exact .inl ⟨tr', by rw [hout]⟩
  · exact .inr (by rw [heq])

theorem Prolongs.during {act act' : Eval α} (h : Prolongs act act') (a : Activity) :
    Prolongs (during a act) (during a act') := by
  intro tr
  unfold Eval.during
  rcases h (tr.record (.opened a)) with ⟨tr', hout⟩ | heq
  · exact .inl ⟨_, by rw [hout]⟩
  · exact .inr (by rw [heq])

theorem prolongs_congruence (t : ClassTable β) : Congruence t fun _ => Prolongs where
  pure _ := .refl _
  bind := Prolongs.bind
  now h := fun tr => h tr.now tr.now (.refl _) tr
  fail _ := .refl _
  stray := .refl _
  answering := Prolongs.answering
  raise _ := .refl _
  record _ := .refl _
  during a h := h.during a

end Eval

open Eval

theorem prolongs_runBody (t : ClassTable Body) {depth depth' : Nat} (h : depth ≤ depth')
    (s : ScopeId) (body : Body) : Prolongs (t.runBody depth s body) (t.runBody depth' s body) := by
  induction depth generalizing depth' s body with
  | zero => exact fun tr => .inl ⟨tr, rfl⟩
  | succ depth ih =>
    obtain ⟨n, rfl⟩ : ∃ n, depth' = n + 1 := ⟨depth' - 1, by omega⟩
    have hrun (c : ClassId) (s : ScopeId) (body : Body) :
        Prolongs (during (.body c s) (t.runBody depth s body))
          (during (.body c s) (t.runBody n s body)) :=
      (ih (Nat.le_of_succ_le_succ h) s body).during _
    exact ((prolongs_congruence t).execAll _ hrun s body).bind fun _ => .refl _

theorem prolongs_step (t : ClassTable Body) {depth depth' : Nat} (h : depth ≤ depth')
    (here : ScopeId) (step : Step) :
    Prolongs (step.exec t (t.evaluate (t.runBody depth)) here)
      (step.exec t (t.evaluate (t.runBody depth')) here) :=
  (prolongs_congruence t).exec _ (fun _ s body => (prolongs_runBody t h s body).during _) here step

namespace Eval

variable {α β γ : Type}

/-- The action runs out of bodies only with `n` more of them under way than at its start. -/
structure Reaches (n : Nat) (act : Eval α) : Prop where
  balanced : Balanced act
  exhausted : ∀ tr tr', tr.Shown → act tr = .error .exhausted tr' →
    ∃ past, past <:+ tr'.journal ∧
      (running tr.now.stack).length + n ≤ (running (Moment.ofJournal past).stack).length

variable {n : Nat} {act : Eval α}

theorem Reaches.bind {next : α → Eval γ} (ha : Reaches n act) (hn : ∀ x, Reaches n (next x)) :
    Reaches n (act >>= next) := by
  refine ⟨ha.balanced.bind fun x => (hn x).balanced, fun tr tr' htr h => ?_⟩
  cases hact : act tr with
  | ok x tr₁ =>
    rw [bind_of_ok hact] at h
    have hstack := ha.balanced.stack tr
    have hshown := ha.balanced.shown tr htr
    rw [final_of_ok hact] at hstack hshown
    rw [← hstack]
    exact (hn x).exhausted tr₁ tr' hshown h
  | error e tr₁ =>
    rw [bind_of_error hact] at h
    cases h
    exact ha.exhausted tr tr' htr hact

theorem Reaches.answering {t : ClassTable β} {act : Eval Reply} (h : Reaches n act) :
    Reaches n (answering t act) := by
  refine ⟨h.balanced.answering, fun tr tr' htr he => ?_⟩
  unfold ConfigClasses.answering at he
  split at he
  · cases he
  · exact h.exhausted tr tr' htr he

theorem exhausted_during {a : Activity} {tr tr' : Trace} (h : Reaches n act) (htr : tr.Shown)
    (he : during a act tr = .error .exhausted tr') :
    ∃ past, past <:+ tr'.journal ∧ (running (a :: tr.now.stack)).length + n ≤
      (running (Moment.ofJournal past).stack).length := by
  unfold during at he
  split at he
  · cases he
  · next e tr₁ hact =>
    cases he
    obtain ⟨past, hpast, hle⟩ := h.exhausted _ tr₁ (htr.record _) hact
    exact ⟨past, hpast.trans (List.suffix_cons _ _), hle⟩

theorem Reaches.during (h : Reaches n act) (a : Activity) : Reaches n (during a act) := by
  refine ⟨h.balanced.during a, fun tr tr' htr he => ?_⟩
  obtain ⟨past, hpast, hle⟩ := exhausted_during h htr he
  refine ⟨past, hpast, Nat.le_trans (Nat.add_le_add_right ?_ n) hle⟩
  cases a <;> simp [running]

theorem Reaches.body (h : Reaches n act) (c : ClassId) (s : ScopeId) :
    Reaches (n + 1) (Eval.during (.body c s) act) := by
  refine ⟨h.balanced.during _, fun tr tr' htr he => ?_⟩
  obtain ⟨past, hpast, hle⟩ := exhausted_during h htr he
  refine ⟨past, hpast, ?_⟩
  simp only [running, List.length_cons] at hle
  omega

theorem reaches_of_final (h : ∀ tr, act.final tr = tr)
    (hact : ∀ tr tr', act tr ≠ .error .exhausted tr') : Reaches n act :=
  ⟨balanced_of_final h, fun tr tr' _ he => (hact tr tr' he).elim⟩

theorem reaches_congruence (t : ClassTable β) (n : Nat) :
    Congruence t fun _ act _ => Reaches n act where
  pure _ := reaches_of_final (fun _ => rfl) nofun
  bind := Reaches.bind
  now h := ⟨balanced_now fun m => (h m m (.refl m)).balanced,
    fun tr => (h tr.now tr.now (.refl _)).exhausted tr⟩
  fail _ := reaches_of_final (fun _ => rfl) nofun
  stray := reaches_of_final (fun _ => rfl) nofun
  answering := Reaches.answering
  raise e := ⟨(balanced_congruence t).raise e, nofun⟩
  record he := ⟨balanced_record he, nofun⟩
  during a h := h.during a

end Eval

theorem reaches_runBody (t : ClassTable Body) (depth : Nat) (s : ScopeId) (body : Body) :
    Reaches depth (t.runBody depth s body) := by
  induction depth generalizing s body with
  | zero =>
    refine ⟨balanced_of_final fun _ => rfl, fun tr tr' htr h => ?_⟩
    cases h
    exact ⟨tr.journal, List.suffix_refl _, by rw [htr]; exact Nat.le_refl _⟩
  | succ depth ih =>
    have hcongr := reaches_congruence t (depth + 1)
    have hall := hcongr.execAll (t.runBody depth) (fun c s body => (ih s body).body c s) s body
    exact hall.bind fun _ => hcongr.pure _

theorem reaches_step (t : ClassTable Body) (depth : Nat) (here : ScopeId) (step : Step) :
    Reaches (depth + 1) (step.exec t (t.evaluate (t.runBody depth)) here) :=
  (reaches_congruence t (depth + 1)).exec (t.runBody depth)
    (fun c s body => (reaches_runBody t depth s body).body c s) here step

/-- The steps of a list in order, each in an evaluator of its own, up to the first that does not end
with a reply. -/
def ClassTable.startAll (t : ClassTable Body) (depth : Nat) (m : Moment) :
    List Step → List (Ending × Trace)
  | [] => []
  | step :: steps =>
    let result := step.start t depth m
    match result.1 with
    | .reply _ => result :: t.startAll depth result.2.now steps
    | _ => [result]

namespace Step

variable {t : ClassTable Body} {m : Moment} {step : Step} {depth depth' : Nat}

theorem start_of_le (h : depth ≤ depth') (hout : (step.start t depth m).1 ≠ .exhausted) :
    step.start t depth' m = step.start t depth m := by
  have hprolongs := (prolongs_step t h .top step).during .evaluator
  rcases hprolongs ⟨m, []⟩ with ⟨tr, hexhausted⟩ | heq
  · exact (hout (by rw [Step.start, hexhausted])).elim
  · rw [Step.start, Step.start, heq]

theorem start_exhausted (hm : m.stack = []) (h : (step.start t depth m).1 = .exhausted) :
    ∃ past, past <:+ (step.start t depth m).2.journal ∧
      depth < (running (Moment.ofJournal past).stack).length := by
  have hreaches := (reaches_step t depth .top step).during .evaluator
  unfold Step.start at h ⊢
  cases hrun : during .evaluator (step.exec t (t.evaluate (t.runBody depth)) .top) ⟨m, []⟩ with
  | ok r tr => simp [hrun] at h
  | error e tr =>
    cases e with
    | exhausted =>
      obtain ⟨past, hpast, hle⟩ := hreaches.exhausted _ tr (Trace.shown_start hm) hrun
      refine ⟨past, hpast, ?_⟩
      omega
    | _ => simp [hrun] at h

variable (hm : m.stack = []) (hreset : NoBodyResets (step.start t depth m).2.journal)
include hm hreset

theorem running_le {past : List Event} (hpast : past <:+ (step.start t depth m).2.journal) :
    (running (Moment.ofJournal past).stack).length ≤ t.size := by
  obtain ⟨hpath, -⟩ := Session.path_start t depth hm step
  obtain ⟨es, hjournal, -, hprefix⟩ := hpath.replay
  rw [List.append_nil] at hjournal
  have hpath' := hprefix past.reverse (by simpa [hjournal] using List.reverse_prefix.2 hpast)
  simp only [List.reverse_reverse, List.append_nil] at hpath'
  rw [hpath'.shown (Trace.shown_start hm)]
  exact hpath'.running_le hm (hreset.suffix hpast)

theorem start_ne_exhausted (h : t.size ≤ depth) : (step.start t depth m).1 ≠ .exhausted := by
  intro hout
  -- To run out takes more bodies at once than there are classes.
  obtain ⟨past, hpast, hlt⟩ := start_exhausted hm hout
  have hle := running_le hm hreset hpast
  omega

end Step

namespace ClassTable

variable {t : ClassTable Body} {m : Moment}

theorem mem_startAll_cons {depth : Nat} {step : Step} {steps : List Step} :
    step.start t depth m ∈ t.startAll depth m (step :: steps) := by
  unfold startAll
  dsimp only
  split <;> exact List.mem_cons_self

theorem startAll_of_le (hm : m.stack = []) {steps : List Step}
    (hreset : ∀ r ∈ t.startAll t.size m steps, NoBodyResets r.2.journal) {depth : Nat}
    (h : t.size ≤ depth) : t.startAll depth m steps = t.startAll t.size m steps := by
  induction steps generalizing m with
  | nil => rfl
  | cons step steps ih =>
    have hfirst := hreset _ mem_startAll_cons
    have heq := Step.start_of_le h (Step.start_ne_exhausted hm hfirst (Nat.le_refl _))
    unfold startAll at hreset ⊢
    simp only [heq] at hreset ⊢
    split
    · next r hr =>
      simp only [hr] at hreset
      rw [ih (Session.path_start t t.size hm step).2.1
        fun r hr => hreset r (List.mem_cons_of_mem _ hr)]
    · rfl

theorem startAll_finishes (hm : m.stack = []) {steps : List Step}
    (hreset : ∀ r ∈ t.startAll t.size m steps, NoBodyResets r.2.journal) :
    ∀ r ∈ t.startAll t.size m steps, r.1 ≠ .exhausted ∧ ∀ past, past <:+ r.2.journal →
      (running (Moment.ofJournal past).stack).length ≤ t.size := by
  induction steps generalizing m with
  | nil => simp [startAll]
  | cons step steps ih =>
    have hfirst := hreset _ mem_startAll_cons
    have hfinishes : (step.start t t.size m).1 ≠ .exhausted ∧
        ∀ past, past <:+ (step.start t t.size m).2.journal →
          (running (Moment.ofJournal past).stack).length ≤ t.size :=
      ⟨Step.start_ne_exhausted hm hfirst (Nat.le_refl _), fun _ => Step.running_le hm hfirst⟩
    unfold startAll at hreset ⊢
    dsimp only at hreset ⊢
    split
    · next r hr =>
      simp only [hr] at hreset
      intro r' hr'
      rcases List.mem_cons.1 hr' with rfl | hr'
      · exact hfinishes
      · exact ih (Session.path_start t t.size hm step).2.1
          (fun r hr => hreset r (List.mem_cons_of_mem _ hr)) r' hr'
    · simpa using hfinishes

end ClassTable

theorem steps_finish (t : ClassTable Body) (names : Interner) (k : Compilation) (steps : List Step)
    (hreset : ∀ r ∈ t.startAll t.size ⟨names, k, []⟩ steps, NoBodyResets r.2.journal) :
    (∀ c, t.Climbing c {c} [] c (t.lineage c)) ∧
      (∀ c a, t.Searching a {c} c (t.inherits c a)) ∧
      (∀ depth, t.size ≤ depth →
        t.startAll depth ⟨names, k, []⟩ steps = t.startAll t.size ⟨names, k, []⟩ steps) ∧
      ∀ r ∈ t.startAll t.size ⟨names, k, []⟩ steps, r.1 ≠ .exhausted ∧
        ∀ past, past <:+ r.2.journal →
          (running (Moment.ofJournal past).stack).length ≤ t.size :=
  ⟨t.climbing_lineage, t.searching_inherits, fun _ => ClassTable.startAll_of_le rfl hreset,
    ClassTable.startAll_finishes rfl hreset⟩

theorem Session.perform_ne_exhausted (s : Session) (command : Command)
    (hreset : NoBodyResets (s.perform command).2.1.reverse) :
    (s.perform command).1 ≠ .exhausted := by
  cases command with
  | step step =>
    simp only [perform, List.reverse_reverse] at hreset ⊢
    exact Step.start_ne_exhausted rfl hreset (Nat.le_add_right _ _)
  | define name parent body =>
    simp only [perform, declare]
    split <;> simp
  | defineChain stem length body =>
    simp only [perform, declare]
    split <;> simp
  | useTable index | useCompilation index =>
    simp only [perform]
    split <;> simp
  | _ => simp [perform]

def entangled : Session :=
  (Session.initial.run
    [.define "base" none
        (some [.includeClass "base" .here .ofScope, .includeClass "web" .here .ofScope]),
      .define "web" (some "base")
        (some [.includeClass "log" .here .ofScope, .includeClass "web" .here .ofScope]),
      .define "log" none
        (some [.fresh (.includeClass "web" .here .ofScope), .includeClass "base" .here .ofScope])]).2

def entangledSteps : List Step :=
  [.evaluate (.named "base") .top (.titled (.number ⟨0⟩) (.number ⟨0⟩)), .reset,
    .includeClass "web" .top (.titled (.number ⟨0⟩) (.number ⟨0⟩))]

theorem entangled_finishes :
    let t := entangled.registry.table
    let results := t.startAll t.size ⟨entangled.names, .initial, []⟩ entangledSteps
    results.length = 3 ∧
      (∃ r ∈ results, ∃ past ∈ r.2.journal.tails,
        (running (Moment.ofJournal past).stack).length = t.size) ∧
      t.Climbing ⟨1⟩ {⟨1⟩} [] ⟨1⟩ (.ok [⟨0⟩]) ∧ t.Searching ⟨0⟩ {⟨1⟩} ⟨1⟩ true ∧
      (∀ depth, t.size ≤ depth →
        t.startAll depth ⟨entangled.names, .initial, []⟩ entangledSteps = results) ∧
      ∀ r ∈ results, r.1 ≠ .exhausted ∧ ∀ past, past <:+ r.2.journal →
        (running (Moment.ofJournal past).stack).length ≤ t.size := by
  intro t results
  have hreset : ∀ r ∈ results, NoBodyResets r.2.journal := by decide +kernel
  have hlineage : t.lineage ⟨1⟩ = .ok [⟨0⟩] := by decide +kernel
  have hinherits : t.inherits ⟨1⟩ ⟨0⟩ = true := by decide +kernel
  obtain ⟨hclimbing, hsearching, hfinishes⟩ :=
    steps_finish t entangled.names .initial entangledSteps hreset
  exact ⟨by decide +kernel, by decide +kernel, hlineage ▸ hclimbing ⟨1⟩,
    hinherits ▸ hsearching ⟨1⟩ ⟨0⟩, hfinishes⟩

end ConfigClasses

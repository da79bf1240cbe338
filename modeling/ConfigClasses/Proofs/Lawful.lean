import ConfigClasses.Evaluation
import ConfigClasses.Proofs.Permission

namespace ConfigClasses.Eval

open ClassTable

variable {β α γ : Type} {t : ClassTable β}

def final (act : Eval α) (tr : Trace) : Trace :=
  match act tr with
  | .ok _ tr => tr
  | .error _ tr => tr

theorem final_of_ok {act : Eval α} {tr tr' : Trace} {x : α} (h : act tr = .ok x tr') :
    act.final tr = tr' := by
  simp [final, h]

theorem final_of_error {act : Eval α} {tr tr' : Trace} {e : Halt} (h : act tr = .error e tr') :
    act.final tr = tr' := by
  simp [final, h]

theorem bind_of_ok {act : Eval α} {next : α → Eval γ} {tr tr' : Trace} {x : α}
    (h : act tr = .ok x tr') : (act >>= next) tr = next x tr' := by
  simp [bind, EStateM.bind, h]

theorem bind_of_error {act : Eval α} {next : α → Eval γ} {tr tr' : Trace} {e : Halt}
    (h : act tr = .error e tr') : (act >>= next) tr = .error e tr' := by
  simp [bind, EStateM.bind, h]

/-- From `tr` on, the action records only what is permitted, ends what it begins and leaves no body
due, and `R` holds of its answer. -/
structure Abides (t : ClassTable β) (tr : Trace) (act : Eval α) (R : α → Trace → Prop) :
    Prop where
  path : t.Path tr (act.final tr)
  stack : (act.final tr).now.stack = tr.now.stack
  idle : t.NothingDue (act.final tr)
  answer : ∀ x tr', act tr = .ok x tr' → R x tr'

def Lawful (t : ClassTable β) (stack : List Activity) (P : Trace → Prop) (act : Eval α)
    (R : α → Trace → Prop) : Prop :=
  ∀ tr, tr.now.stack = stack → t.NothingDue tr → P tr → Abides t tr act R

variable {tr : Trace} {stack : List Activity} {P : Trace → Prop} {R : α → Trace → Prop}
  {act : Eval α}

theorem Abides.of_final (h : act.final tr = tr) (hidle : t.NothingDue tr) :
    Abides t tr act (fun x tr' => tr' = tr ∧ act tr = .ok x tr) := by
  refine ⟨h.symm ▸ .refl, h.symm ▸ rfl, h.symm ▸ hidle, fun x tr' hx => ?_⟩
  obtain rfl : tr = tr' := h.symm.trans (final_of_ok hx)
  exact ⟨rfl, hx⟩

theorem Abides.bind {Q : γ → Trace → Prop} {next : α → Eval γ} (ha : Abides t tr act R)
    (hn : ∀ x, Lawful t tr.now.stack (R x) (next x) Q) : Abides t tr (act >>= next) Q := by
  obtain ⟨hpath, hstack, hidle, hanswer⟩ := ha
  cases hact : act tr with
  | ok x tr' =>
    rw [final_of_ok hact] at hpath hstack hidle
    obtain ⟨hpath', hstack', hidle', hanswer'⟩ := hn x tr' hstack hidle (hanswer x tr' hact)
    have hrun : (act >>= next) tr = next x tr' := bind_of_ok hact
    have hfinal : (act >>= next).final tr = (next x).final tr' := by simp only [final, hrun]
    refine ⟨?_, ?_, ?_, ?_⟩
    · rw [hfinal]
      exact hpath.trans hpath'
    · rw [hfinal, hstack', hstack]
    · rw [hfinal]
      exact hidle'
    · rw [hrun]
      exact hanswer'
  | error e tr' =>
    have hrun : (act >>= next) tr = .error e tr' := bind_of_error hact
    rw [final_of_error hact] at hpath hstack hidle
    rw [← final_of_error hrun] at hpath hstack hidle
    exact ⟨hpath, hstack, hidle, by simp [hrun]⟩

theorem Lawful.bind {Q : γ → Trace → Prop} {next : α → Eval γ} (ha : Lawful t stack P act R)
    (hn : ∀ x, Lawful t stack (R x) (next x) Q) : Lawful t stack P (act >>= next) Q := by
  rintro tr rfl hidle hp
  exact (ha tr rfl hidle hp).bind hn

theorem Lawful.before {P' : Trace → Prop} (h : Lawful t stack P act R)
    (hp : ∀ tr, tr.now.stack = stack → P' tr → P tr) : Lawful t stack P' act R :=
  fun tr hs hidle h' => h tr hs hidle (hp tr hs h')

theorem Lawful.after {R' : α → Trace → Prop} (h : Lawful t stack P act R)
    (hr : ∀ x tr, tr.now.stack = stack → R x tr → R' x tr) : Lawful t stack P act R' := by
  rintro tr rfl hidle hp
  obtain ⟨hpath, hstack, hidle', hanswer⟩ := h tr rfl hidle hp
  refine ⟨hpath, hstack, hidle', fun x tr' hx => hr x tr' ?_ (hanswer x tr' hx)⟩
  rw [← hstack, final_of_ok hx]

theorem lawful_of_final (h : ∀ tr, act.final tr = tr) :
    Lawful t stack P act (fun x tr => P tr ∧ act tr = .ok x tr) := by
  intro tr _ hidle hp
  obtain ⟨hpath, hstack, hidle', hanswer⟩ := Abides.of_final (h tr) hidle
  refine ⟨hpath, hstack, hidle', fun x tr' hx => ?_⟩
  obtain ⟨rfl, hx'⟩ := hanswer x tr' hx
  exact ⟨hp, hx'⟩

theorem lawful_pure (x : α) : Lawful t stack (R x) (pure x) R := by
  apply (lawful_of_final fun _ => rfl).after
  rintro y tr - ⟨hx, hy⟩
  cases hy
  exact hx

theorem lawful_throw (e : Halt) : Lawful t stack P (throw e) R := by
  apply (lawful_of_final fun _ => rfl).after
  rintro x tr - ⟨-, hx⟩
  cases hx

theorem lawful_now : Lawful t stack P now (fun m tr => P tr ∧ m = tr.now) := by
  apply (lawful_of_final fun _ => rfl).after
  rintro m tr - ⟨h, hm⟩
  cases hm
  exact ⟨h, rfl⟩

theorem lawful_compilation :
    Lawful t stack P compilation (fun k tr => P tr ∧ k = tr.now.compilation) := by
  apply (lawful_of_final fun _ => rfl).after
  rintro k tr - ⟨h, hk⟩
  cases hk
  exact ⟨h, rfl⟩

theorem lawful_scopeAt (s : ScopeId) : Lawful t stack P (scopeAt s)
    (fun scope tr => P tr ∧ tr.now.compilation.tree.find? s = some scope) := by
  apply lawful_compilation.bind
  intro k
  cases hs : k.tree.find? s with
  | none => exact lawful_throw _
  | some scope =>
    apply (lawful_pure scope).before
    rintro tr - ⟨h, rfl⟩
    exact ⟨h, hs⟩

theorem lawful_declAt_bind {c : ClassId} {next : ClassDecl β → Eval α}
    (hn : ∀ d, t.decl? c = some d → Lawful t stack P (next d) R) :
    Lawful t stack P (t.declAt c >>= next) R := by
  unfold declAt
  cases hd : t.decl? c with
  | none =>
    have hstray : Lawful t stack P stray fun (_ : ClassDecl β) _ => False := lawful_throw _
    exact hstray.bind fun _ _ _ _ h => h.elim
  | some d =>
    have hpure : Lawful t stack P (pure d) fun x tr => x = d ∧ P tr :=
      (lawful_pure d).before fun _ _ h => ⟨rfl, h⟩
    apply hpure.bind
    intro x
    rintro tr hs hidle ⟨rfl, hp⟩
    exact hn x hd tr hs hidle hp

theorem Abides.record {e : Event} {next : Unit → Eval α} (he : t.Permits tr e)
    (hstack : (tr.record e).now.stack = tr.now.stack)
    (hn : Abides t (tr.record e) (next ()) R) : Abides t tr (Eval.record e >>= next) R :=
  ⟨he.path.trans hn.path, hn.stack.trans hstack, hn.idle, hn.answer⟩

theorem lawful_record {e : Event} {R : Unit → Trace → Prop}
    (hstack : ∀ m : Moment, (m.after e).stack = m.stack) (hplaced : ∀ c s, e ≠ .placed c s)
    (hallows : ∀ tr, tr.now.stack = stack → P tr → t.Allows tr e)
    (hr : ∀ tr, tr.now.stack = stack → P tr → R () (tr.record e)) :
    Lawful t stack P (record e) R := by
  intro tr hs hidle hp
  refine ⟨Permits.path ⟨.inr hidle, hallows tr hs hp⟩, hstack tr.now, ?_, ?_⟩
  · intro c s he
    exact (hplaced c s (Option.some.inj he)).elim
  · rintro x tr' hx
    cases hx
    exact hr tr hs hp

theorem lawful_raise {e : EvaluationError}
    (hallows : ∀ tr, tr.now.stack = stack → P tr → t.AllowsRaised tr e) :
    Lawful t stack P (raise e) R := by
  have hrecord : Lawful t stack P (record (.raised e)) fun _ _ => True :=
    lawful_record (fun _ => rfl) (by simp) hallows fun _ _ _ => trivial
  exact hrecord.bind fun _ => lawful_throw _

theorem final_during (a : Activity) (act : Eval α) (tr : Trace) :
    (during a act).final tr = (act.final (tr.record (.opened a))).record (.closed a) := by
  unfold final during
  cases act (tr.record (.opened a)) <;> rfl

theorem Abides.during {a : Activity} {Q : α → Trace → Prop} (hopen : t.Permits tr (.opened a))
    (hact : Abides t (tr.record (.opened a)) act Q)
    (hr : ∀ x tr', tr'.now.stack = a :: tr.now.stack → Q x tr' → R x (tr'.record (.closed a))) :
    Abides t tr (during a act) R := by
  obtain ⟨hpath, hstack, hidle, hanswer⟩ := hact
  have hstack' : (act.final (tr.record (.opened a))).now.stack = a :: tr.now.stack := hstack
  refine ⟨?_, ?_, ?_, fun x tr' hx => ?_⟩
  · rw [final_during]
    refine hopen.path.trans (hpath.record ⟨.inr hidle, ?_⟩)
    simp [Allows, hstack']
  · rw [final_during]
    exact congrArg List.tail hstack'
  · rw [final_during]
    intro c s h
    cases h
  · cases hrun : act (tr.record (.opened a)) with
    | ok y tr'' =>
      simp only [Eval.during, hrun] at hx
      cases hx
      exact hr x tr'' (final_of_ok hrun ▸ hstack') (hanswer x tr'' hrun)
    | error e tr'' => simp [Eval.during, hrun] at hx

theorem lawful_during {a : Activity} {Q : α → Trace → Prop}
    (hopen : ∀ tr, tr.now.stack = stack → P tr → t.Allows tr (.opened a))
    (hact : Lawful t (a :: stack) (fun _ => True) act Q)
    (hr : ∀ x tr, tr.now.stack = a :: stack → Q x tr → R x (tr.record (.closed a))) :
    Lawful t stack P (during a act) R := by
  rintro tr rfl hidle hp
  have hidle' : t.NothingDue (tr.record (.opened a)) := fun c s h => by cases h
  exact .during ⟨.inr hidle, hopen tr rfl hp⟩ (hact _ rfl hidle' trivial) hr

end ConfigClasses.Eval

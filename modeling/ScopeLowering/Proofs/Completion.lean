import ScopeLowering.Proofs.Exits
import ScopeLowering.Proofs.Planning

/-!
# Complete runs

Everything that a script does is thrifty, since that is a law of code (`Eval.Law.thrifty`). So a run
that stays within its budget does the same with a larger one.

A report that does not name exhaustion is no proof of that. The budget decides two more things
without a word: timers that still wait when the last step is spent are never called, and an earlier
error is reported in place of exhaustion. These are the only two (`runScript_complete`).
-/

namespace ScopeLowering

/-- A run was cut short, though its report may not say so: a timer still waits when no step is left,
or an earlier error stands in the report. -/
inductive CutShort (error : Option String) (m : Machine) : Prop where
  | waiting (hspent : m.budget ≤ 0) (hwaits : m.pending.next? Task.isBefore ≠ none)
  | hidden {e : String} (hspent : m.budget < 0) (hearlier : error = some e) (he : e ≠ "")

namespace Eval

variable {α : Type} {m : Machine}

/-! ### Control -/

section

variable {body action cleanup : Eval Unit}

theorem overdraws_throw (hm : m.budget < 0) : (throw .exhausted : Eval α).Overdraws m :=
  ⟨m, rfl, hm⟩

theorem thrifty_resume {r : Except Signal α} (h : r ≠ .error .exhausted) : (resume r).Thrifty := by
  cases r with
  | ok a => exact .pure a
  | error s => exact .throw fun hs => h (congrArg Except.error hs)

theorem thrifty_thenAlways (haction : action.Thrifty) (hcleanup : cleanup.Costly) :
    (thenAlways action cleanup).Thrifty :=
  haction.attempt_bind (fun _ hr => hcleanup.thrifty.bind fun _ => thrifty_resume hr)
    fun _ hm => (hcleanup.overdraws hm).bind

theorem thrifty_catching {action : Eval α} {handle : Value → Eval α} (haction : action.Thrifty)
    (hhandle : ∀ v, (handle v).Thrifty) : (catching action handle).Thrifty := by
  refine haction.attempt_bind (fun r hr => ?_) fun _ hm => overdraws_throw hm
  split
  · exact hhandle _
  · exact thrifty_resume hr

theorem thrifty_breakable (haction : action.Thrifty) : (breakable action).Thrifty := by
  refine haction.attempt_bind (fun r hr => ?_) fun _ hm => overdraws_throw hm
  split
  · exact .pure ()
  · exact thrifty_resume hr

theorem thrifty_returnValue (hbody : body.Thrifty) : (returnValue body).Thrifty := by
  refine hbody.attempt_bind (fun r hr => ?_) fun _ hm => overdraws_throw hm
  split
  · exact .pure _
  · exact .pure _
  · exact .throw fun hs => hr (congrArg Except.error hs)

theorem costly_runBody (hbody : body.Costly) : (runBody body).Costly := by
  refine hbody.attempt_bind (fun r hr => ?_) fun _ hm => overdraws_throw hm
  split
  · exact .pure _
  · exact .pure _
  · exact .pure _
  · exact .throw fun hs => hr (congrArg Except.error hs)

end

/-- Thriftiness is a law of code. It does not speak of jumps. -/
def Law.thrifty : Law False where
  Obeys _ x := x.Thrifty
  Costs _ x := x.Costly
  Pays p _ x := x.PaysFor p
  obeys := Costly.thrifty
  mono h _ := h
  costs_mono h _ := h
  inspect hblind h := .inspect hblind fun m he => (h m _ he).1 rfl
  modifyGet _ hbudget hrefund := .change hbudget hrefund
  bind := Thrifty.bind_of
  get_bind hblind h := .get_bind hblind fun m => h m fun _ hs => hs.elim
  tick := costly_tick
  costs_bind := Costly.bind
  thenAlways := thrifty_thenAlways
  catching := thrifty_catching
  breakable h _ := thrifty_breakable h
  returnValue := thrifty_returnValue
  runBody h _ := costly_runBody h
  pays_of_costs h := h.paysFor _
  obeys_of_pays := PaysFor.thrifty
  pays_pure := PaysFor.pure
  pays_after := PaysFor.after
  pays_bind := PaysFor.bind
  pays_get_bind := PaysFor.get_bind
  loop := Thrifty.loop

/-! ### Whole runs -/

theorem thrifty_runMain (env : Env) (script : Node) : (runMain env script).Thrifty :=
  obeys_runMain (L := .thrifty) (E := fun _ => True) env (fun hs => hs.elim) fun hs => hs.elim

theorem thrifty_hostEnv {hosts : Eval (List (String × Value))} (h : hosts.Thrifty) :
    (hostEnv hosts).Thrifty := obeys_hostEnv (L := .thrifty) (E := fun _ => True) h

theorem thrifty_outcome (error : Option String) : (outcome error).Thrifty :=
  obeys_outcome (L := .thrifty) (E := fun _ => True) error

theorem thrifty_report {r : Except Signal Unit} (hr : r ≠ .error .exhausted) :
    (report r).Thrifty := by
  cases r with
  | ok a => exact .pure _
  | error s =>
    cases s with
    | thrown v =>
      exact Thrifty.bind (obeys_describe (L := .thrifty) (E := fun _ => True) v) fun _ => .pure _
    | exhausted => exact absurd rfl hr
    | tooDeep => exact .pure _
    | _ => exact .throw fun h => by cases h

/-- An action that is guarded reports its exhaustion instead of passing it on. -/
theorem guarded_cases {action : Eval Unit} (h : action.Thrifty) (m : Machine) :
    (∃ m', guarded action m = .ok (some "Step budget exhausted") m' ∧ m'.budget < 0) ∨
      (guarded action).Overdraws m ∨ (guarded action).Affords m := by
  rcases h m with ⟨m', hm, hneg⟩ | h
  · exact .inl ⟨m', bind_ok (attempt_error hm), hneg⟩
  · obtain ⟨r, hr, htry⟩ := h.attempted
    exact .inr ((thrifty_report hr _).imp (.after htry) (h.attempt.after htry))

/-! ### Timers -/

section

variable {n : Nat} {error : Option String} {t : Task} {rest : Queue Task}

theorem runTasks_spent (h : m.budget ≤ 0) : runTasks (n + 1) error m = .ok error m := by
  show (if m.budget ≤ 0 then _ else _ : Eval (Option String)) m = _
  rw [if_pos h]
  rfl

theorem runTasks_done (h : m.pending.next? Task.isBefore = none) :
    runTasks (n + 1) error m = .ok error m := by
  by_cases hm : m.budget ≤ 0
  · exact runTasks_spent hm
  · show (if m.budget ≤ 0 then _ else _ : Eval (Option String)) m = _
    rw [if_neg hm]
    exact bind_ok (nextTask?_none h)

theorem runTasks_next (hm : 0 < m.budget)
    (h : m.pending.next? Task.isBefore = some (t, rest)) :
    runTasks (n + 1) error m =
      (callTask t >>= fun failure => runTasks n (firstError error failure))
        { m with pending := rest } := by
  show (if m.budget ≤ 0 then _ else _ : Eval (Option String)) m = _
  rw [if_neg (by omega)]
  exact bind_ok (nextTask?_some h)

end

theorem callTask_cases (t : Task) (m : Machine) :
    (∃ m', callTask t m = .ok (some "Step budget exhausted") m' ∧ m'.budget < 0) ∨
      (callTask t).Overdraws m ∨ (callTask t).Affords m :=
  guarded_cases (.bind (obeys_call (L := .thrifty) (E := fun _ => True) obeys_applyFunction _ _ _)
    fun _ => .pure ()) m

theorem firstError_cases (first second : Option String) :
    firstError first second = second ∨ ∃ e, firstError first second = some e ∧ e ≠ "" := by
  unfold firstError
  split
  · exact .inl rfl
  · exact .inl rfl
  · rename_i e he
    exact .inr ⟨e, rfl, fun h => he (h ▸ rfl)⟩

/-- Unless they are cut short, the timers do the same with more steps to spare. -/
theorem runTasks_refund {r : Option String} {m' : Machine}
    (hr : r ≠ some "Step budget exhausted") (hcut : ¬ CutShort r m') (k : Nat) :
    ∀ {n : Nat} {error : Option String} {m : Machine}, runTasks n error m = .ok r m' →
      runTasks n error (m.refund k) = .ok r (m'.refund k)
  | 0, _, _, h => by cases h
  | n + 1, error, m, h => by
    cases hnext : m.pending.next? Task.isBefore with
    | none =>
      rw [runTasks_done hnext] at h
      cases h
      exact runTasks_done hnext
    | some found =>
      obtain ⟨t, rest⟩ := found
      by_cases hm : m.budget ≤ 0
      · rw [runTasks_spent hm] at h
        cases h
        exact absurd (.waiting hm (by rw [hnext]; exact Option.some_ne_none _)) hcut
      · have hmore : 0 < (m.refund k).budget := by
          show 0 < m.budget + k
          omega
        rw [runTasks_next (by omega) hnext] at h
        rw [runTasks_next hmore hnext]
        show (callTask t >>= fun failure => runTasks n (firstError error failure))
          (Machine.refund k { m with pending := rest }) = _
        generalize ({ m with pending := rest } : Machine) = m₀ at h
        rcases callTask_cases t m₀ with ⟨m₁, hcall, hneg⟩ | ⟨m₁, hcall, _⟩ | hcall
        · -- The task was the last, so its report is missing only where an earlier one hides it.
          rw [bind_ok hcall] at h
          cases n with
          | zero => cases h
          | succ n =>
            rw [runTasks_spent (Int.le_of_lt hneg)] at h
            cases h
            rcases firstError_cases error (some "Step budget exhausted") with hlast | ⟨e, he, hne⟩
            · exact absurd hlast hr
            · exact absurd (.hidden hneg he hne) hcut
        · rw [bind_error hcall] at h
          cases h
        · cases hfound : callTask t m₀ with
          | error s m₁ =>
            rw [bind_error hfound] at h
            cases h
          | ok failure m₁ =>
            rw [bind_ok hfound] at h
            have hmore := hcall.refund k
            rw [hfound] at hmore
            rw [bind_ok hmore]
            exact runTasks_refund hr hcut k h

theorem outcome_eq_ok {error : Option String} {o : Outcome} {m m' : Machine}
    (h : outcome error m = .ok o m') : o.error = error ∧ m' = m := by
  obtain ⟨m₁, m₂, hget, h⟩ := bind_eq_ok h
  obtain ⟨t, m₃, htext, h⟩ := bind_eq_ok h
  obtain ⟨m₄, m₅, hlog, h⟩ := bind_eq_ok h
  cases hget
  cases hlog
  cases h
  exact ⟨rfl, (inspect_eq_ok htext).2⟩

theorem runScript_refund {script : Node} {hosts : Eval (List (String × Value))}
    (hhosts : hosts.Thrifty) {o : Outcome} {m m' : Machine}
    (h : runScript script hosts m = .ok o m') (hr : o.error ≠ some "Step budget exhausted")
    (hcut : ¬ CutShort o.error m') (k : Nat) :
    runScript script hosts (m.refund k) = .ok o (m'.refund k) := by
  obtain ⟨env, m₁, henv, h⟩ := bind_eq_ok h
  obtain ⟨error, m₂, hmain, h⟩ := bind_eq_ok h
  obtain ⟨_, _, hget, h⟩ := bind_eq_ok h
  cases hget
  obtain ⟨r, m₃, htasks, h⟩ := bind_eq_ok h
  obtain ⟨rfl, rfl⟩ := outcome_eq_ok h
  refine (bind_ok ((thrifty_hostEnv hhosts).refund_ok henv k)).trans ?_
  rcases guarded_cases (thrifty_runMain env script) m₁ with
    ⟨_, hspent, hneg⟩ | ⟨_, hover, _⟩ | hafford
  · rw [hmain] at hspent
    cases hspent
    cases hcount : m₂.platform.tasks with
    | zero =>
      rw [hcount] at htasks
      cases htasks
    | succ n =>
      rw [hcount, runTasks_spent (Int.le_of_lt hneg)] at htasks
      exact absurd (Ending.ok.inj htasks).1.symm hr
  · rw [hmain] at hover
    cases hover
  · have hmore := hafford.refund k
    rw [hmain] at hmore
    refine (bind_ok hmore).trans ((bind_ok (runTasks_refund hr hcut k htasks)).trans ?_)
    exact (thrifty_outcome _).refund_ok h k

end Eval

theorem runScript_eq_ok {script : Node} {options : RunOptions} {o : Outcome} :
    runScript script options = .ok o ↔
      ∃ m, Eval.runScript script options.hosts options.machine = .ok o m := by
  unfold runScript
  constructor
  · intro h
    cases hrun : Eval.runScript script options.hosts options.machine with
    | ok a m =>
      rw [hrun] at h
      cases h
      exact ⟨m, rfl⟩
    | error s m =>
      rw [hrun] at h
      cases h
  · rintro ⟨m, hrun⟩
    rw [hrun]

/-- **A run that is not cut short is complete.** With more steps to spare it has the same outcome.
A run that does not report exhaustion is cut short in one of two ways only: timers still wait when
the last step is spent, or an earlier error stands in the report. -/
theorem runScript_complete (script : Node) (options : RunOptions) (hhosts : options.hosts.Thrifty)
    {o : Outcome} {m : Machine}
    (hrun : Eval.runScript script options.hosts options.machine = .ok o m)
    (hreport : o.error ≠ some "Step budget exhausted") {budget : Int}
    (hbudget : options.budget ≤ budget) :
    runScript script { options with budget } = .ok o ∨ CutShort o.error m := by
  by_cases hcut : CutShort o.error m
  · exact .inr hcut
  · obtain ⟨k, rfl⟩ : ∃ k : Nat, budget = options.budget + k :=
      ⟨(budget - options.budget).toNat, by omega⟩
    exact .inl (runScript_eq_ok.mpr ⟨_, Eval.runScript_refund hhosts hrun hreport hcut k⟩)

/-- `setTimeout(() => console.log("late"));` -/
def deferringScript : Node :=
  let log : Node := .member (.lookup ⟨"console", .of 17 24⟩)
    (.literal (.json (.str "log")) (.of 25 28)) false (.of 17 28)
  let late : Node := .call log [.literal (.json (.str "late")) (.of 29 35)] (.of 17 36)
  .program [.exprStmt (.call (.lookup ⟨"setTimeout", .of 0 10⟩)
    [.function .expression none [] [.returnStmt late (.of 17 36)] true (.of 11 36)]
    (.of 0 37)) (.of 0 38)] (.of 0 38)

theorem runScript_complete_deferringScript :
    ∃ m, Eval.runScript deferringScript (pure []) ({ budget := 2 } : RunOptions).machine =
        .ok ⟨"1", none, ["late"]⟩ m ∧ ¬ CutShort none m ∧
      runScript deferringScript { budget := 50 } = .ok ⟨"1", none, ["late"]⟩ := by
  obtain ⟨o, hrun, ho⟩ := exists_ok_of_any
    (show (runScript deferringScript { budget := 2 }).toOption.any
      (· == ⟨"1", none, ["late"]⟩) = true by decide +kernel)
  obtain rfl := eq_of_beq ho
  obtain ⟨m, hm⟩ := runScript_eq_ok.mp hrun
  have hwaits : ((Eval.runScript deferringScript (pure []) ({ budget := 2 } :
      RunOptions).machine).machine.pending.next? Task.isBefore).isNone = true := by decide +kernel
  have hcut : ¬ CutShort none m := by
    rintro (⟨-, hnext⟩ | ⟨-, hearlier, -⟩)
    · rw [show Eval.runScript deferringScript (pure []) _ = _ from hm] at hwaits
      exact hnext (Option.isNone_iff_eq_none.mp hwaits)
    · cases hearlier
  have hreport : (none : Option String) ≠ some "Step budget exhausted" := fun h => by cases h
  exact ⟨m, hm, hcut, (runScript_complete deferringScript { budget := 2 } (.pure []) hm hreport
    (by decide)).resolve_right hcut⟩

/-- With one step the timer is not called, and the report does not say so. -/
theorem deferringScript_cut_silently :
    (runScript deferringScript { budget := 1 }).toOption = some ⟨"1", none, []⟩ ∧
      (runScript deferringScript { budget := 2 }).toOption = some ⟨"1", none, ["late"]⟩ := by
  decide +kernel

end ScopeLowering

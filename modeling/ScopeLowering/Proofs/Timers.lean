import Mathlib.Data.List.Range
import ScopeLowering.Proofs.Landing
import ScopeLowering.Proofs.Urgency

/-!
# Timers

The tasks that a run defers are called after the script itself, each at most once, and always the
first of those that wait. If the budget lasts, none is left out, whatever the others do
(`timers_run_once`).

## The model

Code only adds to the tasks that wait, one at a time (`Machine.Deferring`): to take one is up to the
loop that calls them (`Machine.Drains`). Tasks are numbered in the order in which they are deferred,
so no two are the same, and the books can be kept: what has been called and what still waits is
together what has been deferred (`Machine.Balances`).
-/

namespace ScopeLowering

namespace Machine

/-! ### Keeping the books -/

/-- From one machine to another the tasks `calls` have gone and the tasks `new` have been deferred,
and no others. -/
structure Balances (m : Machine) (calls new : List Task) (m' : Machine) : Prop where
  tasks : (calls ++ m'.pending.toList).Perm (m.pending.toList ++ new)
  numbers : new.map Task.sequence = List.range' m.deferred new.length
  count : m'.deferred = m.deferred + new.length

namespace Balances

variable {m m' m'' : Machine} {calls calls' new new' : List Task}

theorem of_same (hpending : m'.pending = m.pending) (hdeferred : m'.deferred = m.deferred) :
    m.Balances [] [] m' := by
  refine ⟨?_, rfl, hdeferred⟩
  rw [hpending, List.append_nil]
  exact .refl _

theorem defer (delay : Number) (callee : Value) (args : List Value) :
    m.Balances [] [⟨delay, m.deferred, callee, args⟩] (m.defer delay callee args) :=
  ⟨Queue.perm_toList_insert.trans (List.perm_append_singleton _ _).symm, rfl, rfl⟩

theorem take {t : Task} {rest : Queue Task} (h : m.pending.toList.Perm (t :: rest.toList)) :
    m.Balances [t] [] { m with pending := rest } := by
  refine ⟨?_, rfl, rfl⟩
  rw [List.append_nil]
  exact h.symm

theorem trans (h : m.Balances calls new m') (h' : m'.Balances calls' new' m'') :
    m.Balances (calls ++ calls') (new ++ new') m'' := by
  refine ⟨?_, ?_, ?_⟩
  · calc calls ++ calls' ++ m''.pending.toList
      _ = calls ++ (calls' ++ m''.pending.toList) := List.append_assoc ..
      _ |>.Perm (calls ++ (m'.pending.toList ++ new')) := h'.tasks.append_left _
      _ = calls ++ m'.pending.toList ++ new' := (List.append_assoc ..).symm
      _ |>.Perm (m.pending.toList ++ new ++ new') := h.tasks.append_right _
      _ = m.pending.toList ++ (new ++ new') := List.append_assoc ..
  · rw [List.map_append, h.numbers, h'.numbers, h.count, List.length_append,
      List.range'_append_1]
  · rw [h'.count, h.count, List.length_append, Nat.add_assoc]

end Balances

/-! ### Tasks in order -/

/-- Are the tasks of the machine in order, with numbers as their delays and sequence numbers that
were given once? -/
structure IsScheduled (m : Machine) : Prop where
  ordered : m.pending.IsOrdered Task.isBefore
  timed : ∀ t ∈ m.pending.toList, t.delay.isNaN = false
  distinct : (m.pending.toList.map Task.sequence).Nodup
  below : ∀ t ∈ m.pending.toList, t.sequence < m.deferred

namespace IsScheduled

variable {m m' : Machine} (hm : m.IsScheduled)

include hm

theorem of_same (hpending : m'.pending = m.pending) (hdeferred : m'.deferred = m.deferred) :
    m'.IsScheduled :=
  ⟨hpending ▸ hm.ordered, hpending ▸ hm.timed, hpending ▸ hm.distinct, by
    rw [hpending, hdeferred]
    exact hm.below⟩

theorem defer {delay : Number} (h : delay.isNaN = false) (callee : Value) (args : List Value) :
    (m.defer delay callee args).IsScheduled := by
  have hperm : (m.defer delay callee args).pending.toList.Perm
      (⟨delay, m.deferred, callee, args⟩ :: m.pending.toList) := Queue.perm_toList_insert
  have htimed : ∀ t ∈ (⟨delay, m.deferred, callee, args⟩ : Task) :: m.pending.toList,
      t.delay.isNaN = false := List.forall_mem_cons.mpr ⟨h, hm.timed⟩
  refine ⟨hm.ordered.insert Task.isPriority_isBefore htimed, ?_, ?_, ?_⟩
  · exact fun t ht => htimed t (hperm.mem_iff.mp ht)
  · rw [(hperm.map _).nodup_iff, List.map_cons, List.nodup_cons]
    refine ⟨fun hmem => ?_, hm.distinct⟩
    obtain ⟨t, ht, heq⟩ := List.mem_map.mp hmem
    change t.sequence = m.deferred at heq
    exact absurd (hm.below t ht) (by omega)
  · intro t ht
    rcases List.mem_cons.mp (hperm.mem_iff.mp ht) with rfl | ht
    · exact Nat.lt_succ_self _
    · exact Nat.lt_succ_of_lt (hm.below t ht)

/-- The task that is taken precedes all others that wait. -/
theorem take {t : Task} {rest : Queue Task}
    (h : m.pending.next? Task.isBefore = some (t, rest)) :
    IsScheduled { m with pending := rest } ∧ m.pending.toList.Perm (t :: rest.toList) ∧
      ∀ u ∈ rest.toList, t.Precedes u := by
  obtain ⟨hperm, hordered, hfirst⟩ :=
    hm.ordered.next? Task.isPriority_isBefore hm.timed h
  have hrest : ∀ u ∈ rest.toList, u ∈ m.pending.toList := fun u hu =>
    hperm.mem_iff.mpr (List.mem_cons_of_mem t hu)
  have ht : t ∈ m.pending.toList := hperm.mem_iff.mpr List.mem_cons_self
  have hdistinct := hm.distinct
  rw [(hperm.map _).nodup_iff, List.map_cons, List.nodup_cons] at hdistinct
  refine ⟨⟨hordered, fun u hu => hm.timed u (hrest u hu), hdistinct.2,
    fun u hu => hm.below u (hrest u hu)⟩, hperm, fun u hu => ?_⟩
  refine Task.precedes_of_isBefore_eq_false (hm.timed t ht) (hm.timed u (hrest u hu)) ?_
    (hfirst u hu)
  intro heq
  exact hdistinct.1 (heq ▸ List.mem_map_of_mem hu)

end IsScheduled

/-! ### Code that defers tasks -/

/-- On the way from one machine to another the tasks that wait stay, and those of `ts` are deferred,
one after the other. -/
inductive Deferring : Machine → List Machine → List Task → Machine → Prop where
  | nil {m : Machine} : Deferring m [] [] m
  | quiet {m m₁ m' : Machine} {l : List Machine} {ts : List Task}
    (hpending : m₁.pending = m.pending) (hdeferred : m₁.deferred = m.deferred)
    (rest : Deferring m₁ l ts m') : Deferring m (m₁ :: l) ts m'
  | defer {m m' : Machine} {l : List Machine} {ts : List Task} {delay : Number}
    (h : delay.isNaN = false) (callee : Value) (args : List Value)
    (rest : Deferring (m.defer delay callee args) l ts m') :
    Deferring m (m.defer delay callee args :: l) (⟨delay, m.deferred, callee, args⟩ :: ts) m'

namespace Deferring

variable {m m' m'' : Machine} {l l' : List Machine} {ts ts' : List Task}

theorem append (h : m.Deferring l ts m') (h' : m'.Deferring l' ts' m'') :
    m.Deferring (l ++ l') (ts ++ ts') m'' := by
  induction h with
  | nil => exact h'
  | quiet hpending hdeferred _ ih => exact .quiet hpending hdeferred (ih h')
  | defer hdelay callee args _ ih => exact .defer hdelay callee args (ih h')

theorem balances (h : m.Deferring l ts m') : m.Balances [] ts m' := by
  induction h with
  | nil => exact .of_same rfl rfl
  | quiet hpending hdeferred _ ih => exact (Balances.of_same hpending hdeferred).trans ih
  | defer _ callee args _ ih => exact (Balances.defer _ callee args).trans ih

theorem isScheduled (h : m.Deferring l ts m') (hm : m.IsScheduled) :
    ∀ x ∈ l, x.IsScheduled := by
  induction h with
  | nil => exact List.forall_mem_nil _
  | quiet hpending hdeferred _ ih =>
    have hm₁ := hm.of_same hpending hdeferred
    exact List.forall_mem_cons.mpr ⟨hm₁, ih hm₁⟩
  | defer hdelay callee args _ ih =>
    have hm₁ := hm.defer hdelay callee args
    exact List.forall_mem_cons.mpr ⟨hm₁, ih hm₁⟩

end Deferring

/-- Code keeps the tasks in order, and each of its steps defers a task or leaves them alone. -/
def scheduled : Machine.Invariant False where
  Holds := IsScheduled
  keep hm hchange := by
    cases hchange with
    | defer h callee args => exact hm.defer h callee args
    | _ => exact hm.of_same rfl rfl
  closures _ _ hs := hs.elim
  Step m m' := ∃ ts, m.Deferring [m'] ts m'
  step hm hchange := by
    cases hchange with
    | defer h callee args => exact ⟨_, .defer h callee args .nil⟩
    | _ => exact ⟨_, .quiet rfl rfl .nil⟩

theorem Deferring.isChain {m m' : Machine} {l : List Machine} {ts : List Task}
    (h : m.Deferring l ts m') : (m :: l).IsChain scheduled.Step := by
  induction h with
  | nil => exact .singleton _
  | quiet hpending hdeferred _ ih => exact .cons_cons ⟨_, .quiet hpending hdeferred .nil⟩ ih
  | defer hdelay callee args _ ih => exact .cons_cons ⟨_, .defer hdelay callee args .nil⟩ ih

theorem exists_deferring {m : Machine} {l : List Machine} (h : (m :: l).IsChain scheduled.Step) :
    ∃ ts, m.Deferring l ts ((m :: l).getLast (List.cons_ne_nil m l)) := by
  induction l generalizing m with
  | nil => exact ⟨[], .nil⟩
  | cons m₁ l ih =>
    obtain ⟨⟨ts, hfirst⟩, hrest⟩ := List.isChain_cons_cons.mp h
    obtain ⟨ts', hrest⟩ := ih hrest
    exact ⟨ts ++ ts', hfirst.append hrest⟩

/-! ### The loop that calls tasks -/

/-- While the budget lasts, the first of the tasks that wait is taken and called, and then the next
one, whatever has become of it. The tasks of `calls` are called in this order, and those of `new`
are deferred by them. -/
inductive Drains : Machine → List Machine → List Task → List Task → Machine → Prop where
  | spent {m : Machine} (h : m.budget ≤ 0) : Drains m [] [] [] m
  | idle {m : Machine} (h : m.pending.toList = []) : Drains m [m] [] [] m
  | call {m m₁ m' : Machine} {t : Task} {rest : Queue Task} {report : Option String}
    {l l' : List Machine} {ts calls new : List Task} (hbudget : 0 < m.budget)
    (hwaits : m.pending.toList.Perm (t :: rest.toList))
    (hfirst : ∀ u ∈ rest.toList, t.Precedes u)
    (hcall : Eval.callTask t { m with pending := rest } = .ok report m₁)
    (htrace : (Eval.callTask t).Trace { m with pending := rest } l)
    (hdefers : Deferring { m with pending := rest } l ts m₁)
    (hrest : Drains m₁ l' calls new m') :
    Drains m ({ m with pending := rest } :: (l ++ l')) (t :: calls) (ts ++ new) m'

namespace Drains

variable {m m' : Machine} {l : List Machine} {calls new : List Task}

theorem balances (h : m.Drains l calls new m') : m.Balances calls new m' := by
  induction h with
  | spent => exact .of_same rfl rfl
  | idle => exact .of_same rfl rfl
  | call _ hwaits _ _ _ hdefers _ ih =>
    exact (Balances.take hwaits).trans (hdefers.balances.trans ih)

/-- Tasks are left only if the budget is used up. -/
theorem pending_eq_nil (h : m.Drains l calls new m') (hbudget : 0 < m'.budget) :
    m'.pending.toList = [] := by
  induction h with
  | spent hspent => exact absurd hbudget (by omega)
  | idle hnone => exact hnone
  | call _ _ _ _ _ _ _ ih => exact ih hbudget

end Drains

end Machine

namespace Eval

open Machine

theorem minds_of_deferring {α : Type} {a : Eval α} {E : Jump → Prop}
    (h : ∀ m l, a.Trace m l → ∃ ts, m.Deferring l ts (a m).machine) : a.Minds scheduled E := by
  refine ⟨fun {m l} hm hl => ?_, fun hs => hs.elim, fun {m l} _ hl => ?_⟩
  · obtain ⟨ts, hdefers⟩ := h m l hl
    exact hdefers.isScheduled hm
  · obtain ⟨ts, hdefers⟩ := h m l hl
    exact hdefers.isChain

theorem Minds.deferring {α : Type} {a : Eval α} {E : Jump → Prop} (h : a.Minds scheduled E)
    {m m' : Machine} {v : α} (hm : m.IsScheduled) (hrun : a m = .ok v m') {l : List Machine}
    (hl : a.Trace m l) : m'.IsScheduled ∧ ∃ ts, m.Deferring l ts m' := by
  have hend : (a m).machine = m' := congrArg Ending.machine hrun
  rw [← hend]
  refine ⟨h.machine hm, ?_⟩
  rw [← a.getLast_trace hl]
  exact exists_deferring (h.steps hm hl)

theorem trace_nextTask? {m : Machine} {l : List Machine} (h : nextTask?.Trace m l) :
    l = [(nextTask? m).machine] := h

/-- The loop calls the tasks that wait, the first one first. -/
theorem drains_runTasks {n : Nat} {error result : Option String} {m m' : Machine}
    (hm : m.IsScheduled) (hrun : runTasks n error m = .ok result m') {l : List Machine}
    (hl : (runTasks n error).Trace m l) : ∃ calls new, m.Drains l calls new m' := by
  induction n generalizing error m l with
  | zero => cases hrun
  | succ n ih =>
    have hget : (get : Eval Machine) m = .ok m m := rfl
    unfold runTasks at hrun hl
    rw [bind_ok hget] at hrun
    obtain ⟨_, l, rfl, hl, rfl⟩ := (trace_bind_ok hget).mp hl
    split at hrun
    · rename_i hspent
      rw [if_pos hspent] at hl
      cases hrun
      cases hl
      exact ⟨[], [], .spent hspent⟩
    · rename_i hbudget
      rw [if_neg hbudget] at hl
      cases hnext : m.pending.next? Task.isBefore with
      | none =>
        have htake : nextTask? m = .ok none m := nextTask?_none hnext
        rw [bind_ok htake] at hrun
        obtain ⟨l₁, l₂, htrace, hl₂, rfl⟩ := (trace_bind_ok htake).mp hl
        rw [trace_nextTask? htrace, htake]
        cases hrun
        cases hl₂
        exact ⟨[], [], .idle (Queue.next?_eq_none.mp hnext)⟩
      | some next =>
        obtain ⟨t, rest⟩ := next
        have htake := nextTask?_some hnext
        rw [bind_ok htake] at hrun
        obtain ⟨l₁, l₂, htrace, hl₂, rfl⟩ := (trace_bind_ok htake).mp hl
        obtain ⟨report, m₁, hcall, hrun⟩ := bind_eq_ok hrun
        obtain ⟨l₃, l₄, hl₃, hl₄, rfl⟩ := (trace_bind_ok hcall).mp hl₂
        obtain ⟨hm₀, hwaits, hfirst⟩ := hm.take hnext
        have hminds : (callTask t).Minds scheduled fun _ => True := minds_callTask t
        obtain ⟨hm₁, ts, hdefers⟩ := hminds.deferring hm₀ hcall hl₃
        obtain ⟨calls, new, hrest⟩ := ih hm₁ hrun hl₄
        rw [trace_nextTask? htrace, htake]
        exact ⟨t :: calls, ts ++ new,
          .call (l := l₃) (by omega) hwaits hfirst hcall hl₃ hdefers hrest⟩

/-- To sum up a run changes nothing. -/
theorem trace_outcome {error : Option String} {o : Outcome} {m m' : Machine} {l : List Machine}
    (h : outcome error m = .ok o m') (hl : (outcome error).Trace m l) : m' = m ∧ l = [] := by
  have hget : ∀ m : Machine, (get : Eval Machine) m = .ok m m := fun _ => rfl
  unfold outcome at h hl
  rw [bind_ok (hget m)] at h
  obtain ⟨_, l₁, rfl, hl₁, rfl⟩ := (trace_bind_ok (hget m)).mp hl
  obtain ⟨t, m₁, htext, hend⟩ := bind_eq_ok h
  obtain ⟨_, l₂, rfl, hl₂, rfl⟩ := (trace_bind_ok htext).mp hl₁
  obtain ⟨-, rfl⟩ := inspect_eq_ok htext
  rw [bind_ok (hget m₁)] at hend
  obtain ⟨_, l₃, rfl, rfl, rfl⟩ := (trace_bind_ok (hget m₁)).mp hl₂
  cases hend
  exact ⟨rfl, rfl⟩

/-- `setTimeout` defers one task. Any delay will do that converts to a number; what is not a number
counts as none. -/
theorem callSetTimeout_ok {args : List Value} {m : Machine} {n : Number}
    (h : m.numberOf (args[1]?.getD (.int 0)) = .ok n) :
    callSetTimeout args m = .ok (.int (m.pending.size + 1))
      (m.defer (if n.isNaN then .int 0 else n) (args.headD .undefined) (args.drop 2)) := by
  have hnumber : toNumber (args[1]?.getD (.int 0)) m = .ok n m := inspect_ok h
  rw [callSetTimeout, bind_ok hnumber]
  rfl

end Eval

/-- **Every timer runs once, in order.** In any run that ends, with hosts that do no more to the
tasks than defer some, no task is taken before the script itself has ended; until then tasks are
only deferred, one for each time `setTimeout` is called with a delay that converts to a number. Then
the first of those that wait is called, by delay and then by number, also while more of them are
deferred and whatever the calls report. Each deferred task has a number of its own, and is either
called once or still waits in the end. If some budget is left, none waits. -/
theorem timers_run_once (script : Node) (options : RunOptions)
    (hhosts : ∀ m l, options.hosts.Trace m l →
      ∃ ts, m.Deferring l ts (options.hosts m).machine)
    {o : Outcome} {m : Machine}
    (hrun : Eval.runScript script options.hosts options.machine = .ok o m)
    {l : List Machine} (hl : (Eval.runScript script options.hosts).Trace options.machine l) :
    (∀ x : Machine, ∀ args n, x.numberOf (args[1]?.getD (.int 0)) = .ok n →
      Eval.callSetTimeout args x = .ok (.int (x.pending.size + 1))
        (x.defer (if n.isNaN then .int 0 else n) (args.headD .undefined) (args.drop 2))) ∧
    ∃ env error m₀ m₁ setUp main tasks ts calls new, l = setUp ++ main ++ tasks ∧
      Eval.hostEnv options.hosts options.machine = .ok env m₀ ∧
      (Eval.hostEnv options.hosts).Trace options.machine setUp ∧
      Eval.guarded (Eval.runMain env script) m₀ = .ok error m₁ ∧
      (Eval.guarded (Eval.runMain env script)).Trace m₀ main ∧
      options.machine.Deferring (setUp ++ main) ts m₁ ∧
      m₁.Drains tasks calls new m ∧
      (ts ++ new).map Task.sequence = List.range m.deferred ∧
      (calls ++ m.pending.toList).Perm (ts ++ new) ∧
      (calls.map Task.sequence).Nodup ∧
      (0 < m.budget → calls.Perm (ts ++ new)) := by
  refine ⟨fun x args n h => Eval.callSetTimeout_ok h, ?_⟩
  obtain ⟨env, m₀, hsetUp, hrun₁⟩ := Eval.bind_eq_ok hrun
  obtain ⟨setUp, l₁, htrace, hl₁, rfl⟩ := (Eval.trace_bind_ok hsetUp).mp hl
  obtain ⟨error, m₁, hmain, hrun₂⟩ := Eval.bind_eq_ok hrun₁
  obtain ⟨main, l₂, htrace', hl₂, rfl⟩ := (Eval.trace_bind_ok hmain).mp hl₁
  have hget : (get : Eval Machine) m₁ = .ok m₁ m₁ := rfl
  rw [Eval.bind_ok hget] at hrun₂
  obtain ⟨_, l₂, rfl, hl₂, rfl⟩ := (Eval.trace_bind_ok hget).mp hl₂
  obtain ⟨result, m₂, htasks, hend⟩ := Eval.bind_eq_ok hrun₂
  obtain ⟨tasks, l₃, htrace'', hl₃, rfl⟩ := (Eval.trace_bind_ok htasks).mp hl₂
  obtain ⟨rfl, rfl⟩ := Eval.trace_outcome hend hl₃
  have hstart : options.machine.IsScheduled :=
    ⟨trivial, List.forall_mem_nil _, List.nodup_nil, List.forall_mem_nil _⟩
  have hhostEnv : (Eval.hostEnv options.hosts).Minds Machine.scheduled fun _ => True :=
    Eval.minds_hostEnv (Eval.minds_of_deferring hhosts)
  have hscript : (Eval.guarded (Eval.runMain env script)).Minds Machine.scheduled fun _ => True :=
    Eval.minds_guarded (Eval.minds_runMain env (fun hs => hs.elim) fun hs => hs.elim)
  obtain ⟨hm₀, ts, hdefers⟩ := hhostEnv.deferring hstart hsetUp htrace
  obtain ⟨hm₁, ts', hdefers'⟩ := hscript.deferring hm₀ hmain htrace'
  have hall := hdefers.append hdefers'
  obtain ⟨calls, new, hdrains⟩ := Eval.drains_runTasks hm₁ htasks htrace''
  have hbalance : options.machine.Balances calls (ts ++ ts' ++ new) m :=
    hall.balances.trans hdrains.balances
  have htotal : (calls ++ m.pending.toList).Perm (ts ++ ts' ++ new) := hbalance.tasks
  have hrange : (ts ++ ts' ++ new).map Task.sequence = List.range m.deferred := by
    rw [hbalance.numbers, hbalance.count, List.range_eq_range']
    exact congrArg (List.range' 0) (Nat.zero_add _).symm
  have hdistinct : ((calls ++ m.pending.toList).map Task.sequence).Nodup := by
    rw [(htotal.map _).nodup_iff]
    exact hrange ▸ List.nodup_range
  rw [List.map_append] at hdistinct
  refine ⟨env, error, m₀, m₁, setUp, main, tasks, ts ++ ts', calls, new, ?_, hsetUp, htrace, hmain,
    htrace', hall, hdrains, hrange, htotal, hdistinct.of_append_left, fun hbudget => ?_⟩
  · rw [List.append_nil, List.append_assoc]
  · have hnone := hdrains.pending_eq_nil hbudget
    rw [hnone, List.append_nil] at htotal
    exact htotal

/-- `setTimeout(console.log, 2, "b"); setTimeout(setTimeout, 1, console.log, 1, "a"); setTimeout(0,
"x");`, where the first task to be called has no number as its delay and throws, and the second one
defers the third. -/
def queueingScript : Node :=
  let json (v : Json) (start stop : Int) : Node := .literal (.json v) (.of start stop)
  let print (start : Int) : Node := .member (.lookup ⟨"console", .of start (start + 7)⟩)
    (json (.str "log") (start + 8) (start + 11)) false (.of start (start + 11))
  let defer (start stop : Int) (args : List Node) : Node := .exprStmt
    (.call (.lookup ⟨"setTimeout", .of start (start + 10)⟩) args (.of start (stop - 1)))
    (.of start stop)
  .program [defer 0 32 [print 11, json (.int 2) 24 25, json (.str "b") 27 30],
    defer 33 80 [.lookup ⟨"setTimeout", .of 44 54⟩, json (.int 1) 56 57, print 59,
      json (.int 1) 72 73, json (.str "a") 75 78],
    defer 81 100 [json (.int 0) 92 93, json (.str "x") 95 98]] (.of 0 100)

theorem timers_run_once_queueingScript :
    (runScript queueingScript arrayHost).toOption =
      some ⟨"3", some "TypeError: 0 is not a function", ["a", "b"]⟩ ∧
    ∃ m l m₁ tasks ts calls new, (Eval.runScript queueingScript arrayHost.hosts).Trace
      arrayHost.machine l ∧ Machine.Drains m₁ tasks calls new m ∧ calls.Perm (ts ++ new) ∧
      (ts ++ new).map Task.sequence = [0, 1, 2, 3] := by
  have houtcome : (runScript queueingScript arrayHost).toOption =
      some ⟨"3", some "TypeError: 0 is not a function", ["a", "b"]⟩ := by decide +kernel
  have hcounts : (Eval.runScript queueingScript arrayHost.hosts arrayHost.machine).machine.budget =
        99997 ∧
      (Eval.runScript queueingScript arrayHost.hosts arrayHost.machine).machine.deferred = 4 := by
    decide +kernel
  have hhosts : ∀ m l, arrayHost.hosts.Trace m l →
      ∃ ts, m.Deferring l ts (arrayHost.hosts m).machine := by
    intro m l hl
    obtain ⟨l₁, l₂, hl₁, hl₂, rfl⟩ := (Eval.trace_bind_ok rfl).mp hl
    cases (show l₂ = [] from hl₂)
    cases (show l₁ = [_] from hl₁)
    exact ⟨[], .quiet rfl rfl .nil⟩
  obtain ⟨l, hl⟩ := (Eval.runScript queueingScript arrayHost.hosts).exists_trace arrayHost.machine
  cases hrun : Eval.runScript queueingScript arrayHost.hosts arrayHost.machine with
  | error s m =>
    rw [runScript, hrun] at houtcome
    cases houtcome
  | ok o m =>
    rw [hrun] at hcounts
    obtain ⟨-, _, _, _, m₁, _, _, tasks, ts, calls, new, -, -, -, -, -, -, hdrains, hnumbers, -, -,
      hall⟩ := timers_run_once queueingScript arrayHost hhosts hrun hl
    have hbudget : m.budget = 99997 := hcounts.1
    have hdeferred : m.deferred = 4 := hcounts.2
    refine ⟨houtcome, m, l, m₁, tasks, ts, calls, new, hl, hdrains, hall (by omega), ?_⟩
    rw [hnumbers, hdeferred]
    rfl

end ScopeLowering

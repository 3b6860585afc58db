import ScopeLowering.Proofs.Confinement
import ScopeLowering.Proofs.Exits

/-!
# Jumps land where they belong

That code keeps an invariant and is left by no other jumps than its tree lets out, is a law of code
(`Eval.Law.minds`). Calls are never left by a jump, as long as all functions of the machine keep
their jumps, and whole runs make no other functions (`Machine.jumpsKept`). So in a run of a script
that has its jumps in place every jump lands (`jumps_land`).
-/

namespace ScopeLowering

variable {strict : Prop} {I : Machine.Invariant strict} {E E' : Jump → Prop} {α : Type}

namespace Eval

/-! ### Control -/

theorem minds_tick : tick.Minds I E := by
  refine .bind (.modify fun _ => .spend) fun _ => .get_bind fun m _ => ?_
  split
  · exact .throw_mild rfl
  · exact .pure _

section

variable {body action cleanup : Eval Unit}

theorem minds_thenAlways (haction : action.Minds I E) (hcleanup : cleanup.Minds I E) :
    (thenAlways action cleanup).Minds I E :=
  haction.attempt_bind (fun _ => hcleanup.bind fun _ => .pure _)
    fun _ hs => hcleanup.bind fun _ => .throw hs

theorem minds_catching {action : Eval α} {handle : Value → Eval α} (haction : action.Minds I E)
    (hhandle : ∀ v, (handle v).Minds I E) : (catching action handle).Minds I E := by
  refine haction.attempt_bind (fun _ => .pure _) fun s hs => ?_
  cases s with
  | thrown v => exact hhandle v
  | _ => exact .throw hs

/-- A `break` goes no further than this. -/
theorem minds_breakable (haction : action.Minds I E)
    (himp : strict → ∀ j, j ≠ .breaking → E j → E' j) :
    (breakable action).Minds I E' := by
  refine haction.attempt_bind (fun _ => .pure _) fun s hs => ?_
  cases s with
  | broke => exact .pure _
  | returned | continued =>
    exact .throw fun hstrict j hj => himp hstrict j (by cases hj; simp) (hs hstrict j hj)
  | _ => exact .throw_mild rfl

/-- A `return` goes no further than this. -/
theorem minds_returnValue (hbody : body.Minds I (· = .returning)) :
    (returnValue body).Minds I E := by
  refine hbody.attempt_bind (fun _ => .pure _) fun s hs => ?_
  cases s with
  | returned v => exact .pure _
  | broke | continued => exact .throw fun hstrict j hj => by cases hj; cases hs hstrict _ rfl
  | _ => exact .throw_mild rfl

/-- Of the jumps in the body of a loop, only a `return` gets further than this. -/
theorem minds_runBody (hbody : body.Minds I E)
    (himp : strict → E .returning → E' .returning) : (runBody body).Minds I E' := by
  refine hbody.attempt_bind (fun _ => .pure _) fun s hs => ?_
  cases s with
  | broke | continued => exact .pure _
  | returned v =>
    exact .throw fun hstrict j hj => by
      cases hj
      exact himp hstrict (hs hstrict _ rfl)
  | _ => exact .throw_mild rfl

theorem minds_iterate {pass : α → Eval (Option α)} (hpass : ∀ a, (pass a).Minds I E)
    (n : Nat) (a : α) : (iterate pass n a).Minds I E := by
  induction n generalizing a with
  | zero => exact .throw_mild rfl
  | succ n ih =>
    refine (hpass a).bind fun next => ?_
    cases next with
    | some b => exact ih b
    | none => exact .pure _

theorem minds_loop {pass : α → Eval (Option α)} (hpass : ∀ a, (pass a).Minds I E) (a : α) :
    (loop pass a).Minds I E :=
  .bind (.get_bind fun _ _ => .pure _) fun n => minds_iterate hpass n a

end

/-! ### The law -/

/-- To keep an invariant is a law of code, and so is to be left by certain jumps only. -/
def Law.minds (I : Machine.Invariant strict) : Law strict where
  Obeys E x := x.Minds I E
  Costs E x := x.Minds I E
  Pays _ E x := x.Minds I E
  obeys := id
  mono := Minds.mono
  costs_mono := Minds.mono
  inspect _ h := .inspect fun hs m s he => (h m s he).2 hs
  modifyGet h _ _ := .modifyGet h
  bind hx hf := hx.bind_of (fun _ _ => id) fun _ => hf
  get_bind _ h := .get_bind fun m hm => h m (I.closures hm)
  tick := minds_tick
  costs_bind := Minds.bind
  thenAlways := minds_thenAlways
  catching := minds_catching
  breakable := minds_breakable
  returnValue := minds_returnValue
  runBody := minds_runBody
  pays_of_costs := id
  obeys_of_pays := id
  pays_pure _ := .pure _
  pays_after := Minds.bind
  pays_bind := Minds.bind
  pays_get_bind _ h := .get_bind fun m _ => h m
  loop := minds_loop

theorem minds_newArray (xs : Array Value) : (newArray xs).Minds I E :=
  obeys_newArray (L := .minds I) xs

theorem minds_toText (v : Value) : (toText v).Minds I E := obeys_toText (L := .minds I) v

theorem minds_applyWithin (depth : Nat) : (Law.minds I).IsObeyedBy (applyWithin depth) :=
  obeys_applyWithin depth

theorem minds_exec {apply : Apply} (h : (Law.minds I).IsObeyedBy apply) (env : Env) (n : Node)
    (hn : n.KeepsJumpsIf strict) : (exec apply env n).Minds I fun j => n.lets j = true :=
  costs_exec h env n hn

/-! ### Whole runs -/

theorem minds_runMain (env : Env) {script : Node} (hscript : script.KeepsJumpsIf strict)
    (hconfines : strict → ∀ j, script.confines j = true) : (runMain env script).Minds I E :=
  obeys_runMain (L := .minds I) env hscript hconfines

theorem minds_hostEnv {hosts : Eval (List (String × Value))} (hhosts : hosts.Minds I E) :
    (hostEnv hosts).Minds I E := obeys_hostEnv (L := .minds I) hhosts

theorem minds_guarded {action : Eval Unit} (haction : action.Minds I E) :
    (guarded action).Minds I E := by
  refine haction.attempt_bind (fun _ => .pure _) fun s hs => ?_
  cases s with
  | thrown v => exact Minds.bind (obeys_describe (L := .minds I) v) fun _ => .pure _
  | exhausted | tooDeep => exact .pure _
  | _ => exact .throw hs

theorem minds_callTask (t : Task) : (callTask t).Minds I E :=
  minds_guarded (.bind (obeys_call (L := .minds I) obeys_applyFunction _ _ _)
    fun _ => .pure _)

/-- Taking the next task is no work of code, so the invariant has to allow for it. -/
theorem minds_runTasks
    (htake : ∀ {m : Machine} {t : Task} {rest : Queue Task}, I.Holds m →
      m.pending.next? Task.isBefore = some (t, rest) → I.Holds { m with pending := rest })
    (n : Nat) (error : Option String)
    (hstep : ∀ {m : Machine}, I.Holds m → I.Step m (nextTask? m).machine := by
      exact fun _ => trivial) :
    (runTasks n error).Minds I E := by
  have hnext : nextTask?.Minds I E := by
    refine ⟨fun {m l} hm hl => ?_, (fun _ m _ j hj => nomatch hj), fun {m l} hm hl => ?_⟩
    · change l = [_] at hl
      subst hl
      refine List.forall_mem_singleton.mpr ?_
      dsimp only
      split
      · exact hm
      · exact htake hm ‹_›
    · change l = [(nextTask? m).machine] at hl
      subst hl
      exact .cons_cons (hstep hm) (.singleton _)
  induction n generalizing error with
  | zero => exact .fault _
  | succ n ih =>
    refine .get_bind fun m _ => ?_
    split
    · exact .pure _
    · refine hnext.bind fun next => ?_
      cases next with
      | none => exact .pure _
      | some t => exact (minds_callTask t).bind fun _ => ih _

end Eval

/-! ### Machines whose functions keep their jumps -/

/-- Does the code of the procedure keep its jumps? -/
def Procedure.KeepsJumps : Procedure → Prop
  | closure _ code => code.KeepsJumps
  | native _ => True

/-- Do all functions of the machine keep their jumps? -/
def Machine.KeepsJumps (m : Machine) : Prop := ∀ id, (m.procedure id).KeepsJumps

theorem Machine.KeepsJumps.of_same {m m' : Machine} (h : m.KeepsJumps)
    (hsame : m'.procedures = m.procedures) : m'.KeepsJumps := fun id => by
  rw [Machine.procedure, hsame]
  exact h id

theorem Machine.KeepsJumps.push {m : Machine} (h : m.KeepsJumps) {p : Procedure}
    (hp : p.KeepsJumps) : KeepsJumps { m with procedures := m.procedures.push p } :=
  forall_getD_push (P := Procedure.KeepsJumps) h hp

theorem Machine.KeepsJumps.code {m : Machine} (h : m.KeepsJumps) {id : Nat} {env : Env}
    {code : Code} (hid : m.procedure id = .closure env code) : code.KeepsJumps := by
  have hkeeps := h id
  rwa [hid] at hkeeps

/-- Code whose functions keep their jumps makes no other functions. -/
def Machine.jumpsKept : Machine.Invariant True where
  Holds := KeepsJumps
  keep hm hchange := by
    cases hchange with
    | native fn => exact KeepsJumps.push hm trivial
    | closure env hcode => exact KeepsJumps.push hm (hcode trivial)
    | _ => exact KeepsJumps.of_same hm rfl
  closures hm hid := fun _ => KeepsJumps.code hm hid

/-- **Every jump lands where it belongs.** Say that in a sorted script each `return` is in a
function, each `break` in a loop or switch of its own function or of the script, and each `continue`
in such a loop. Then no run of it, with any hosts whose functions keep their jumps, ends with a
jump. In each state on its way, timers included, neither a call of any function nor a task ends with
one; and a statement ends with a jump only if that jump is in it and does not stop there. So no
`break` and no `continue` ever leaves the loop around it, and no `break` a switch. -/
theorem jumps_land (script : Node) (options : RunOptions) (hsorted : script.isSorted = true)
    (hlands : script.landsJumps = true)
    (hhosts : options.hosts.Minds Machine.jumpsKept fun _ => False) :
    (∀ s, runScript script options = .error s → s.jump? = none) ∧
    (∀ n ∈ script.phrases, n.KeepsJumps) ∧
    ∀ l, (Eval.runScript script options.hosts).Trace options.machine l →
      ∀ m ∈ options.machine :: l,
        (∀ depth id this args, (Eval.applyWithin depth id this args m).jump? = none) ∧
        (∀ t, (Eval.callTask t m).jump? = none) ∧
        ∀ n : Node, n.KeepsJumps → ∀ depth env,
          ∀ j ∈ (Eval.exec (Eval.applyWithin depth) env n m).jump?,
            n.lets j = true ∧ j.stopsAt n = false := by
  simp only [Node.landsJumps, Bool.and_eq_true] at hlands
  obtain ⟨⟨⟨hkept, hreturn⟩, hbreak⟩, hcontinue⟩ := hlands
  have hscript : script.KeepsJumps := ⟨hsorted, hkept⟩
  have hmachine : Machine.jumpsKept.Holds options.machine := fun id => by
    simp [Machine.procedure, RunOptions.machine, Procedure.KeepsJumps]
  have hrun : (Eval.runScript script options.hosts).Minds Machine.jumpsKept fun _ => False := by
    refine (Eval.minds_hostEnv hhosts).bind fun env => .bind (Eval.minds_guarded
      (Eval.minds_runMain env (fun _ => hscript) fun _ j => ?_)) fun error =>
        .get_bind fun _ _ => (Eval.minds_runTasks (fun hm _ => hm) _ _).bind fun error => ?_
    · cases j <;> assumption
    · exact .get_bind fun _ _ => (Eval.minds_toText _).bind fun _ => .get_bind fun _ _ => .pure _
  have hnone : ∀ o : Option Jump, (∀ j ∈ o, False) → o = none := fun o ho =>
    Option.eq_none_iff_forall_not_mem.mpr ho
  refine ⟨fun s hs => hnone _ fun j hj => ?_, hscript.phrase, fun l hl m hm => ?_⟩
  · refine hrun.exits trivial hmachine j ?_
    unfold runScript at hs
    split at hs <;> cases hs
    rename_i hend
    rwa [hend]
  · have hm : Machine.jumpsKept.Holds m :=
      List.forall_mem_cons.mpr ⟨hmachine, hrun.states hmachine hl⟩ m hm
    have happly := fun depth => Eval.minds_applyWithin (I := Machine.jumpsKept) depth
    refine ⟨fun depth id this args => hnone _ ?_, fun t => hnone _ ?_,
      fun n hn depth env j hj => ?_⟩
    · exact (happly depth id this args).exits trivial hm
    · exact (Eval.minds_callTask t).exits trivial hm
    · have hlets := (Eval.minds_exec (happly depth) env n fun _ => hn).exits trivial hm j hj
      exact ⟨hlets, Node.stopsAt_of_lets hlets⟩

/-- `setTimeout(function () { for (const x of [1, 2]) { switch (x) { case 1: continue; default:
break; } try { return; } finally { break; } } console.log("end"); });`, where a `continue` crosses a
switch, and a `break` takes the place of a `return`. -/
def jumpyScript : Node :=
  let number (v start stop : Int) : Node := .literal (.json (.int v)) (.of start stop)
  let choice : Node := .switchStmt (.lookup ⟨"x", .of 59 60⟩)
    [.caseClause (number 1 69 70) [.continueStmt (.of 72 81)] (.of 64 81),
      .caseClause .absent [.breakStmt (.of 91 97)] (.of 82 97)] (.of 51 99)
  let attempt : Node := .tryStmt (.block [.returnStmt .absent (.of 106 113)] (.of 104 115)) .absent
    (.block [.breakStmt (.of 126 132)] (.of 124 134)) (.of 100 134)
  let loop : Node := .forEachStmt
    (.varDecl .constWord [.declarator ⟨"x", .of 36 37⟩ .absent (.of 36 37)] (.of 30 37))
    (.arrayLit [number 1 42 43, number 2 45 46] (.of 41 47))
    (.block [choice, attempt] (.of 49 136)) true (.of 25 136)
  let print : Node := .call (.member (.lookup ⟨"console", .of 137 144⟩)
    (.literal (.json (.str "log")) (.of 145 148)) false (.of 137 148))
    [.literal (.json (.str "end")) (.of 149 154)] (.of 137 155)
  let task : Node :=
    .function .expression none [] [loop, .exprStmt print (.of 137 156)] false (.of 11 158)
  .program [.exprStmt (.call (.lookup ⟨"setTimeout", .of 0 10⟩) [task] (.of 0 159)) (.of 0 160)]
    (.of 0 160)

theorem jumps_land_jumpyScript :
    jumpyScript.isSorted = true ∧ jumpyScript.landsJumps = true ∧
    (runScript jumpyScript arrayHost).toOption = some ⟨"1", none, ["end"]⟩ ∧
    ∃ l, (Eval.runScript jumpyScript arrayHost.hosts).Trace arrayHost.machine l ∧
      ∀ m ∈ arrayHost.machine :: l, ∀ t, (Eval.callTask t m).jump? = none := by
  have hsorted : jumpyScript.isSorted = true := by decide
  have hlands : jumpyScript.landsJumps = true := by decide
  have hhosts : arrayHost.hosts.Minds Machine.jumpsKept fun _ => False :=
    (Eval.minds_newArray _).bind fun _ => .pure _
  obtain ⟨l, hl⟩ := (Eval.runScript jumpyScript arrayHost.hosts).exists_trace arrayHost.machine
  exact ⟨hsorted, hlands, by decide +kernel, l, hl, fun m hm =>
    ((jumps_land jumpyScript arrayHost hsorted hlands hhosts).2.2 l hl m hm).2.1⟩

end ScopeLowering

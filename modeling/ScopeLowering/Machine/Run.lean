import ScopeLowering.Machine.Host

/-!
# Running scripts

A whole run: the script itself, and then the timers it has set, the shortest delay first. What an
observer can see of it is its `Outcome`.

## The model

Calls are nested only as deep as the platform allows; a call beyond that gives the signal `tooDeep`,
which a script cannot catch. That bound is also what the recursion through calls goes by.
-/

namespace ScopeLowering

/-- What an observer sees of a run. -/
structure Outcome where
  /-- The value of the last top-level expression statement, as a text. -/
  result : String
  /-- The exception that was not caught, if there was one. -/
  error : Option String
  /-- The printed lines. -/
  log : List String
  deriving Repr, DecidableEq, Inhabited

namespace Eval

/-! ### Calls -/

/-- Make the variables of the parameters. A missing argument is undefined. -/
def bindParams (f : Frame) : List Ident → List Value → Eval Unit
  | [], _ => return
  | p :: rest, args => do
    declare f p.text (args.headD .undefined) false
    bindParams f rest args.tail

/-- Make the variable with all arguments, unless the function is an arrow or has that name. -/
def bindArguments (f : Frame) (isArrow : Bool) (args : List Value) : Eval Unit := do
  if isArrow || (← get).declares f "arguments" then return
  else declare f "arguments" (← newArray args.toArray) false

/-- The value that the body of a function returns. -/
def returnValue (body : Eval Unit) : Eval Value := do
  match ← attempt body with
  | .ok _ => return .undefined
  | .error (.returned v) => return v
  | .error s => throw s

/-- Call a function of the script. -/
def callClosure (apply : Apply) (env : Env) (code : Code) (this : Value) (args : List Value) :
    Eval Value := do
  let inner ← childWith env (if code.isArrow then env.frame.this else this)
  bindParams inner.frame code.params args
  bindArguments inner.frame code.isArrow args
  enterFunction inner code.body
  returnValue (execAll apply inner code.body)

/-- Call the function with a number, with calls nested at most so deeply. -/
def applyWithin : Nat → Apply
  | 0, _, _, _ => throw .tooDeep
  | depth + 1, id, this, args => do
    match (← get).procedure id with
    | .closure env code => callClosure (applyWithin depth) env code this args
    | .native fn => callNative (applyWithin depth) fn args

/-- Call the function with a number. -/
def applyFunction : Apply := fun id this args => do
  applyWithin (← get).platform.depth id this args

/-! ### Whole runs -/

/-- An exception in words. -/
def describe (v : Value) : Eval String := do
  let t ← toText v
  match v with
  | .record id => return if ((← get).record id).isError then t else "Uncaught " ++ t
  | _ => return "Uncaught " ++ t

/-- What went wrong with an action, if something did. Signals that belong to no exception pass. -/
def report : Except Signal Unit → Eval (Option String)
  | .ok _ => return none
  | .error (.thrown v) => return some (← describe v)
  | .error .exhausted => return some "Step budget exhausted"
  | .error .tooDeep => return some "RangeError: Maximum call stack size exceeded"
  | .error s => throw s

/-- Try an action, and report its error. -/
def guarded (action : Eval Unit) : Eval (Option String) := do report (← attempt action)

/-- The statements of a script. -/
def scriptBody : Node → Eval (List Node)
  | .program body _ | .block body _ | .function _ _ _ body _ _ | .caseClause _ body _ => return body
  | .forStmt .. | .forEachStmt .. | .whileStmt .. | .doWhileStmt .. | .withStmt ..
  | .catchClause .. => fault .wrongType
  | _ => fault .missingPart

/-- Run the statements of a script, keeping the value of each expression statement. -/
def runStatements (env : Env) : List Node → Eval Unit
  | [] => return
  | .exprStmt expr _ :: rest => do
    tick
    let v ← eval applyFunction env expr
    modify fun m => { m with completion := v }
    runStatements env rest
  | n :: rest => do
    exec applyFunction env n
    runStatements env rest

/-- Run a script without its timers. -/
def runMain (env : Env) (script : Node) : Eval Unit := do
  let body ← scriptBody script
  enterFunction env body
  runStatements env body

/-- The next task, taken from those that wait. -/
def nextTask? : Eval (Option Task) :=
  modifyGet fun m =>
    match m.pending.next? Task.isBefore with
    | none => (none, m)
    | some (t, rest) => (some t, { m with pending := rest })

/-- Call a task, and report its error. -/
def callTask (t : Task) : Eval (Option String) := guarded do
  let _ ← call applyFunction t.callee .undefined t.args

/-- Of two reports the first, unless it is missing or empty. -/
def firstError (first second : Option String) : Option String :=
  match first with
  | some "" | none => second
  | some e => some e

/-- Call the tasks that wait while the budget lasts, at most so many, and report the first error. -/
def runTasks : Nat → Option String → Eval (Option String)
  | 0, _ => fault .tooManyTasks
  | n + 1, error => do
    if (← get).budget ≤ 0 then return error
    match ← nextTask? with
    | none => return error
    | some t => runTasks n (firstError error (← callTask t))

/-- Declare some names. -/
def declareHosts (f : Frame) : List (String × Value) → Eval Unit
  | [] => return
  | (name, value) :: rest => do
    declare f name value false
    declareHosts f rest

/-- The environment of a script, in a host with some more names. -/
def hostEnv (hosts : Eval (List (String × Value))) : Eval Env := do
  let root ← rootEnv
  declareHosts root.frame (← standardHosts)
  declareHosts root.frame (← hosts)
  child root

/-- What is to be seen of a run in the end. -/
def outcome (error : Option String) : Eval Outcome := do
  let result ← toText (← get).completion
  return ⟨result, error, (← get).log.toList⟩

/-- Run a script in a host with some more names. -/
def runScript (script : Node) (hosts : Eval (List (String × Value))) : Eval Outcome := do
  let env ← hostEnv hosts
  let error ← guarded (runMain env script)
  outcome (← runTasks (← get).platform.tasks error)

end Eval

/-- How a run is set up. -/
structure RunOptions where
  /-- The number of statements that may be run. -/
  budget : Int := 100000
  /-- Where the random numbers start. -/
  seed : Int := 0
  /-- More names that the script finds, or other values for those it always finds. -/
  hosts : Eval (List (String × Value)) := pure []
  platform : Platform := {}

/-- A machine at the start of a run. -/
def RunOptions.machine (options : RunOptions) : Machine :=
  { budget := options.budget
    platform := options.platform
    seed := options.platform.random.start options.seed }

/-- Run a script. A run may end without an outcome, with the signal that nothing caught. -/
def runScript (script : Node) (options : RunOptions) : Except Signal Outcome :=
  match (Eval.runScript script options.hosts).run options.machine with
  | .ok outcome _ => .ok outcome
  | .error s _ => .error s

end ScopeLowering

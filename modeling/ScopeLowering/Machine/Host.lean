import ScopeLowering.Machine.Evaluation
import ScopeLowering.Text.Letter

/-!
# The host

The functions that a script finds ready: printing, timers, numbers, texts, errors, and the methods
of arrays and texts. A host function ignores `this`. Given more arguments than it knows what to do
with, it fails. Functions that a host brings along decide on that by themselves.
-/

namespace ScopeLowering

/-! ### Timers -/

/-- The machine with one more task. -/
def Machine.defer (m : Machine) (delay : Number) (callee : Value) (args : List Value) : Machine :=
  { m with
    pending := m.pending.insert Task.isBefore ⟨delay, m.deferred, callee, args⟩
    deferred := m.deferred + 1 }

/-! ### Host functions -/

/-- The first of some numbers that no later one beats. -/
def best (beats : Number → Number → Bool) : Number → List Number → Number
  | a, [] => a
  | a, b :: rest => best beats (if beats b a then b else a) rest

/-- Where a text first occurs in another, or `-1`. -/
def indexOfText (part : List Char) : List Char → Nat → Int
  | [], i => if part.isEmpty then i else -1
  | c :: cs, i => if part.isPrefixOf (c :: cs) then i else indexOfText part cs (i + 1)

/-- Where a value first occurs among some, or `-1`. -/
def indexOfValue (item : Value) (xs : List Value) : Int :=
  match xs.findIdx? (·.strictEquals item) with
  | some i => i
  | none => -1

namespace Eval

/-- At most one argument, or its default. -/
def oneArg (default : Value) : List Value → Eval Value
  | [] => return default
  | [v] => return v
  | _ => fault .wrongType

/-- No argument at all. -/
def noArgs : List Value → Eval Unit
  | [] => return
  | _ => fault .wrongType

/-- Call a function for each element of an array, with the element, its index and the array. -/
def callEach (apply : Apply) (fn array : Value) : Nat → List Value → Eval (List Value)
  | _, [] => return []
  | i, x :: rest => do
    let v ← call apply fn .undefined [x, .int i, array]
    return v :: (← callEach apply fn array (i + 1) rest)

/-- The texts of some values. -/
def toTexts (vs : List Value) : Eval (List String) := inspect fun m => vs.mapM m.textOf

/-- The text of a value, or another one for `undefined`. -/
def toTextOr (default : String) : Value → Eval String
  | .undefined => return default
  | v => toText v

/-- The numbers that some values count as. -/
def toNumbers (vs : List Value) : Eval (List Number) := inspect fun m => vs.mapM m.numberOf

/-- Call an array method. -/
def callArrayMethod (apply : Apply) (id : Nat) (args : List Value) :
    ArrayMethod → Eval Value
  | .push => do
    modifyArray id (· ++ args.toArray)
    return .int ((← get).array id).size
  | .pop => do
    noArgs args
    let last := ((← get).array id).back?
    modifyArray id (·.pop)
    return last.getD .undefined
  | .join => do
    let separator ← toTextOr "," (← oneArg .undefined args)
    return .text (← inspect fun m => m.join separator (m.array id))
  | .indexOf => do
    let item ← oneArg .undefined args
    return .int (indexOfValue item ((← get).array id).toList)
  | .forEach => do
    let fn ← oneArg .undefined args
    let _ ← callEach apply fn (.array id) 0 ((← get).array id).toList
    return .undefined
  | .map => do
    let fn ← oneArg .undefined args
    let vs ← callEach apply fn (.array id) 0 ((← get).array id).toList
    newArray vs.toArray

/-- The character at a place in a text, if the number is one. -/
def charAt (s : String) (place : Number) : Value :=
  if (Number.int 0).atMost place && place.less (.int s.length) then
    match place.floor with
    | .int i => .text (String.ofList (Text.charAt? s i.toNat).toList)
    | .float _ => .text ""
  else .text ""

/-- Call a text method. -/
def callTextMethod (s : String) (args : List Value) : TextMethod → Eval Value
  | .charAt => do return charAt s (← toNumber (← oneArg (.int 0) args))
  | .indexOf => do
    let part ← toText (← oneArg .undefined args)
    return .int (indexOfText part.toList s.toList 0)
  | .toUpperCase => do
    noArgs args
    return .text (Text.upper s)
  | .toLowerCase => do
    noArgs args
    return .text (Text.lower s)

/-- Defer a call. The answer is the number of tasks that wait. -/
def callSetTimeout (args : List Value) : Eval Value := do
  let delay ← toNumber (args[1]?.getD (.int 0))
  let delay := if delay.isNaN then .int 0 else delay
  modify (·.defer delay (args.headD .undefined) (args.drop 2))
  return .int (← get).pending.size

/-- Do what the code of a host asks for. -/
def perform (apply : Apply) : Request → Eval Value
  | .getProperty target key => getProperty target key
  | .setProperty target key value => do
    setProperty target key value
    return .undefined
  | .text v => do return .text (← toText v)
  | .newArray xs => newArray xs.toArray
  | .newRecord r => newRecord r
  | .call fn this args => call apply fn this args

/-- Run the code of a host. -/
def runHost (apply : Apply) : HostCode → Eval Value
  | .answer v => return v
  | .throws v => throw (.thrown v)
  | .fails f => fault f
  | .ask request next => do
    let answer ← catching (do return .ok (← perform apply request)) fun v => return .error v
    runHost apply (next answer)

/-- Call a host function. -/
def callNative (apply : Apply) (fn : Native) (args : List Value) : Eval Value := do
  match fn with
  | .log =>
    let line := " ".intercalate (← toTexts args)
    modify fun m => { m with log := m.log.push line }
    return .undefined
  | .setTimeout => callSetTimeout args
  | .floor => return .number (← toNumber (← oneArg .undefined args)).floor
  | .abs => return .number (← toNumber (← oneArg .undefined args)).magnitude
  | .max =>
    match ← toNumbers args with
    | [] => return .number (.infinity true)
    | a :: rest => return .number (best (fun b a => a.less b) a rest)
  | .min =>
    match ← toNumbers args with
    | [] => return .number (.infinity false)
    | a :: rest => return .number (best Number.less a rest)
  | .random =>
    noArgs args
    modify fun m => { m with seed := m.platform.random.next m.seed }
    let m ← get
    return .number (m.platform.random.value m.seed)
  | .toText => return .text (← toText (← oneArg (.text "") args))
  | .toNumber => return .number (← toNumber (← oneArg (.int 0) args))
  | .error name =>
    let message ← toTextOr "" (← oneArg .undefined args)
    newRecord (.error name message)
  | .arrayMethod method id => callArrayMethod apply id args method
  | .textMethod method s => callTextMethod s args method
  | .hasOwnProperty id =>
    let key ← toText (← oneArg .undefined args)
    return .bool (((← get).record id).contains (.text key))
  | .callMethod id => apply id (args.headD .undefined) (args.drop 1)
  | .constant v => return v
  | .foreign code => runHost apply (code args)

/-! ### What a script finds -/

/-- A record of host functions. -/
def newModule : List (String × Native) → Record → Eval Value
  | [], r => newRecord r
  | (name, fn) :: rest, r => do newModule rest (r.set (.text name) (← newNative fn))

/-- The standard names of the host and their values. -/
def standardHosts : Eval (List (String × Value)) := do
  return [
    ("undefined", .undefined),
    ("NaN", .number .nan),
    ("Infinity", .number (.infinity false)),
    ("console", ← newModule [("log", .log)] {}),
    ("setTimeout", ← newNative .setTimeout),
    ("Math", ← newModule
      [("floor", .floor), ("abs", .abs), ("max", .max), ("min", .min), ("random", .random)] {}),
    ("String", ← newNative .toText),
    ("Number", ← newNative .toNumber),
    ("Error", ← newNative (.error "Error")),
    ("TypeError", ← newNative (.error "TypeError")),
    ("ReferenceError", ← newNative (.error "ReferenceError"))]

end Eval

end ScopeLowering

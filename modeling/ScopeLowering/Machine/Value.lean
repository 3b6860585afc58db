import ScopeLowering.Machine.Number
import ScopeLowering.Machine.Queue
import ScopeLowering.Syntax.Basic

/-!
# Values, variables and the machine

What a running script computes with, and the state in which it does so.

## The model

Arrays, records, functions and variables live in the machine and are named by their numbers there,
so that two values are the same array exactly when they carry the same number. A frame holds the
variables of one scope. An environment is a chain of frames, the innermost first; it never changes,
only the variables in its frames do. Nothing is ever taken out of the machine.

What a run depends on besides its script is the `Platform`: limits, and a source of random numbers.
A host may bring functions of its own. Their code (`HostCode`) is a tree: it ends, or it asks the
machine for something and goes on with the answer. It keeps no state outside of the machine, and it
can take back exceptions of the script but no other signals.
-/

namespace ScopeLowering

/-! ### Values -/

/-- A value of a script. -/
inductive Value where
  | undefined
  | null
  | bool (b : Bool)
  | number (n : Number)
  | text (s : String)
  | array (id : Nat)
  /-- A plain object, or an error. -/
  | record (id : Nat)
  | function (id : Nat)
  | complex (re im : Float)
  /-- A list or an object that a document has in the place of a literal. -/
  | document (v : Json)
  /-- The content of a variable whose declaration has not run. -/
  | uninitialized
  deriving Inhabited

namespace Value

/-- A whole number. -/
def int (n : Int) : Value := number (.int n)

/-- The value a constant stands for. -/
def ofConstant : Constant → Value
  | .undefined => undefined
  | .uninitialized => uninitialized
  | .json .null => null
  | .json (.bool b) => bool b
  | .json (.int n) => number (.int n)
  | .json (.float x) => number (.float x)
  | .json (.str s) => text s
  | .json v => document v

/-- Is this nothing at all, in one of its two forms? -/
def isNullish : Value → Bool
  | undefined | null => true
  | _ => false

/-- Is this a number? -/
def isNumber : Value → Bool
  | number _ => true
  | _ => false

/-- Is this an array, a record or a function? -/
def isReference : Value → Bool
  | array _ | record _ | function _ => true
  | _ => false

end Value

/-! ### Records -/

/-- The name of a property. -/
inductive Key where
  | text (s : String)
  /-- A constant that is not a text, which a document gives for a name. -/
  | other (c : Constant)
  deriving Inhabited

namespace Key

/-- The name that a constant makes. -/
def ofConstant : Constant → Key
  | .json (.str s) => text s
  | c => other c

/-- The key as a value. -/
def toValue : Key → Value
  | text s => .text s
  | other c => .ofConstant c

/-- The number that a name stands for, where it does for one. -/
def number? : Key → Option Number
  | other (.json (.bool b)) => some (.int (if b then 1 else 0))
  | other (.json (.int n)) => some (.int n)
  | other (.json (.float x)) => some (.float x)
  | _ => none

/-- Do two keys name the same property? -/
def same (a b : Key) : Bool :=
  match a, b with
  | text s, text t => s == t
  | other .undefined, other .undefined | other .uninitialized, other .uninitialized
  | other (.json .null), other (.json .null) => true
  | _, _ =>
    match a.number?, b.number? with
    | some m, some n => m.equals n || (m.isNaN && n.isNaN)
    | _, _ => false

/-- Can a property have this name at all? -/
def isUsable : Key → Bool
  | other (.json v) => !v.isCompound
  | _ => true

/-- The key in a message. -/
def display : Key → String
  | text s => s
  | other (.json v) => v.plainText
  | other c => c.display

end Key

/-- A plain object or an error. -/
structure Record where
  isError : Bool := false
  /-- The properties, in the order in which they were first set. -/
  fields : Array (Key × Value) := #[]
  deriving Inhabited

namespace Record

/-- The value of a property. -/
def find? (r : Record) (key : Key) : Option Value :=
  (r.fields.find? (·.1.same key)).map (·.2)

/-- Is there such a property? -/
def contains (r : Record) (key : Key) : Bool := (r.find? key).isSome

/-- The record with a property set: in its old place, or at the end. -/
def set (r : Record) (key : Key) (value : Value) : Record :=
  match r.fields.findIdx? (·.1.same key) with
  | some i => { r with fields := r.fields.modify i fun (k, _) => (k, value) }
  | none => { r with fields := r.fields.push (key, value) }

/-- The record without a property. -/
def erase (r : Record) (key : Key) : Record :=
  { r with fields := r.fields.filter fun (k, _) => !k.same key }

/-- An error with a name and a message. -/
def error (name message : String) : Record :=
  ⟨true, #[(.text "name", .text name), (.text "message", .text message)]⟩

end Record

/-! ### Environments and functions -/

/-- One scope at run time. -/
structure Frame where
  /-- Where the machine keeps its variables. -/
  slots : Nat
  this : Value
  /-- The object whose properties pass for variables, in a `with` statement. -/
  subject : Option Value := none
  deriving Inhabited

/-- The frames that a piece of code sees. -/
structure Env where
  /-- The innermost frame. -/
  frame : Frame
  /-- The frames around it, from the inside out. -/
  outer : List Frame := []
  deriving Inhabited

namespace Env

/-- All frames, from the inside out. -/
def frames (env : Env) : List Frame := env.frame :: env.outer

/-- The outermost frame. -/
def root (env : Env) : Frame := env.outer.getLast?.getD env.frame

/-- The environment with one more frame. -/
def push (env : Env) (f : Frame) : Env := ⟨f, env.frames⟩

/-- The environment with its innermost frame replaced. -/
def withFrame (env : Env) (f : Frame) : Env := { env with frame := f }

end Env

/-- The code of a function. -/
structure Code where
  name : Option Ident
  params : List Ident
  body : List Node
  isArrow : Bool
  deriving Inhabited

/-- The methods of arrays. -/
inductive ArrayMethod where
  | push | pop | join | indexOf | forEach | map
  deriving Repr, DecidableEq, Inhabited

/-- The array method with this name. -/
def ArrayMethod.ofName? : String → Option ArrayMethod
  | "push" => some push
  | "pop" => some pop
  | "join" => some join
  | "indexOf" => some indexOf
  | "forEach" => some forEach
  | "map" => some map
  | _ => none

/-- The methods of texts. -/
inductive TextMethod where
  | charAt | indexOf | toUpperCase | toLowerCase
  deriving Repr, DecidableEq, Inhabited

/-- The text method with this name. -/
def TextMethod.ofName? : String → Option TextMethod
  | "charAt" => some charAt
  | "indexOf" => some indexOf
  | "toUpperCase" => some toUpperCase
  | "toLowerCase" => some toLowerCase
  | _ => none

/-- What the code of a host may ask of the machine. -/
inductive Request where
  | getProperty (target : Value) (key : Key)
  | setProperty (target : Value) (key : Key) (value : Value)
  | text (v : Value)
  | newArray (xs : List Value)
  | newRecord (r : Record)
  | call (fn this : Value) (args : List Value)
  deriving Inhabited

/-- The code of a function that the host brings along. -/
inductive HostCode where
  | answer (v : Value)
  /-- Throws an exception, which the script may catch. -/
  | throws (v : Value)
  | fails (f : Fault)
  /-- Goes on with the answer to a request, or with the exception that it threw. -/
  | ask (request : Request) (next : Except Value Value → HostCode)
  deriving Inhabited

/-- A function that the host supplies. -/
inductive Native where
  | log
  | setTimeout
  | floor
  | abs
  | max
  | min
  | random
  | toText
  | toNumber
  /-- Makes an error of this name. -/
  | error (name : String)
  | arrayMethod (method : ArrayMethod) (array : Nat)
  | textMethod (method : TextMethod) (s : String)
  | hasOwnProperty (record : Nat)
  /-- The `call` method of a function. -/
  | callMethod (function : Nat)
  /-- Answers with the same value every time. -/
  | constant (v : Value)
  /-- A function that the host brings along. -/
  | foreign (code : List Value → HostCode)
  deriving Inhabited

/-- Something that can be called. -/
inductive Procedure where
  /-- A function of the script, with the environment in which it was made. -/
  | closure (env : Env) (code : Code)
  | native (fn : Native)
  deriving Inhabited

/-! ### The platform -/

/-- A source of random numbers: its state for each seed, the state after a draw, and the number that
belongs to a state. -/
structure RandomSource where
  start : Int → Nat
  next : Nat → Nat
  value : Nat → Number

/-- Random numbers in `[0, 1)` by a linear congruence. -/
def RandomSource.congruential : RandomSource where
  start seed := seed.natAbs
  next state := (state * 6364136223846793005 + 1442695040888963407) % Decimal.twoPow 64
  value state := .float ((Decimal.quotient? (state / Decimal.twoPow 11) (Decimal.twoPow 53)).getD 0)

/-- What a run is made on. -/
structure Platform where
  /-- How deeply calls may be nested. -/
  depth : Nat := 200
  /-- How deeply nested values may be to have a text. -/
  nesting : Nat := 1000
  /-- The most elements by which an array can be extended at once. -/
  growth : Nat := Decimal.twoPow 28
  /-- The most tasks that one run calls. -/
  tasks : Nat := Decimal.twoPow 62
  random : RandomSource := .congruential

instance : Inhabited Platform := ⟨{}⟩

/-! ### The machine -/

/-- A variable. -/
structure Cell where
  value : Value
  isConst : Bool := false
  deriving Inhabited

/-- A call that waits for its time. -/
structure Task where
  delay : Number
  /-- How many tasks were deferred before this one. -/
  sequence : Nat
  callee : Value
  args : List Value
  deriving Inhabited

/-- Is a task called before another? The one with the shorter delay is, or else the one that was
deferred first. -/
def Task.isBefore (t u : Task) : Bool :=
  match t.delay.order? u.delay with
  | some .eq => t.sequence < u.sequence
  | o => o == some .lt

/-- The state of a run. -/
structure Machine where
  cells : Array Cell := #[]
  /-- For each frame, the names of its variables and where their cells are. -/
  frames : Array (List (String × Nat)) := #[]
  arrays : Array (Array Value) := #[]
  records : Array Record := #[]
  procedures : Array Procedure := #[]
  /-- The lines printed so far. -/
  log : Array String := #[]
  /-- The tasks that wait. -/
  pending : Queue Task := {}
  /-- How many tasks have been deferred. -/
  deferred : Nat := 0
  /-- How many more statements may be run. -/
  budget : Int := 100000
  platform : Platform := {}
  /-- The state of the random numbers. -/
  seed : Nat := 0
  /-- The value of the last expression statement of the script. -/
  completion : Value := .undefined
  deriving Inhabited

namespace Machine

/-- The elements of an array. -/
def array (m : Machine) (id : Nat) : Array Value := m.arrays[id]?.getD #[]

/-- The record with this number. -/
def record (m : Machine) (id : Nat) : Record := m.records[id]?.getD {}

/-- The procedure with this number. -/
def procedure (m : Machine) (id : Nat) : Procedure :=
  m.procedures[id]?.getD (.native (.constant .undefined))

/-- The cell with this number. -/
def cell (m : Machine) (id : Nat) : Cell := m.cells[id]?.getD ⟨.undefined, false⟩

/-- The names in a frame and the cells they stand for. -/
def slots (m : Machine) (f : Frame) : List (String × Nat) := m.frames[f.slots]?.getD []

end Machine

end ScopeLowering

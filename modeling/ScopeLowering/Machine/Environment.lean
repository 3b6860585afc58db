import ScopeLowering.Machine.Action

/-!
# Variables

Declaring, finding, reading and assigning variables in an environment.

A name stands for the first variable of that name from the inside out. In the frame of a `with`
statement the properties of its object pass for variables. Assigning to a name that stands for
nothing makes a variable in the outermost frame.
-/

namespace ScopeLowering

/-- What a name stands for. -/
inductive Slot where
  | cell (id : Nat)
  | property (record : Nat) (name : String)
  deriving Repr, DecidableEq, Inhabited

namespace Machine

/-- The cell of a variable that a frame itself declares. -/
def own? (m : Machine) (f : Frame) (name : String) : Option Nat :=
  ((m.slots f).find? (·.1 == name)).map (·.2)

/-- Does the frame itself declare this name? -/
def declares (m : Machine) (f : Frame) (name : String) : Bool := (m.own? f name).isSome

/-- What a name stands for in one frame. -/
def findHere (m : Machine) (name : String) (f : Frame) : Option Slot :=
  match f.subject with
  | none => (m.own? f name).map .cell
  | some (.record id) =>
    if (m.record id).contains (.text name) then some (.property id name) else none
  | some _ => none

/-- What a name stands for. -/
def find (m : Machine) (env : Env) (name : String) : Option Slot :=
  env.frames.findSome? (m.findHere name)

/-- What a slot holds, and whether it may not be assigned. -/
def content (m : Machine) : Slot → Cell
  | .cell id => m.cell id
  | .property id name => ⟨((m.record id).find? (.text name)).getD .undefined, false⟩

/-- The slots of a frame with a name bound to a cell: in its old place, or at the end. -/
def bindIn (name : String) (id : Nat) : List (String × Nat) → List (String × Nat)
  | [] => [(name, id)]
  | (k, i) :: rest => if k == name then (k, id) :: rest else (k, i) :: bindIn name id rest

/-- The machine with a new variable. -/
def declare (m : Machine) (f : Frame) (name : String) (cell : Cell) : Machine :=
  let id := m.cells.size
  { m with
    cells := m.cells.push cell
    frames := m.frames.modify f.slots (bindIn name id) }

/-- The machine with the content of a slot changed. -/
def assign (m : Machine) (slot : Slot) (value : Value) : Machine :=
  match slot with
  | .cell id => { m with cells := m.cells.modify id fun c => { c with value } }
  | .property id name =>
    { m with records := m.records.modify id (·.set (.text name) value) }

end Machine

namespace Eval

/-! ### Frames -/

/-- Room for the variables of a new frame. -/
def newSlots (slots : List (String × Nat)) : Eval Nat :=
  modifyGet fun m => (m.frames.size, { m with frames := m.frames.push slots })

/-- The outermost environment of a run. -/
def rootEnv : Eval Env := do return ⟨⟨← newSlots [], .undefined, none⟩, []⟩

/-- An environment with a new frame inside, in which `this` has the given value. -/
def childWith (env : Env) (this : Value) : Eval Env := do
  return env.push ⟨← newSlots [], this, none⟩

/-- An environment with a new frame inside. -/
def child (env : Env) : Eval Env := childWith env env.frame.this

/-- An environment in which the properties of an object pass for variables. -/
def childOf (env : Env) (subject : Value) : Eval Env := do
  return env.push ⟨← newSlots [], env.frame.this, some subject⟩

/-- Copies of some cells. -/
def copyCells : List (String × Nat) → Eval (List (String × Nat))
  | [] => pure []
  | (name, id) :: rest => do
    let twin ← modifyGet fun (m : Machine) =>
      (m.cells.size, { m with cells := m.cells.push (m.cell id) })
    return (name, twin) :: (← copyCells rest)

/-- The environment with its innermost frame replaced by one with the same variables in cells of
their own, as the next pass of a loop needs. -/
def copyFrame (env : Env) : Eval Env := do
  let slots ← copyCells ((← get).slots env.frame)
  return env.withFrame ⟨← newSlots slots, env.frame.this, none⟩

/-! ### Variables -/

/-- Make a variable in a frame. -/
def declare (f : Frame) (name : String) (value : Value) (isConst : Bool) : Eval Unit :=
  modify (·.declare f name ⟨value, isConst⟩)

/-- The complaint about a variable whose declaration has not run. -/
def throwDead {α : Type} (name : String) : Eval α :=
  raise "ReferenceError" ("Cannot access '" ++ name ++ "' before initialization")

/-- The value of a variable. -/
def read (env : Env) (name : String) : Eval Value := do
  let m ← get
  match m.find env name with
  | none => raise "ReferenceError" (name ++ " is not defined")
  | some slot =>
    match (m.content slot).value with
    | .uninitialized => throwDead name
    | v => return v

/-- Assign to a variable. -/
def write (env : Env) (name : String) (value : Value) : Eval Unit := do
  let m ← get
  match m.find env name with
  | none => declare env.root name value false
  | some slot =>
    let c := m.content slot
    match c.value with
    | .uninitialized => throwDead name
    | _ =>
      if c.isConst then raise "TypeError" "Assignment to constant variable."
      else modify (·.assign slot value)

end Eval

end ScopeLowering

import ScopeLowering.Machine.Conversion
import ScopeLowering.Text.Slice

/-!
# Properties

Reading and setting the properties of values, and going through their names and items.
-/

namespace ScopeLowering

/-- The array extended with `undefined` up to so many elements. -/
def fillUp (xs : Array Value) (size : Nat) : Array Value :=
  xs ++ Array.replicate (size - xs.size) .undefined

namespace Key

/-- The index that a key stands for in an array or a text. -/
def index? : Key → Except Fault (Option Nat)
  | text s =>
    if Text.isDigits s then
      match Decimal.readInt? s with
      | some n => .ok (some n.toNat)
      | none => .error .badNumeral
    else .ok none
  | other _ => .error .missingPart

/-- Is the key this text? -/
def isText (k : Key) (s : String) : Bool :=
  match k with
  | text t => t == s
  | other _ => false

end Key

namespace Eval

/-- Does a record have this property? -/
def hasProperty (id : Nat) (key : Key) : Eval Bool := do
  if key.isUsable then return ((← get).record id).contains key else fault .wrongType

/-- A method of the host, made for one use. -/
def newNative (fn : Native) : Eval Value := newFunction (.native fn)

/-- A property of an array or a text other than its size: an item or a method. -/
def indexed (key : Key) (item : Nat → Option Value) (method : String → Option Native) :
    Eval Value := do
  match ← compute key.index? with
  | some i => return (item i).getD .undefined
  | none =>
    match key with
    | .text s =>
      match method s with
      | some fn => newNative fn
      | none => return .undefined
    | .other _ => return .undefined

/-- The value of a property. -/
def getProperty (target : Value) (key : Key) : Eval Value := do
  match target with
  | .undefined | .null =>
    let t ← toText target
    raise "TypeError"
      ("Cannot read properties of " ++ t ++ " (reading '" ++ key.display ++ "')")
  | .array id =>
    let m ← get
    let xs := m.array id
    if key.isText "length" then return .int xs.size
    else indexed key (xs[·]?) fun name => (ArrayMethod.ofName? name).map (.arrayMethod · id)
  | .text s =>
    if key.isText "length" then return .int s.length
    else
      indexed key (fun i => (Text.charAt? s i).map fun c => .text (String.ofList [c])) fun name =>
        (TextMethod.ofName? name).map (.textMethod · s)
  | .record id =>
    if ← hasProperty id key then return (((← get).record id).find? key).getD .undefined
    else if key.isText "hasOwnProperty" then newNative (.hasOwnProperty id)
    else return .undefined
  | .function id => if key.isText "call" then newNative (.callMethod id) else return .undefined
  | _ => return .undefined

/-- Extend an array to so many elements. The number of missing ones must fit in 64 bits, even if it
is below zero. -/
def growArray (id : Nat) (size : Int) : Eval Unit := do
  let m ← get
  let missing : Int := size - (m.array id).size
  if missing ≥ Decimal.twoPow 63 || missing < -(Decimal.twoPow 63 : Int) then fault .tooLarge
  else if missing > m.platform.growth then fault .noMemory
  else modifyArray id (fillUp · size.toNat)

/-- A number without its fraction, if it has a whole part. -/
def wholePart : Number → Eval Int
  | .int n => return n
  | .float x =>
    match Decimal.truncate? x with
    | some n => return n
    | none => fault (if (Number.float x).isNaN then .badNumeral else .tooLarge)

/-- Set the number of elements of an array. A number below zero counts from the end. -/
def setLength (id : Nat) (value : Value) : Eval Unit := do
  let size ← wholePart (← toNumber value)
  modifyArray id fun xs => xs.extract 0 (Text.clampOffset xs.size size)
  growArray id size

/-- Set a property. Values without properties ignore it. -/
def setProperty (target : Value) (key : Key) (value : Value) : Eval Unit := do
  match target with
  | .undefined | .null =>
    let t ← toText target
    raise "TypeError"
      ("Cannot set properties of " ++ t ++ " (setting '" ++ key.display ++ "')")
  | .array id =>
    match ← compute key.index? with
    | some i =>
      growArray id (i + 1)
      modifyArray id (·.setIfInBounds i value)
    | none => if key.isText "length" then setLength id value
  | .record id =>
    if key.isUsable then modifyRecord id (·.set key value) else fault .wrongType
  | _ => return

/-- Remove a property of a record. -/
def deleteProperty (id : Nat) (key : Key) : Eval Unit :=
  if key.isUsable then modifyRecord id (·.erase key) else fault .wrongType

end Eval

/-- The texts of the numbers below `n`. -/
def indexTexts (n : Nat) : List Value := (List.range n).map fun i => .text (toString i)

/-- The names of a value's properties. -/
def Machine.keys (m : Machine) : Value → List Value
  | .array id => indexTexts (m.array id).size
  | .text s => indexTexts s.length
  | .record id => (m.record id).fields.toList.map (·.1.toValue)
  | _ => []

/-- The characters of a text, each a text. -/
def characters (s : String) : List Value := s.toList.map fun c => .text (String.ofList [c])

end ScopeLowering

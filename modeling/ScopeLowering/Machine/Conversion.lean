import ScopeLowering.Machine.Action

/-!
# Conversions and equality

How a value counts as a truth value, a number, a word or a text, and when two values are equal.

## The model

The text of an array or an error takes the texts of what it holds, and an array may hold itself, so
the nesting that is followed is bounded by the platform; beyond the bound, the conversion gives the
signal `tooDeep`.
-/

namespace ScopeLowering

namespace Value

/-- Does the value count as true? -/
def truthy : Value → Bool
  | undefined | null => false
  | bool b => b
  | number n => !(n.isZero || n.isNaN)
  | text s => s != ""
  | _ => true

/-- The name of a value's type. -/
def typeName : Value → String
  | undefined => "undefined"
  | bool _ => "boolean"
  | number _ => "number"
  | text _ => "string"
  | function _ => "function"
  | _ => "object"

end Value

/-! ### Documents -/

namespace Json

mutual

/-- Are two documents equal? Numbers and truth values are compared by their value, and the fields of
objects in any order. -/
def same : Json → Json → Bool
  | null, null => true
  | str s, str t => s == t
  | arr xs, arr ys => sameItems xs ys
  | obj fs, obj gs => fs.length == gs.length && sameFields gs fs
  | bool a, bool b => a == b
  | bool a, int n | int n, bool a => n == (if a then 1 else 0)
  | bool a, float x | float x, bool a => (Number.int (if a then 1 else 0)).equals (.float x)
  | int m, int n => m == n
  | int n, float x | float x, int n => (Number.int n).equals (.float x)
  | float x, float y => x.toBits == y.toBits || (Number.float x).equals (.float y)
  | _, _ => false

/-- Are the items of two lists equal one by one? -/
def sameItems : List Json → List Json → Bool
  | [], [] => true
  | x :: xs, y :: ys => same x y && sameItems xs ys
  | _, _ => false

/-- Does every field of the second list have an equal field of the same name in the first? -/
def sameFields (others : List (String × Json)) : List (String × Json) → Bool
  | [] => true
  | (k, v) :: rest =>
    (match find? k others with
      | some w => same v w
      | none => false) && sameFields others rest

end

end Json

/-! ### Text and number -/

/-- The text of a function. -/
def Procedure.text : Procedure → String
  | closure _ code =>
    "function " ++ (code.name.map (·.text)).getD "" ++ "() \x7b [code] \x7d"
  | native _ => "function () \x7b [native code] \x7d"

/-- The text of a complex number. -/
def complexText (re im : Float) : String :=
  let imaginary := Decimal.bare.render im
  if re.toBits == 0 then imaginary ++ "j"
  else
    let sign := if Decimal.isNegative im && !Decimal.isNaN im then "" else "+"
    "(" ++ Decimal.bare.render re ++ sign ++ imaginary ++ "j)"

/-- The text of an error, by the texts of what it holds. -/
def errorText (text : Value → Except Signal String) (r : Record) : Except Signal String := do
  let message ← text ((r.find? (.text "message")).getD (.text ""))
  let name ← text ((r.find? (.text "name")).getD (.text "Error"))
  return name ++ (if message.isEmpty then "" else ": " ++ message)

/-- The texts of some values, with a text between each two; nothing has an empty one. -/
def joinTexts (text : Value → Except Signal String) (separator : String) (xs : Array Value) :
    Except Signal String := do
  let texts ← xs.toList.mapM fun x => if x.isNullish then .ok "" else text x
  return separator.intercalate texts

namespace Machine

/-- The text of a value, nested at most so deeply. -/
def textWithin (m : Machine) : Nat → Value → Except Signal String
  | 0, _ => .error .tooDeep
  | depth + 1, v =>
    match v with
    | .text s => .ok s
    | .undefined => .ok "undefined"
    | .null => .ok "null"
    | .bool b => .ok (if b then "true" else "false")
    | .number n => n.text.mapError .fault
    | .record id =>
      let r := m.record id
      if r.isError then errorText (textWithin m depth) r else .ok "[object Object]"
    | .array id => joinTexts (textWithin m depth) "," (m.array id)
    | .function id => .ok (m.procedure id).text
    | .complex re im => .ok (complexText re im)
    | .document v => .ok v.display
    | .uninitialized => .ok "<uninitialized>"

/-- The text of a value. -/
def textOf (m : Machine) (v : Value) : Except Signal String :=
  m.textWithin m.platform.nesting v

/-- The texts of some values, with a text between each two. -/
def join (m : Machine) (separator : String) (xs : Array Value) : Except Signal String :=
  joinTexts m.textOf separator xs

/-- The number that a value counts as. -/
def numberOf (m : Machine) : Value → Except Signal Number
  | .bool b => .ok (.int (if b then 1 else 0))
  | .number n => .ok n
  | .null => .ok (.int 0)
  | .text s => .ok (.ofText s)
  | .array id => do return .ofText (← m.textOf (.array id))
  | _ => .ok .nan

/-- The number of 32 bits that a value counts as. -/
def wordOf (m : Machine) (v : Value) : Except Signal Int :=
  return (← m.numberOf v).toWord

/-- A value without its structure: arrays, records and functions become their texts. -/
def primitiveOf (m : Machine) (v : Value) : Except Signal Value :=
  if v.isReference then return .text (← m.textOf v) else .ok v

end Machine

/-! ### Equality -/

/-- Equality without conversion. Arrays, records and functions equal only themselves. -/
def Value.strictEquals : Value → Value → Bool
  | number a, number b => a.equals b
  | array a, array b => a == b
  | record a, record b => a == b
  | function a, function b => a == b
  | undefined, undefined | null, null | uninitialized, uninitialized => true
  | bool a, bool b => a == b
  | text s, text t => s == t
  | complex r i, complex r' i' =>
    (Number.float r).equals (.float r') && (Number.float i).equals (.float i')
  | document v, document w => v.same w
  | _, _ => false

/-- How often a value can be converted before it is compared. -/
def Value.conversions : Value → Nat
  | bool _ | array _ | record _ => 1
  | _ => 0

/-- Equality with conversion. Truth values count as numbers, and arrays and records as their
texts. -/
def Machine.looseEquals (m : Machine) (a b : Value) : Except Signal Bool :=
  if a.isNullish || b.isNullish then .ok (a.isNullish && b.isNullish)
  else if a.typeName == b.typeName && !(a.isNumber || b.isNumber) then .ok (a.strictEquals b)
  else
    match a, b with
    | .bool x, b => m.looseEquals (.int x.toInt) b
    | a, .bool y => m.looseEquals a (.int y.toInt)
    | .number x, .number y => .ok (x.equals y)
    | .number x, .text t => .ok (x.equals (.ofText t))
    | .text s, .number y => .ok ((Number.ofText s).equals y)
    | .array id, b => do m.looseEquals (.text (← m.textOf (.array id))) b
    | .record id, b => do m.looseEquals (.text (← m.textOf (.record id))) b
    | a, .array id => do m.looseEquals a (.text (← m.textOf (.array id)))
    | a, .record id => do m.looseEquals a (.text (← m.textOf (.record id)))
    | _, _ => .ok false
termination_by a.conversions + b.conversions
decreasing_by all_goals simp [Value.conversions, Value.int]

namespace Eval

/-- The text of a value. -/
def toText (v : Value) : Eval String := inspect (·.textOf v)

/-- The number that a value counts as. -/
def toNumber (v : Value) : Eval Number := inspect (·.numberOf v)

end Eval

end ScopeLowering

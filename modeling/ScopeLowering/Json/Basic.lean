import ScopeLowering.Decimal.Double

/-!
# JSON values

The documents that scripts arrive in. Whole numbers and doubles are kept apart, and the fields of an
object keep the order in which their names were first written.
-/

namespace ScopeLowering

/-- A JSON value. -/
inductive Json where
  | null
  | bool (b : Bool)
  | int (n : Int)
  | float (x : Float)
  | str (s : String)
  | arr (items : List Json)
  | obj (fields : List (String × Json))
  deriving Inhabited

namespace Json

/-! ### Fields -/

/-- The value of a field in a list of fields. -/
def find? (name : String) : List (String × Json) → Option Json
  | [] => none
  | (k, v) :: rest => if k == name then some v else find? name rest

/-- The fields with one of them set: in its old place, or at the end. -/
def setField (name : String) (value : Json) : List (String × Json) → List (String × Json)
  | [] => [(name, value)]
  | (k, v) :: rest =>
    if k == name then (k, value) :: rest else (k, v) :: setField name value rest

/-- The fields of an object. -/
def fields? : Json → Option (List (String × Json))
  | obj fields => some fields
  | _ => none

/-! ### Readings of a value -/

/-- The text of a text. -/
def text? : Json → Option String
  | str s => some s
  | _ => none

/-- Is this value the given text? -/
def isText (s : String) : Json → Bool
  | str t => t == s
  | _ => false

/-- Does the value count as yes? Nothing, zero and what is empty do not. -/
def truthy : Json → Bool
  | null => false
  | bool b => b
  | int n => n != 0
  | float x =>
    Decimal.parts x != .finite false 0 (-1074) && Decimal.parts x != .finite true 0 (-1074)
  | str s => !s.isEmpty
  | arr items => !items.isEmpty
  | obj fields => !fields.isEmpty

/-- Is this a list or an object? -/
def isCompound : Json → Bool
  | arr _ | obj _ => true
  | _ => false

/-- What one meets going through a value: the items of a list, the characters of a text, the names
of an object's fields. Nothing else can be gone through. -/
def members? : Json → Option (List Json)
  | arr items => some items
  | str s => some (s.toList.map fun c => str (String.ofList [c]))
  | obj fields => some (fields.map fun (k, _) => str k)
  | _ => none

mutual

/-- The nesting depth of a value. -/
def height : Json → Nat
  | arr items => heightList items + 1
  | obj fields => heightFields fields + 1
  | _ => 1

/-- The greatest depth among some values. -/
def heightList : List Json → Nat
  | [] => 0
  | v :: rest => max (height v) (heightList rest)

/-- The greatest depth among the values of some fields. -/
def heightFields : List (String × Json) → Nat
  | [] => 0
  | (_, v) :: rest => max (height v) (heightFields rest)

end

end Json

end ScopeLowering

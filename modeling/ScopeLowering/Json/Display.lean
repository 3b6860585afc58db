import ScopeLowering.Decimal.Layout
import ScopeLowering.Json.Basic
import ScopeLowering.Text.Quoted

/-!
# JSON values in messages

How a value is shown to a reader: `None`, `True` and `False` for the constants, texts in quotes,
lists in brackets and objects in braces.
-/

namespace ScopeLowering.Json

mutual

/-- The text that shows a value. -/
def display : Json → String
  | null => "None"
  | bool b => if b then "True" else "False"
  | int n => toString n
  | float x => Decimal.plain.render x
  | str s => Text.quoted s
  | arr items => "[" ++ ", ".intercalate (displayList items) ++ "]"
  | obj fields => "\x7b" ++ ", ".intercalate (displayFields fields) ++ "\x7d"

/-- The texts that show some values. -/
def displayList : List Json → List String
  | [] => []
  | v :: rest => display v :: displayList rest

/-- The texts that show some fields. -/
def displayFields : List (String × Json) → List String
  | [] => []
  | (k, v) :: rest => (Text.quoted k ++ ": " ++ display v) :: displayFields rest

end

/-- The text of a value that stands on its own: texts lose their quotes. -/
def plainText : Json → String
  | str s => s
  | v => display v

end ScopeLowering.Json

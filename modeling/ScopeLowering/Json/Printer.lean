import ScopeLowering.Decimal.Layout
import ScopeLowering.Json.Basic
import ScopeLowering.Text.Quoted

/-!
# Writing JSON

The JSON text of a value, in ASCII: other characters are written as escapes, those beyond the basic
plane as two. A blank follows every comma and colon.
-/

namespace ScopeLowering.Json

/-- An escape with four hexadecimal digits. -/
def unitEscape (n : Nat) : List Char := '\\' :: 'u' :: Text.hex 4 n

/-- One character of a JSON text. -/
def escapeChar (c : Char) : List Char :=
  if c == '"' then ['\\', '"']
  else if c == '\\' then ['\\', '\\']
  else if c == '\n' then ['\\', 'n']
  else if c == '\r' then ['\\', 'r']
  else if c == '\t' then ['\\', 't']
  else if c == '\x08' then ['\\', 'b']
  else if c == '\x0c' then ['\\', 'f']
  else if 0x20 ≤ c.toNat ∧ c.toNat < 0x7f then [c]
  else if c.toNat < 0x10000 then unitEscape c.toNat
  else
    let n := c.toNat - 0x10000
    unitEscape (0xd800 + n / 0x400) ++ unitEscape (0xdc00 + n % 0x400)

/-- A text in double quotes. -/
def quote (s : String) : String :=
  "\"" ++ String.ofList (s.toList.flatMap escapeChar) ++ "\""

/-- The JSON spelling of a double. -/
def numberText (x : Float) : String :=
  match Decimal.parts x with
  | .nan => "NaN"
  | .infinite negative => if negative then "-Infinity" else "Infinity"
  | .finite .. => Decimal.plain.render x

mutual

/-- The JSON text of a value. -/
def render : Json → String
  | null => "null"
  | bool b => if b then "true" else "false"
  | int n => toString n
  | float x => numberText x
  | str s => quote s
  | arr items => "[" ++ ", ".intercalate (renderList items) ++ "]"
  | obj fields => "\x7b" ++ ", ".intercalate (renderFields fields) ++ "\x7d"

/-- The JSON texts of some values. -/
def renderList : List Json → List String
  | [] => []
  | v :: rest => render v :: renderList rest

/-- The JSON texts of some fields. -/
def renderFields : List (String × Json) → List String
  | [] => []
  | (k, v) :: rest => (quote k ++ ": " ++ render v) :: renderFields rest

end

end ScopeLowering.Json

import ScopeLowering.Decimal.Reading
import ScopeLowering.Json.Basic

/-!
# Reading JSON

A reader for JSON texts that says exactly where and why a text is refused. Beyond the standard it
takes `NaN`, `Infinity` and `-Infinity` as numbers. Of a repeated field the last value is kept, in
the place of the first.

## The model

The reader works on the characters that are left. A refusal carries how many were left at the
offending one, from which `SyntaxError.offset` is computed once at the end. Reading a value uses one
unit of fuel for each level of nesting, and a text has fewer levels than characters.
-/

namespace ScopeLowering.Json

/-- Why a text is not JSON. -/
inductive Complaint where
  | expectedValue
  | expectedName
  | expectedColon
  | expectedComma
  | extraData
  | unterminated
  | controlCharacter
  | badEscape
  | badUnicodeEscape
  | byteOrderMark
  /-- A whole number with more digits than are converted. -/
  | tooManyDigits
  deriving Repr, DecidableEq

/-- The wording of a complaint. -/
def Complaint.text : Complaint → String
  | expectedValue => "Expecting value"
  | expectedName => "Expecting property name enclosed in double quotes"
  | expectedColon => "Expecting ':' delimiter"
  | expectedComma => "Expecting ',' delimiter"
  | extraData => "Extra data"
  | unterminated => "Unterminated string starting at"
  | controlCharacter => "Invalid control character at"
  | badEscape => "Invalid \\escape"
  | badUnicodeEscape => "Invalid \\uXXXX escape"
  | byteOrderMark => "Unexpected UTF-8 BOM (decode using utf-8-sig)"
  | tooManyDigits => "Exceeds the limit for integer string conversion"

/-- A complaint and the offset of the character it is about. -/
structure SyntaxError where
  complaint : Complaint
  offset : Nat
  deriving Repr, DecidableEq

/-- A complaint and the number of characters left at the one it is about. -/
abbrev Refusal := Complaint × Nat

/-- What a reader makes of the characters at hand: a result and the characters after it. -/
abbrev Reading (α : Type) := Except Refusal (α × List Char)

/-! ### Blanks, words and numbers -/

/-- The characters after any white space. -/
def skipBlanks (cs : List Char) : List Char :=
  cs.dropWhile fun c => c == ' ' || c == '\t' || c == '\n' || c == '\r'

/-- The characters after a given word, if it comes first. -/
def after? : List Char → List Char → Option (List Char)
  | [], cs => some cs
  | w :: ws, c :: cs => if w == c then after? ws cs else none
  | _ :: _, [] => none

/-- An ASCII digit's value. -/
def digit? (c : Char) : Option Nat :=
  if '0' ≤ c ∧ c ≤ '9' then some (c.toNat - '0'.toNat) else none

/-- A leading run of ASCII digits. -/
def digitsOf : List Char → List Nat × List Char
  | [] => ([], [])
  | c :: cs =>
    match digit? c with
    | some d =>
      let (ds, rest) := digitsOf cs
      (d :: ds, rest)
    | none => ([], c :: cs)

/-- The digits before the point: a zero alone, or a run that starts with another digit. -/
def wholePart : List Char → List Nat × List Char
  | '0' :: cs => ([0], cs)
  | cs => digitsOf cs

/-- The digits after a point, if a digit follows it. -/
def fractionPart : List Char → Option (List Nat) × List Char
  | '.' :: cs =>
    match digitsOf cs with
    | ([], _) => (none, '.' :: cs)
    | (ds, rest) => (some ds, rest)
  | cs => (none, cs)

/-- The value of an exponent, if a digit follows its mark. -/
def exponentOf? : List Char → Option Int × List Char
  | [] => (none, [])
  | c :: cs =>
    if c == 'e' || c == 'E' then
      let (negative, body) := Decimal.signOf cs
      match digitsOf body with
      | ([], _) => (none, c :: cs)
      | (ds, rest) =>
        (some (if negative then -(Decimal.ofDigits ds : Int) else Decimal.ofDigits ds), rest)
    else (none, c :: cs)

/-- A number. Without fraction and exponent it is whole. -/
def number (cs : List Char) : Reading Json :=
  let (negative, body) :=
    match cs with
    | '-' :: rest => (true, rest)
    | _ => (false, cs)
  match wholePart body with
  | ([], _) => .error (.expectedValue, cs.length)
  | (whole, rest) =>
    let (fraction, rest) := fractionPart rest
    let (exponent, rest) := exponentOf? rest
    match fraction, exponent with
    | none, none =>
      if whole.length > Decimal.maxDigits then .error (.tooManyDigits, cs.length)
      else
        let n : Int := Decimal.ofDigits whole
        .ok (int (if negative then -n else n), rest)
    | _, _ =>
      let tail := fraction.getD []
      let e := exponent.getD 0 - tail.length
      .ok (float (Decimal.ofDecimal negative (Decimal.ofDigits (whole ++ tail)) e), rest)

/-! ### Texts -/

/-- The value of a hexadecimal digit. -/
def hexDigit? (c : Char) : Option Nat :=
  if '0' ≤ c ∧ c ≤ '9' then some (c.toNat - '0'.toNat)
  else if 'a' ≤ c ∧ c ≤ 'f' then some (c.toNat - 'a'.toNat + 10)
  else if 'A' ≤ c ∧ c ≤ 'F' then some (c.toNat - 'A'.toNat + 10)
  else none

/-- The number that four hexadecimal digits spell. -/
def hexUnit? : List Char → Option Nat
  | [a, b, c, d] => do
    let a ← hexDigit? a
    let b ← hexDigit? b
    let c ← hexDigit? c
    let d ← hexDigit? d
    pure (((a * 16 + b) * 16 + c) * 16 + d)
  | _ => none

/-- The character a one-letter escape stands for. -/
def simpleEscape? (c : Char) : Option Char :=
  if c == '"' || c == '\\' || c == '/' then some c
  else if c == 'b' then some '\x08'
  else if c == 'f' then some '\x0c'
  else if c == 'n' then some '\n'
  else if c == 'r' then some '\r'
  else if c == 't' then some '\t'
  else none

/-- The character of an escape with four digits, given what follows its `u`. Two escapes that
together name a character beyond the basic plane are taken as one. Half of such a pair by itself is
no character, so that its number cannot be kept: it is read as the character with number 0. A text
has to go on after the digits. -/
def unicodeEscape (cs : List Char) : Reading Char :=
  match hexUnit? (cs.take 4), cs.drop 4 with
  | _, [] => .error (.badUnicodeEscape, cs.length + 1)
  | none, _ => .error (.badUnicodeEscape, cs.length + 1)
  | some unit, rest =>
    match rest with
    | '\\' :: 'u' :: more =>
      if 0xd800 ≤ unit ∧ unit < 0xdc00 ∧ 5 ≤ more.length then
        match hexUnit? (more.take 4) with
        | none => .error (.badUnicodeEscape, more.length + 1)
        | some low =>
          if 0xdc00 ≤ low ∧ low < 0xe000 then
            .ok (Char.ofNat (0x10000 + (unit - 0xd800) * 0x400 + (low - 0xdc00)), more.drop 4)
          else .ok (Char.ofNat unit, rest)
      else .ok (Char.ofNat unit, rest)
    | _ => .ok (Char.ofNat unit, rest)

/-- The rest of a text whose opening quote had `start` characters left, given what has been read of
it, the last character first. -/
def stringTail (start : Nat) : Nat → List Char → List Char → Reading String
  | 0, _, _ => .error (.unterminated, start)
  | _ + 1, _, [] => .error (.unterminated, start)
  | fuel + 1, done, c :: cs =>
    if c == '"' then .ok (String.ofList done.reverse, cs)
    else if c == '\\' then
      match cs with
      | [] => .error (.unterminated, start)
      | 'u' :: digits =>
        match unicodeEscape digits with
        | .error refusal => .error refusal
        | .ok (ch, rest) => stringTail start fuel (ch :: done) rest
      | e :: rest =>
        match simpleEscape? e with
        | some ch => stringTail start fuel (ch :: done) rest
        | none => .error (.badEscape, cs.length + 1)
    else if c.toNat < 0x20 then .error (.controlCharacter, cs.length + 1)
    else stringTail start fuel (c :: done) cs

/-- A text, given what follows its opening quote. -/
def string (cs : List Char) : Reading String :=
  stringTail (cs.length + 1) (cs.length + 1) [] cs

/-! ### Values -/

/-- The words that stand for values. -/
def words : List (String × Json) :=
  [("null", null), ("true", bool true), ("false", bool false), ("NaN", float Decimal.nan),
   ("Infinity", float (Decimal.infinity false)), ("-Infinity", float (Decimal.infinity true))]

/-- A word that stands for a value, if one comes first. -/
def word? (cs : List Char) : Option (Json × List Char) :=
  words.findSome? fun (w, v) => (after? w.toList cs).map fun rest => (v, rest)

/-- The items of a list after the first ones, given a reader for values. -/
def itemsTail (value : List Char → Reading Json) :
    Nat → List Json → List Char → Reading (List Json)
  | 0, _, cs => .error (.expectedValue, cs.length)
  | fuel + 1, done, cs =>
    match value cs with
    | .error refusal => .error refusal
    | .ok (v, rest) =>
      match skipBlanks rest with
      | ']' :: rest => .ok ((v :: done).reverse, rest)
      | ',' :: rest => itemsTail value fuel (v :: done) (skipBlanks rest)
      | rest => .error (.expectedComma, rest.length)

/-- The fields of an object after the first ones, given a reader for values. -/
def fieldsTail (value : List Char → Reading Json) :
    Nat → List (String × Json) → List Char → Reading (List (String × Json))
  | 0, _, cs => .error (.expectedName, cs.length)
  | fuel + 1, done, cs =>
    match cs with
    | '"' :: rest =>
      match string rest with
      | .error refusal => .error refusal
      | .ok (name, rest) =>
        match skipBlanks rest with
        | ':' :: rest =>
          match value (skipBlanks rest) with
          | .error refusal => .error refusal
          | .ok (v, rest) =>
            let done := setField name v done
            match skipBlanks rest with
            | '\x7d' :: rest => .ok (done, rest)
            | ',' :: rest => fieldsTail value fuel done (skipBlanks rest)
            | rest => .error (.expectedComma, rest.length)
        | rest => .error (.expectedColon, rest.length)
    | rest => .error (.expectedName, rest.length)

/-- A value. -/
def value : Nat → List Char → Reading Json
  | 0, cs => .error (.expectedValue, cs.length)
  | fuel + 1, cs =>
    match cs with
    | [] => .error (.expectedValue, 0)
    | '"' :: rest => (string rest).map fun (s, rest) => (str s, rest)
    | '\x7b' :: rest =>
      match skipBlanks rest with
      | '\x7d' :: rest => .ok (obj [], rest)
      | rest => (fieldsTail (value fuel) (rest.length + 1) [] rest).map fun (fs, r) => (obj fs, r)
    | '[' :: rest =>
      match skipBlanks rest with
      | ']' :: rest => .ok (arr [], rest)
      | rest => (itemsTail (value fuel) (rest.length + 1) [] rest).map fun (vs, r) => (arr vs, r)
    | cs =>
      match word? cs with
      | some found => .ok found
      | none => number cs

/-- The value a text spells. -/
def parse (text : String) : Except SyntaxError Json :=
  let cs := text.toList
  let located (refusal : Refusal) : SyntaxError := ⟨refusal.1, cs.length - refusal.2⟩
  if cs.head? == some '\ufeff' then .error ⟨.byteOrderMark, 0⟩
  else
    match value (cs.length + 1) (skipBlanks cs) with
    | .error refusal => .error (located refusal)
    | .ok (v, rest) =>
      match skipBlanks rest with
      | [] => .ok v
      | rest => .error (located (.extraData, rest.length))

/-- The message of a refusal: the complaint, and where in the text it arises. -/
def SyntaxError.message (text : String) (e : SyntaxError) : String :=
  let before := text.toList.take e.offset
  let row := before.count '\n' + 1
  let column := (before.reverse.takeWhile (· != '\n')).length + 1
  e.complaint.text ++ ": line " ++ toString row ++ " column " ++ toString column ++
    " (char " ++ toString e.offset ++ ")"

end ScopeLowering.Json

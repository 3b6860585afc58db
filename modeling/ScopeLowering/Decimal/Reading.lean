import ScopeLowering.Decimal.Double
import ScopeLowering.Text.Blank
import ScopeLowering.Text.Digit

/-!
# Reading numbers from text

Whole numbers and doubles as they may be written in a text: surrounded by white space, with a sign,
with single underscores between digits, and with the decimal digits of any script. Doubles may also
be spelled `inf`, `infinity` or `nan` in any case.
-/

namespace ScopeLowering.Decimal

/-- The longest whole number, in digits, that is converted from or to text. -/
def maxDigits : Nat := 4300

/-- The number with these digits, the most significant first. -/
def ofDigits (ds : List Nat) : Nat := ds.foldl (fun n d => 10 * n + d) 0

/-- The double nearest to `± m · 10^e`, an infinity when that is too large. -/
def ofDecimal (negative : Bool) (m : Nat) (e : Int) : Float :=
  let magnitude : Int := (Nat.toDigits 10 m).length + e
  if m == 0 then assemble negative 0 (-1074)
  else if magnitude > 310 then infinity negative
  else if magnitude < -330 then assemble negative 0 (-1074)
  else
    let found :=
      if e ≥ 0 then nearest? negative (m * tenPow e.toNat) 1
      else nearest? negative m (tenPow (-e).toNat)
    found.getD (infinity negative)

/-- The digits that continue a run, a single underscore allowed before each of them. -/
def moreDigits : List Char → List Nat × List Char
  | [] => ([], [])
  | [c] =>
    match Text.decimalDigit? c with
    | some d => ([d], [])
    | none => ([], [c])
  | c :: c' :: rest =>
    match Text.decimalDigit? c, Text.decimalDigit? c' with
    | some d, _ =>
      let (ds, after) := moreDigits (c' :: rest)
      (d :: ds, after)
    | none, some d =>
      if c == '_' then
        let (ds, after) := moreDigits rest
        (d :: ds, after)
      else ([], c :: c' :: rest)
    | none, none => ([], c :: c' :: rest)

/-- Split off a leading run of digits, single underscores allowed between two of them. -/
def digitRun : List Char → List Nat × List Char
  | '_' :: rest => ([], '_' :: rest)
  | cs => moreDigits cs

/-- A leading sign, and what follows it. -/
def signOf : List Char → Bool × List Char
  | '-' :: rest => (true, rest)
  | '+' :: rest => (false, rest)
  | cs => (false, cs)

/-- Is this white space that may surround a numeral? The four separators of ASCII may not. -/
def isPadding (c : Char) : Bool := Text.isBlank c && !(0x1c ≤ c.toNat && c.toNat ≤ 0x1f)

/-- The characters of a text without the white space around a numeral. -/
def unpadded (s : String) : List Char :=
  ((s.toList.dropWhile isPadding).reverse.dropWhile isPadding).reverse

/-- The whole number a text stands for. -/
def readInt? (s : String) : Option Int :=
  let (negative, body) := signOf (unpadded s)
  match digitRun body with
  | ([], _) => none
  | (ds, []) =>
    if ds.length > maxDigits then none
    else some (if negative then -(ofDigits ds : Int) else ofDigits ds)
  | _ => none

/-- A decimal point and the digits after it, if there is one. -/
def fractionOf : List Char → List Nat × List Char
  | '.' :: rest => digitRun rest
  | cs => ([], cs)

/-- An exponent, if there is one. -/
def exponentPart : List Char → Option (Int × List Char)
  | c :: rest =>
    if c == 'e' || c == 'E' then
      let (negative, body) := signOf rest
      match digitRun body with
      | ([], _) => none
      | (ds, after) => some (if negative then -(ofDigits ds : Int) else ofDigits ds, after)
    else some (0, c :: rest)
  | [] => some (0, [])

/-- ASCII letters in lower case. -/
def lowerAscii (cs : List Char) : String := String.ofList (cs.map Char.toLower)

/-- The double a text stands for. -/
def readFloat? (s : String) : Option Float :=
  let (negative, body) := signOf (unpadded s)
  let word := lowerAscii body
  if word == "inf" || word == "infinity" then some (infinity negative)
  else if word == "nan" then some (withSign negative nan)
  else
    let (whole, rest) := digitRun body
    let (fraction, rest) := fractionOf rest
    if whole.isEmpty && fraction.isEmpty then none
    else
      match exponentPart rest with
      | some (e, []) =>
        some (ofDecimal negative (ofDigits (whole ++ fraction)) (e - fraction.length))
      | _ => none

end ScopeLowering.Decimal

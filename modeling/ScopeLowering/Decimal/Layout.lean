import ScopeLowering.Decimal.Shortest

/-!
# How doubles are written

The digits come from `ScopeLowering.Decimal.Shortest`. What is decided here is their layout:
positional for leading exponents from `-4` to `15`, with a signed exponent of at least two digits
otherwise.
-/

namespace ScopeLowering.Decimal

/-- The decisions of a number format. -/
structure Layout where
  /-- The least leading exponent that is written positionally. -/
  plainFrom : Int
  /-- The first leading exponent that is not. -/
  plainBelow : Int
  /-- Is a whole number written with a point and a zero? -/
  pointZero : Bool
  /-- The least number of digits of an exponent. -/
  exponentWidth : Nat

/-- The digits of a number, as characters. -/
def digitChars (n : Nat) : List Char := Nat.toDigits 10 n

/-- A decimal laid out without its sign. -/
def Layout.write (f : Layout) (d : Digits) : List Char :=
  let ds := digitChars d.digits
  let lead : Int := d.exponent + ds.length - 1
  if f.plainFrom ≤ lead ∧ lead < f.plainBelow then
    if d.exponent ≥ 0 then
      -- every digit stands before the point
      ds ++ List.replicate d.exponent.toNat '0' ++ (if f.pointZero then ['.', '0'] else [])
    else if lead ≥ 0 then
      ds.take (lead + 1).toNat ++ '.' :: ds.drop (lead + 1).toNat
    else
      '0' :: '.' :: (List.replicate (-lead - 1).toNat '0' ++ ds)
  else
    let exponent := digitChars lead.natAbs
    let padded := List.replicate (f.exponentWidth - exponent.length) '0' ++ exponent
    ds.take 1 ++ (if ds.length > 1 then '.' :: ds.drop 1 else []) ++
      'e' :: (if lead < 0 then '-' else '+') :: padded

/-- The text of a double. -/
def Layout.render (f : Layout) (x : Float) : String :=
  match parts x with
  | .nan => "nan"
  | .infinite negative => if negative then "-inf" else "inf"
  | .finite negative m e =>
    let sign := if negative then ['-'] else []
    let body :=
      if m == 0 then '0' :: (if f.pointZero then ['.', '0'] else [])
      else f.write (shortest (withSign false x) m e)
    String.ofList (sign ++ body)

/-- Doubles in messages and results: whole ones keep their point. -/
def plain : Layout where
  plainFrom := -4
  plainBelow := 16
  pointZero := true
  exponentWidth := 2

/-- The parts of a complex number: whole ones lose their point. -/
def bare : Layout := { plain with pointZero := false }

end ScopeLowering.Decimal

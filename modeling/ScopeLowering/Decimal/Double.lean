/-!
# Doubles as exact numbers

A double is read as an exact binary number, and an exact ratio is rounded to its nearest double.
Conversions, comparisons and remainders all go through this exact form, so that none of them
depends on how the hardware rounds in between.

## The model

A finite double is `± m · 2^e` with `m < 2^53` and `-1074 ≤ e ≤ 971`. Rounding is to nearest, and a
tie goes to the even neighbour.
-/

namespace ScopeLowering.Decimal

/-- The power `2^n`. -/
abbrev twoPow (n : Nat) : Nat := Nat.pow 2 n

/-- The power `10^n`. -/
abbrev tenPow (n : Nat) : Nat := Nat.pow 10 n

/-- What a double stands for. -/
inductive Parts where
  | nan
  | infinite (negative : Bool)
  /-- The number `± m · 2^e`. -/
  | finite (negative : Bool) (m : Nat) (e : Int)
  deriving Repr, DecidableEq

/-- The sign, significand and exponent of a double. -/
def parts (x : Float) : Parts :=
  let bits := x.toBits.toNat
  let negative := bits / twoPow 63 == 1
  let field : Nat := bits / twoPow 52 % 2048
  let fraction := bits % twoPow 52
  if field == 2047 then
    if fraction == 0 then .infinite negative else .nan
  else if field == 0 then .finite negative fraction (-1074)
  else .finite negative (twoPow 52 + fraction) ((field : Int) - 1075)

/-- The double `± m · 2^e`, for `m < 2^53` and `e` in range. A significand below `2^52` is only
meant at the least exponent. -/
def assemble (negative : Bool) (m : Nat) (e : Int) : Float :=
  let magnitude := if m < twoPow 52 then m else (e + 1075).toNat * twoPow 52 + (m - twoPow 52)
  Float.ofBits (UInt64.ofNat ((if negative then twoPow 63 else 0) + magnitude))

/-- `num / den` rounded to a whole number, a half going to the even neighbour. -/
def roundHalfEven (num den : Nat) : Nat :=
  let q := num / den
  let r := num % den
  if 2 * r < den then q
  else if 2 * r > den then q + 1
  else if q % 2 == 0 then q
  else q + 1

/-- The ratio `num / (den · 2^e)` as a numerator and a denominator. -/
def scaleDown (num den : Nat) (e : Int) : Nat × Nat :=
  if e ≥ 0 then (num, den * twoPow e.toNat) else (num * twoPow (-e).toNat, den)

/-- The exponent of the double nearest to `num / den`, before rounding. -/
def exponentOf (num den : Nat) : Int :=
  let guess : Int := (Nat.log2 num : Int) - Nat.log2 den - 52
  let (n, d) := scaleDown num den guess
  max (if n < d * twoPow 52 then guess - 1 else guess) (-1074)

/-- The double nearest to `± num / den`, or nothing when that lies beyond the largest one. -/
def nearest? (negative : Bool) (num den : Nat) : Option Float :=
  if num == 0 then some (assemble negative 0 (-1074))
  else
    let e := exponentOf num den
    let (n, d) := scaleDown num den e
    let m := roundHalfEven n d
    let (m, e) := if m == twoPow 53 then (twoPow 52, e + 1) else (m, e)
    if e > 971 then none else some (assemble negative m e)

/-- The double nearest to a whole number. -/
def ofInt? (n : Int) : Option Float := nearest? (n < 0) n.natAbs 1

/-- The double nearest to the quotient of two whole numbers. -/
def quotient? (a b : Int) : Option Float :=
  nearest? ((a < 0) != (b < 0)) a.natAbs b.natAbs

/-- Infinity, with a sign. -/
def infinity (negative : Bool) : Float :=
  Float.ofBits (if negative then 0xfff0000000000000 else 0x7ff0000000000000)

/-- Not a number. -/
def nan : Float := Float.ofBits 0x7ff8000000000000

/-- Is this not a number? -/
def isNaN (x : Float) : Bool :=
  match parts x with
  | .nan => true
  | _ => false

/-- Is this one of the infinities? -/
def isInfinite (x : Float) : Bool :=
  match parts x with
  | .infinite _ => true
  | _ => false

/-- Does the double carry a minus sign? Zeros and infinities may. -/
def isNegative (x : Float) : Bool := x.toBits.toNat / twoPow 63 == 1

/-- The same magnitude with the given sign. -/
def withSign (negative : Bool) (x : Float) : Float :=
  Float.ofBits (UInt64.ofNat ((if negative then twoPow 63 else 0) + x.toBits.toNat % twoPow 63))

/-- The whole part of a finite double, toward zero. -/
def truncate? (x : Float) : Option Int :=
  match parts x with
  | .finite negative m e =>
    let whole := if e ≥ 0 then m * twoPow e.toNat else m / twoPow (-e).toNat
    some (if negative then -(whole : Int) else whole)
  | _ => none

/-- The largest whole number not above a finite double. -/
def floor? (x : Float) : Option Int :=
  match parts x with
  | .finite negative m e =>
    let signed : Int := if negative then -(m : Int) else m
    some (if e ≥ 0 then signed * twoPow e.toNat else signed.fdiv (twoPow (-e).toNat))
  | _ => none

/-- Is this a finite whole number? -/
def isWhole (x : Float) : Bool :=
  match parts x with
  | .finite _ m e => e ≥ 0 || m % twoPow (-e).toNat == 0
  | _ => false

/-- The remainder of one finite double by another, exact and with the sign of the first. The
divisor is not zero. -/
def remainder (x y : Float) : Float :=
  match parts x, parts y with
  | .finite negative m e, .finite _ n f =>
    let low := min e f
    let r := (m * twoPow (e - low).toNat) % (n * twoPow (f - low).toNat)
    match nearest? negative (r * twoPow low.toNat) (twoPow (-low).toNat) with
    | some z => z
    | none => nan
  | .finite .., .infinite _ => x
  | _, _ => nan

end ScopeLowering.Decimal

import ScopeLowering.Decimal.Double

/-!
# The fewest digits that read back

Every finite double is written with the fewest significant decimal digits whose nearest double is
that same double; among those, with the digits nearest to it, and with an even last digit on a tie.
-/

namespace ScopeLowering.Decimal

/-- A positive decimal `digits · 10^exponent`. -/
structure Digits where
  digits : Nat
  exponent : Int
  deriving Repr, DecidableEq

/-- The ratio `num / (den · 10^k)`. -/
def scaleTen (num den : Nat) (k : Int) : Nat × Nat :=
  if k ≥ 0 then (num, den * tenPow k.toNat) else (num * tenPow (-k).toNat, den)

/-- The ratio that a decimal stands for. -/
def Digits.ratio (d : Digits) : Nat × Nat := scaleTen d.digits 1 (-d.exponent)

/-- Is the double nearest to this decimal the given one? -/
def Digits.readsBack (d : Digits) (x : Float) : Bool :=
  let (num, den) := d.ratio
  match nearest? false num den with
  | some y => y.toBits == x.toBits
  | none => false

/-- The number of decimal digits of a positive number. -/
def digitCount (n : Nat) : Nat := (Nat.toDigits 10 n).length

/-- The exponent of the leading digit of `num / den`: the `k` with `10^k ≤ num / den < 10^(k+1)`. -/
def leadingExponent (num den : Nat) : Int :=
  let guess : Int := (digitCount num : Int) - digitCount den
  let (n, d) := scaleTen num den guess
  if n < d then guess - 1 else guess

/-- The decimal with the last digit at `10^k` that reads back, the nearer of two. -/
def onGrid (x : Float) (num den : Nat) (k : Int) : Option Digits :=
  let (n, d) := scaleTen num den k
  let below : Digits := ⟨n / d, k⟩
  let above : Digits := ⟨n / d + 1, k⟩
  let r := n % d
  let low := below.readsBack x
  let high := above.readsBack x
  if low && high then
    if 2 * r < d then some below
    else if 2 * r > d then some above
    else if below.digits % 2 == 0 then some below else some above
  else if low then some below
  else if high then some above
  else none

/-- Try grids from the coarsest on, `count` of them. -/
def searchGrids (x : Float) (num den : Nat) (k : Int) : Nat → Option Digits
  | 0 => none
  | count + 1 =>
    match onGrid x num den k with
    | some d => some d
    | none => searchGrids x num den (k - 1) count

/-- Trailing zeros moved into the exponent. -/
def stripZeros (digits : Nat) (exponent : Int) : Nat → Digits
  | 0 => ⟨digits, exponent⟩
  | fuel + 1 =>
    if digits != 0 && digits % 10 == 0 then stripZeros (digits / 10) (exponent + 1) fuel
    else ⟨digits, exponent⟩

/-- The fewest digits that read back to `m · 2^e`, the positive double `x`. Seventeen always
suffice. -/
def shortest (x : Float) (m : Nat) (e : Int) : Digits :=
  let (num, den) := scaleDown m 1 (-e)
  let lead := leadingExponent num den
  match searchGrids x num den lead 17 with
  | some d => stripZeros d.digits d.exponent 20
  | none => ⟨num, 0⟩

end ScopeLowering.Decimal

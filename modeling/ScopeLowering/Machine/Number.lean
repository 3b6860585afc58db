import ScopeLowering.Decimal.Layout
import ScopeLowering.Decimal.Reading
import ScopeLowering.Machine.Fault

/-!
# Numbers of a running script

A number is a whole number of any size or a double. Operations on two whole numbers stay exact where
they can; everything else is done on doubles, and a whole number that is too large for one is a
fault.

## The model

Comparisons are exact, also between a whole number and a double. Bitwise operations act on whole
numbers that have been cut down to 32 bits.
-/

namespace ScopeLowering

/-- The signed number of 32 bits that a whole number is cut down to. -/
def wrap (k : Int) : Int := k.bmod (Decimal.twoPow 32)

/-- A number. -/
inductive Number where
  | int (n : Int)
  | float (x : Float)
  deriving Inhabited

namespace Number

/-- Not a number. -/
def nan : Number := float Decimal.nan

/-- Infinity, with a sign. -/
def infinity (negative : Bool) : Number := float (Decimal.infinity negative)

/-- The double nearest to a number. -/
def toFloat : Number → Except Fault Float
  | int n =>
    match Decimal.ofInt? n with
    | some x => .ok x
    | none => .error .tooLarge
  | float x => .ok x

/-! ### Comparison -/

/-- What a number stands for, exactly. -/
def parts : Number → Decimal.Parts
  | int n => .finite (n < 0) n.natAbs 0
  | float x => Decimal.parts x

/-- Is this not a number? -/
def isNaN (a : Number) : Bool := a.parts == .nan

/-- Is this one of the infinities? -/
def isInfinite (a : Number) : Bool :=
  match a.parts with
  | .infinite _ => true
  | _ => false

/-- A magnitude with a sign. -/
def signed (negative : Bool) (m : Nat) : Int := if negative then -(m : Int) else m

/-- How two exact numbers compare, unless one of them is not a number. -/
def orderParts? : Decimal.Parts → Decimal.Parts → Option Ordering
  | .nan, _ | _, .nan => none
  | .infinite s, .infinite t => some (compare t s)
  | .infinite s, .finite .. => some (if s then .lt else .gt)
  | .finite .., .infinite t => some (if t then .gt else .lt)
  | .finite s m e, .finite t n f =>
    let low := min e f
    some (compare (signed s m * Decimal.twoPow (e - low).toNat)
      (signed t n * Decimal.twoPow (f - low).toNat))

/-- How two numbers compare, unless one of them is not a number. -/
def order? : Number → Number → Option Ordering
  | int m, int n => some (compare m n)
  | a, b => orderParts? a.parts b.parts

/-- Are the numbers equal? -/
def equals (a b : Number) : Bool := order? a b == some .eq

/-- Is the first number less than the second? -/
def less (a b : Number) : Bool := order? a b == some .lt

/-- Is the first number at most the second? -/
def atMost (a b : Number) : Bool := a.less b || a.equals b

/-- Is this zero, of either sign? -/
def isZero (a : Number) : Bool := a.equals (int 0)

/-! ### Arithmetic -/

/-- An operation on whole numbers, or on doubles. -/
def arithmetic (whole : Int → Int → Int) (real : Float → Float → Float) :
    Number → Number → Except Fault Number
  | int m, int n => .ok (int (whole m n))
  | a, b => do return float (real (← a.toFloat) (← b.toFloat))

/-- The sum. -/
def add : Number → Number → Except Fault Number := arithmetic (· + ·) (· + ·)

/-- The difference. -/
def subtract : Number → Number → Except Fault Number := arithmetic (· - ·) (· - ·)

/-- The product. -/
def multiply : Number → Number → Except Fault Number := arithmetic (· * ·) (· * ·)

/-- The number with the opposite sign. -/
def negate : Number → Number
  | int n => int (-n)
  | float x => float (Decimal.withSign (!Decimal.isNegative x) x)

/-- The magnitude of a number. -/
def magnitude : Number → Number
  | int n => int n.natAbs
  | float x => float (Decimal.withSign false x)

/-- A double that is a whole number, as one. -/
def ofWhole (x : Float) : Number :=
  match Decimal.truncate? x with
  | some n => int n
  | none => float x

/-- The quotient. That of two whole numbers is whole if its double is. -/
def divide (a b : Number) : Except Fault Number :=
  if b.isZero then
    if a.isZero || a.isNaN then .ok nan
    else do
      let x ← a.toFloat
      let y ← b.toFloat
      return infinity (Decimal.isNegative x != Decimal.isNegative y)
  else
    match a, b with
    | int m, int n =>
      match Decimal.quotient? m n with
      | some q => .ok (if Decimal.isWhole q then ofWhole q else float q)
      | none => .error .tooLarge
    | a, b => do return float ((← a.toFloat) / (← b.toFloat))

/-- The remainder, with the sign of the first number. It is taken of the nearest doubles. -/
def remainder (a b : Number) : Except Fault Number :=
  if b.isZero || a.isNaN || b.isNaN || a.isInfinite then .ok nan
  else do
    let r := Decimal.remainder (← a.toFloat) (← b.toFloat)
    match a, b with
    | int _, int _ => return ofWhole r
    | _, _ => return float r

/-- The largest whole number not above a number. -/
def floor : Number → Number
  | int n => int n
  | float x =>
    match Decimal.floor? x with
    | some n => int n
    | none => float x

/-! ### Powers -/

/-- What a power comes to: a fractional power of a negative number is complex. -/
inductive Power where
  | real (n : Number)
  | complex (re im : Float)
  deriving Inhabited

/-- Is this double an odd whole number? -/
def isOdd (x : Float) : Bool :=
  match Decimal.truncate? x with
  | some n => Decimal.isWhole x && n % 2 != 0
  | none => false

/-- The power of a positive finite double to a finite one. -/
def finitePower (x y : Float) : Except Fault Float :=
  let z := Float.pow x y
  if Decimal.isInfinite z then .error .tooLarge else .ok z

/-- A fractional power of a negative number, in polar form. -/
def complexPower (x y : Float) : Except Fault Power := do
  let length := Float.pow (Decimal.withSign false x) y
  let phase := Float.atan2 0 x * y
  let re := length * Float.cos phase
  let im := length * Float.sin phase
  if Decimal.isInfinite re || Decimal.isInfinite im then throw .tooLarge
  return .complex re im

/-- The power of one double to another. -/
def floatPower (x y : Float) : Except Fault Power :=
  let real (z : Float) : Except Fault Power := .ok (.real (float z))
  match Decimal.parts x, Decimal.parts y with
  | _, .finite _ 0 _ => real 1
  | .nan, _ => real x
  | _, .nan => real (if (float x).equals (int 1) then 1 else y)
  | _, .infinite below =>
    match order? (magnitude (float x)) (int 1) with
    | some .eq => real 1
    | some .gt => real (if below then 0 else Decimal.infinity false)
    | _ => real (if below then Decimal.infinity false else 0)
  | .infinite negative, .finite below .. =>
    let sign := negative && isOdd y
    real (if below then Decimal.withSign sign 0 else Decimal.infinity sign)
  | .finite negative 0 _, .finite below .. =>
    if below then .error .zeroPower else real (Decimal.withSign (negative && isOdd y) 0)
  | .finite negative .., .finite .. =>
    if negative && !Decimal.isWhole y then complexPower x y
    else do
      let z ← finitePower (Decimal.withSign false x) y
      real (if negative && isOdd y then Decimal.withSign true z else z)

/-- The power of a whole number. Those of zero and one are found without multiplying. -/
def intPower (m : Int) (n : Nat) : Int :=
  if n == 0 then 1
  else if m.natAbs ≤ 1 then signed (m < 0 && n % 2 == 1) m.natAbs
  else signed (m < 0 && n % 2 == 1) (Nat.pow m.natAbs n)

/-- The largest exponent for which the power of a whole number is worked out. -/
def maxExponent : Nat := Decimal.twoPow 32 - 1

/-- The power of one number to another. -/
def power : Number → Number → Except Fault Power
  | int m, int n =>
    if n < 0 then do floatPower (← (int m).toFloat) (← (int n).toFloat)
    else if m.natAbs ≤ 1 || n.toNat ≤ maxExponent then .ok (.real (int (intPower m n.toNat)))
    else .error .noMemory
  | a, b => do floatPower (← a.toFloat) (← b.toFloat)

/-! ### Words -/

/-- A number's whole part, cut down to 32 bits. What has none counts as zero. -/
def toWord : Number → Int
  | int n => wrap n
  | float x => wrap ((Decimal.truncate? x).getD 0)

/-! ### Text -/

/-- The number a text stands for: nothing but blanks is zero, what is no numeral is not a number. -/
def ofText (s : String) : Number :=
  let t := Text.trim s
  if t.isEmpty then int 0
  else if Text.isDigits (String.ofList (t.toList.dropWhile fun c => c == '+' || c == '-')) then
    match Decimal.readInt? t with
    | some n => int n
    | none => nan
  else
    match Decimal.readFloat? t with
    | some x => float x
    | none => nan

/-- The digits of a whole number. -/
def intText (n : Int) : Except Fault String :=
  if n.natAbs < Decimal.tenPow Decimal.maxDigits then .ok (toString n) else .error .badNumeral

/-- The text of a number. Whole doubles below `10^21` are written without a point. -/
def text : Number → Except Fault String
  | int n => intText n
  | float x =>
    match Decimal.parts x with
    | .nan => .ok "NaN"
    | .infinite negative => .ok (if negative then "-Infinity" else "Infinity")
    | .finite .. =>
      match Decimal.truncate? x with
      | some n =>
        if Decimal.isWhole x && n.natAbs < Decimal.tenPow 21 then intText n
        else .ok (Decimal.plain.render x)
      | none => .ok (Decimal.plain.render x)

end Number

end ScopeLowering

import ScopeLowering.Machine.Property

/-!
# Operators

The operators between two values and before one value.
-/

namespace ScopeLowering

/-- An operator between two operands. -/
inductive BinaryOp where
  | add | subtract | multiply | power | divide | remainder
  | looseEqual | looseUnequal | strictEqual | strictUnequal
  | less | atMost | greater | atLeast
  | bitAnd | bitOr | bitXor | shiftLeft | shiftRight | shiftRightUnsigned
  | isIn
  deriving Repr, DecidableEq, Inhabited

/-- The operator with this spelling. -/
def BinaryOp.ofText? : String → Option BinaryOp
  | "+" => some add
  | "-" => some subtract
  | "*" => some multiply
  | "**" => some power
  | "/" => some divide
  | "%" => some remainder
  | "==" => some looseEqual
  | "!=" => some looseUnequal
  | "===" => some strictEqual
  | "!==" => some strictUnequal
  | "<" => some less
  | "<=" => some atMost
  | ">" => some greater
  | ">=" => some atLeast
  | "&" => some bitAnd
  | "|" => some bitOr
  | "^" => some bitXor
  | "<<" => some shiftLeft
  | ">>" => some shiftRight
  | ">>>" => some shiftRightUnsigned
  | "in" => some isIn
  | _ => none

/-- An operator before its operand. -/
inductive UnaryOp where
  | not | negate | plus | complement | typeName | void
  deriving Repr, DecidableEq, Inhabited

/-- The operator with this spelling. -/
def UnaryOp.ofText? : String → Option UnaryOp
  | "!" => some not
  | "-" => some negate
  | "+" => some plus
  | "~" => some complement
  | "typeof" => some typeName
  | "void" => some void
  | _ => none

/-! ### Bits -/

namespace Whole

/-- The bits that two whole numbers share. A negative number has infinitely many bits. -/
def and : Int → Int → Int
  | .ofNat m, .ofNat n => .ofNat (m &&& n)
  | .ofNat m, .negSucc n => .ofNat (m ^^^ (m &&& n))
  | .negSucc m, .ofNat n => .ofNat (n ^^^ (n &&& m))
  | .negSucc m, .negSucc n => .negSucc (m ||| n)

/-- The bits of either of two whole numbers. -/
def or (k l : Int) : Int := (and k.not l.not).not

/-- The bits in which two whole numbers differ. -/
def xor : Int → Int → Int
  | .ofNat m, .ofNat n | .negSucc m, .negSucc n => .ofNat (m ^^^ n)
  | .ofNat m, .negSucc n | .negSucc m, .ofNat n => .negSucc (m ^^^ n)

end Whole

/-- By how many places a whole number says to shift. -/
def shiftCount (l : Int) : Nat := (l % 32).toNat

/-- A bitwise operation on two whole numbers, cut down to 32 bits. The unsigned shift takes its
operand for a number without a sign. -/
def BinaryOp.onWholes : BinaryOp → Int → Int → Int
  | bitAnd, k, l => wrap (Whole.and k l)
  | bitOr, k, l => wrap (Whole.or k l)
  | bitXor, k, l => wrap (Whole.xor k l)
  | shiftLeft, k, l => wrap (k * Decimal.twoPow (shiftCount l))
  | shiftRight, k, l => wrap k / Decimal.twoPow (shiftCount l)
  | _, k, l => k % Decimal.twoPow 32 / Decimal.twoPow (shiftCount l)

/-! ### Numbers and texts -/

/-- Do two numbers stand in the relation of a comparison? -/
def BinaryOp.holdsOfNumbers (op : BinaryOp) (a b : Number) : Bool :=
  match op with
  | less => a.less b
  | atMost => a.atMost b
  | greater => b.less a
  | _ => b.atMost a

/-- Do two texts stand in the relation of a comparison? They are ordered character by character. -/
def BinaryOp.holdsOfTexts (op : BinaryOp) (s t : String) : Bool :=
  match op with
  | less => s < t
  | atMost => !(t < s)
  | greater => t < s
  | _ => !(s < t)

/-- An arithmetic operation on two numbers. -/
def BinaryOp.onNumbers (op : BinaryOp) (a b : Number) : Except Fault Value :=
  match op with
  | add => do return .number (← a.add b)
  | subtract => do return .number (← a.subtract b)
  | multiply => do return .number (← a.multiply b)
  | divide => do return .number (← a.divide b)
  | remainder => do return .number (← a.remainder b)
  | _ => do
    match ← a.power b with
    | .real n => return .number n
    | .complex re im => return .complex re im

namespace Machine

/-- The sum of two numbers, or of two texts if either value is one. -/
def plus (m : Machine) (a b : Value) : Except Signal Value := do
  let a ← m.primitiveOf a
  let b ← m.primitiveOf b
  match a, b with
  | .text _, _ | _, .text _ => return .text ((← m.textOf a) ++ (← m.textOf b))
  | _, _ => (BinaryOp.add.onNumbers (← m.numberOf a) (← m.numberOf b)).mapError .fault

/-- A comparison of two texts, or else of two numbers. -/
def comparison (m : Machine) (op : BinaryOp) (a b : Value) : Except Signal Value := do
  let a ← m.primitiveOf a
  let b ← m.primitiveOf b
  match a, b with
  | .text s, .text t => return .bool (op.holdsOfTexts s t)
  | _, _ => return .bool (op.holdsOfNumbers (← m.numberOf a) (← m.numberOf b))

/-- The value of an operator other than `in`. -/
def binary (m : Machine) (op : BinaryOp) (a b : Value) : Except Signal Value :=
  match op with
  | .add => m.plus a b
  | .subtract | .multiply | .power | .divide | .remainder => do
    (op.onNumbers (← m.numberOf a) (← m.numberOf b)).mapError .fault
  | .looseEqual => do return .bool (← m.looseEquals a b)
  | .looseUnequal => do return .bool (!(← m.looseEquals a b))
  | .strictEqual => .ok (.bool (a.strictEquals b))
  | .strictUnequal => .ok (.bool (!a.strictEquals b))
  | .less | .atMost | .greater | .atLeast => m.comparison op a b
  | .bitAnd | .bitOr | .bitXor | .shiftLeft | .shiftRight | .shiftRightUnsigned | .isIn => do
    return .int (op.onWholes (← m.wordOf a) (← m.wordOf b))

/-- The value of an operator before its operand. -/
def unary (m : Machine) (op : UnaryOp) (v : Value) : Except Signal Value :=
  match op with
  | .not => .ok (.bool (!v.truthy))
  | .negate => do return .number (← m.numberOf v).negate
  | .plus => do return .number (← m.numberOf v)
  | .complement => do return .int (← m.wordOf v).not
  | .typeName => .ok (.text v.typeName)
  | .void => .ok .undefined

end Machine

namespace Eval

/-- Does a value have a property of this name? -/
def isIn (key target : Value) : Eval Bool := do
  match target with
  | .array id =>
    if key.strictEquals (.text "length") then return true
    else
      let t ← toText key
      if Text.isDigits t then
        match Decimal.readInt? t with
        | some n => return n < ((← get).array id).size
        | none => fault .badNumeral
      else return false
  | .record id =>
    let t ← toText key
    return ((← get).record id).contains (.text t)
  | _ =>
    let k ← toText key
    let t ← toText target
    raise "TypeError"
      ("Cannot use 'in' operator to search for '" ++ k ++ "' in " ++ t)

/-- The value of an operator between two operands. -/
def binary (op : BinaryOp) (a b : Value) : Eval Value :=
  match op with
  | .isIn => do return .bool (← isIn a b)
  | op => inspect (·.binary op a b)

/-- The value of an operator before its operand. -/
def unary (op : UnaryOp) (v : Value) : Eval Value := inspect (·.unary op v)

end Eval

end ScopeLowering

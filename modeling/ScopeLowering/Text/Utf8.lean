/-!
# Decoding bytes

UTF-8 as a decoder of files has to read it: strictly, with a report of the first stretch that is not
a character, or leniently, with a mark in the place of each such stretch.
-/

namespace ScopeLowering.Text

/-- What is wrong with a stretch of bytes. -/
inductive ByteProblem where
  | invalidStart
  | invalidContinuation
  | unexpectedEnd
  deriving Repr, DecidableEq, Inhabited

/-- The wording of a problem. -/
def ByteProblem.text : ByteProblem → String
  | invalidStart => "invalid start byte"
  | invalidContinuation => "invalid continuation byte"
  | unexpectedEnd => "unexpected end of data"

/-- What the first bytes come to: a character, or a problem, and how many bytes it takes, less
one. -/
inductive Decoded where
  | char (c : Char) (more : Nat)
  | problem (p : ByteProblem) (more : Nat)
  deriving Repr, Inhabited

/-- How many bytes follow a first byte, and the range of the second one. -/
def leadOf? (b : UInt8) : Option (Nat × UInt8 × UInt8) :=
  if b < 0xc2 then none
  else if b < 0xe0 then some (1, 0x80, 0xbf)
  else if b == 0xe0 then some (2, 0xa0, 0xbf)
  else if b == 0xed then some (2, 0x80, 0x9f)
  else if b < 0xf0 then some (2, 0x80, 0xbf)
  else if b == 0xf0 then some (3, 0x90, 0xbf)
  else if b < 0xf4 then some (3, 0x80, 0xbf)
  else if b == 0xf4 then some (3, 0x80, 0x8f)
  else none

/-- Read the bytes that continue a character, of which `seen` bytes and the bits so far are known
and `missing` are still to come, the next one between two bounds. -/
def continueChar (bits seen : Nat) : Nat → UInt8 → UInt8 → List UInt8 → Decoded
  | 0, _, _, _ => .char (Char.ofNat bits) (seen - 1)
  | _ + 1, _, _, [] => .problem .unexpectedEnd (seen - 1)
  | missing + 1, low, high, b :: rest =>
    if low ≤ b && b ≤ high then
      continueChar (bits * 64 + b.toNat % 64) (seen + 1) missing 0x80 0xbf rest
    else .problem .invalidContinuation (seen - 1)

/-- Read the first character of some bytes. -/
def decodeFirst (b : UInt8) (rest : List UInt8) : Decoded :=
  if b < 0x80 then .char (Char.ofNat b.toNat) 0
  else
    match leadOf? b with
    | none => .problem .invalidStart 0
    | some (more, low, high) => continueChar (b.toNat % Nat.pow 2 (6 - more)) 1 more low high rest

/-- Why some bytes are no text. -/
structure ByteError where
  problem : ByteProblem
  /-- The offset of the first byte of the stretch. -/
  start : Nat
  /-- The offset just past it. -/
  stop : Nat
  /-- The first byte of the stretch. -/
  byte : UInt8
  deriving Repr, Inhabited

/-- The characters of some bytes, the problems replaced by a mark, and the first problem. The first
bytes, already read, are skipped. -/
def decodeFrom (skip offset : Nat) : List UInt8 → List Char × Option ByteError
  | [] => ([], none)
  | b :: rest =>
    match skip with
    | k + 1 => decodeFrom k (offset + 1) rest
    | 0 =>
      match decodeFirst b rest with
      | .char c more =>
        let (cs, e) := decodeFrom more (offset + 1) rest
        (c :: cs, e)
      | .problem p more =>
        let (cs, _) := decodeFrom more (offset + 1) rest
        ('�' :: cs, some ⟨p, offset, offset + more + 1, b⟩)

/-- The text of some bytes, with a mark for what is no character. -/
def decodeLenient (bytes : List UInt8) : String := String.ofList (decodeFrom 0 0 bytes).1

/-- The text of some bytes. -/
def decodeStrict (bytes : List UInt8) : Except ByteError String :=
  match decodeFrom 0 0 bytes with
  | (cs, none) => .ok (String.ofList cs)
  | (_, some e) => .error e

/-- Two hexadecimal digits. -/
def hexByte (b : UInt8) : String :=
  let ds := Nat.toDigits 16 b.toNat
  String.ofList (List.replicate (2 - ds.length) '0' ++ ds)

/-- The wording of an error. -/
def ByteError.message (e : ByteError) : String :=
  let place :=
    if e.stop == e.start + 1 then
      "byte 0x" ++ hexByte e.byte ++ " in position " ++ toString e.start
    else "bytes in position " ++ toString e.start ++ "-" ++ toString (e.stop - 1)
  "'utf-8' codec can't decode " ++ place ++ ": " ++ e.problem.text

end ScopeLowering.Text

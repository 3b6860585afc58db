import ScopeLowering.Text.Ranges

/-!
# Digits

Two classes of characters. A *decimal digit* stands for one of the values 0 to 9 in some script and
may be read as part of a number. A *digit* is a decimal digit or one of the marked forms
(superscripts, subscripts, circled digits), which look like a number and are not readable as one.

The tables are those of version 14 of the character database.
-/

namespace ScopeLowering.Text

/-- The zero of each script's ten consecutive decimal digits. -/
def decimalZeros : Array Nat := #[
  0x30, 0x660, 0x6f0, 0x7c0, 0x966, 0x9e6, 0xa66, 0xae6, 0xb66, 0xbe6, 0xc66, 0xce6, 0xd66,
  0xde6, 0xe50, 0xed0, 0xf20, 0x1040, 0x1090, 0x17e0, 0x1810, 0x1946, 0x19d0, 0x1a80, 0x1a90,
  0x1b50, 0x1bb0, 0x1c40, 0x1c50, 0xa620, 0xa8d0, 0xa900, 0xa9d0, 0xa9f0, 0xaa50, 0xabf0,
  0xff10, 0x104a0, 0x10d30, 0x11066, 0x110f0, 0x11136, 0x111d0, 0x112f0, 0x11450, 0x114d0,
  0x11650, 0x116c0, 0x11730, 0x118e0, 0x11950, 0x11c50, 0x11d50, 0x11da0, 0x16a60, 0x16ac0,
  0x16b50, 0x1d7ce, 0x1d7d8, 0x1d7e2, 0x1d7ec, 0x1d7f6, 0x1e140, 0x1e2f0, 0x1e950, 0x1fbf0]

/-- The digits that are not decimal digits. -/
def markedDigits : List Nat := [
  178,2,5,1,4783,9,1640,1,1685,1,3,6,6,10,982,9,11,9,11,9,89,1,10,9,1,1,630,9,1,9,1,9,58029,4,1052,
  9,489,9,57509,11]

/-- The value of a decimal digit. -/
def decimalDigit? (c : Char) : Option Nat :=
  if c.toNat < 0x80 then
    if '0' ≤ c ∧ c ≤ '9' then some (c.toNat - '0'.toNat) else none
  else
    (decimalZeros.find? fun start => start ≤ c.toNat && c.toNat < start + 10).map (c.toNat - ·)

/-- Is this a digit of any form? -/
def isDigit (c : Char) : Bool :=
  (decimalDigit? c).isSome || inClass markedDigits c

/-- Is the text made of digits, and not empty? -/
def isDigits (s : String) : Bool :=
  !s.isEmpty && s.toList.all isDigit

end ScopeLowering.Text

/-!
# Slices

A character of a text given by its index, and a stretch given by two offsets. An offset below zero
counts from the end, one out of range is moved to the nearest end, and a stretch that ends before it
starts is empty.
-/

namespace ScopeLowering.Text

/-- The character at an index. Only the characters before it are passed over. -/
def charAt? (s : String) (i : Nat) : Option Char := (s.drop i).front?

/-- Where an offset points in a text of `n` characters. -/
def clampOffset (n : Nat) (i : Int) : Nat :=
  if i < 0 then (i + n).toNat else min i.toNat n

/-- The characters from one offset up to another. -/
def slice (cs : List Char) (left right : Int) : List Char :=
  let l := clampOffset cs.length left
  let r := clampOffset cs.length right
  (cs.take r).drop l

/-- The text with a stretch replaced. Of a stretch that ends before it starts, the part in between
is kept on both sides. -/
def splice (cs : List Char) (left right : Int) (new : List Char) : List Char :=
  cs.take (clampOffset cs.length left) ++ new ++ cs.drop (clampOffset cs.length right)

end ScopeLowering.Text

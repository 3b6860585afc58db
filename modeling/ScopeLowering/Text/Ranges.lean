/-!
# Classes of characters

A class of characters given by the lengths of the stretches of code points that are outside of it
and inside, in turn, from the first code point on. What comes after the last stretch is outside.
-/

namespace ScopeLowering.Text

/-- Is the code point inside, if the first stretch is? -/
def inStretches (inside : Bool) : List Nat → Nat → Bool
  | [], _ => inside
  | length :: rest, n => if n < length then inside else inStretches (!inside) rest (n - length)

/-- Is the character in the class? -/
def inClass (stretches : List Nat) (c : Char) : Bool := inStretches false stretches c.toNat

end ScopeLowering.Text

import ScopeLowering.Text.Ranges

/-!
# White space

Blanks, tabs, line ends and the other separators, and the texts that are left when they are taken
off the ends.
-/

namespace ScopeLowering.Text

/-- White space. -/
def blanks : List Nat := [
  9,5,14,5,100,1,26,1,5599,1,2431,11,29,2,5,1,47,1,4000,1]

/-- Is this character white space? -/
def isBlank (c : Char) : Bool := inClass blanks c

/-- The characters without white space at the end. -/
def trimRightChars (cs : List Char) : List Char :=
  (cs.reverse.dropWhile isBlank).reverse

/-- The text without white space at the end. -/
def trimRight (s : String) : String :=
  String.ofList (trimRightChars s.toList)

/-- The text without white space at either end. -/
def trim (s : String) : String :=
  String.ofList (trimRightChars (s.toList.dropWhile isBlank))

end ScopeLowering.Text

/-!
# Lines

Where the lines of a text start, and line ends of one kind. A line ends with a line feed, a carriage
return, or the two together, and includes its end.
-/

namespace ScopeLowering.Text

/-- The offsets just past each line end, in a text whose first character has the given offset. -/
def lineEnds : Nat → List Char → List Nat
  | _, [] => []
  | i, '\r' :: '\n' :: rest => (i + 2) :: lineEnds (i + 2) rest
  | i, c :: rest =>
    if c == '\r' || c == '\n' then (i + 1) :: lineEnds (i + 1) rest else lineEnds (i + 1) rest

/-- The offsets at which lines start. -/
def lineStarts (cs : List Char) : List Nat := 0 :: lineEnds 0 cs

/-- The row of an offset, counted from one, and the column, counted from zero. An offset before the
text is in row zero, and counts from the end of the text. -/
def rowCol (cs : List Char) (offset : Int) : Nat × Int :=
  let before := (lineStarts cs).filter fun (start : Nat) => (start : Int) ≤ offset
  match before.getLast? with
  | some start => (before.length, offset - start)
  | none => (0, offset - cs.length)

/-- The line with a number, counted from one. -/
def lineAt (cs : List Char) (row : Nat) : List Char :=
  let bounds := lineStarts cs ++ [cs.length]
  let start := bounds[row - 1]?.getD cs.length
  let stop := bounds[row]?.getD cs.length
  (cs.take stop).drop start

/-- The characters with every line end made a line feed. -/
def unifyLineEnds : List Char → List Char
  | [] => []
  | '\r' :: '\n' :: rest => '\n' :: unifyLineEnds rest
  | c :: rest => (if c == '\r' then '\n' else c) :: unifyLineEnds rest

end ScopeLowering.Text

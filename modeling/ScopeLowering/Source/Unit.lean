import ScopeLowering.Text.Blank
import ScopeLowering.Text.Lines

/-!
# Source units and pictures of them

A source unit is the text of one script with the path it came from. Stretches of it are shown to a
reader as pictures: the line, marks under the stretch, and a caption.

## The model

Lines are found and drawn by an `Illustrator`. All that is asked of it is that it can draw every
stretch of a text that has a caption; whether it draws one without is left open.
`Illustrator.standard` does not.
-/

namespace ScopeLowering

/-- The text of one script. -/
structure SourceUnit where
  text : String
  path : Option String := none
  deriving Repr, DecidableEq, Inhabited

namespace SourceUnit

/-- The path, or a word in its place. -/
def name (u : SourceUnit) : String := u.path.getD "<text>"

/-- The unit in a message. -/
def display (u : SourceUnit) : String := "<SourceUnit " ++ u.name ++ ">"

/-- Do two offsets enclose a stretch of the text? -/
def fits (u : SourceUnit) (left right : Int) : Bool :=
  0 ≤ left && left ≤ right && right ≤ u.text.length

end SourceUnit

/-! ### Illustrators -/

/-- What finds lines in a text and draws pictures of them. -/
structure Illustrator where
  /-- The row and the column of an offset. -/
  rowCol? : String → Int → Option (Nat × Int)
  /-- The line in a row. -/
  line? : String → Nat → Option String
  /-- A line after a label, with marks under a stretch that starts in a column, and a caption. -/
  draw? (label line : String) (start width : Int) (caption : Option String) : Option String
  /-- A stretch of a text can be drawn if it has a caption. -/
  returns : ∀ (text : String) (offset : Nat), offset ≤ text.length → ∃ row col line,
    rowCol? text offset = some (row, col) ∧ line? text row = some line ∧
      ∀ label width caption, (draw? label line col width (some caption)).isSome = true

/-- Blanks as wide as some characters. Tabs stay tabs. -/
def blanksFor (cs : List Char) : List Char := cs.map fun c => if c == '\t' then c else ' '

/-- A line, with marks under a stretch of it and a caption. -/
def illustration (label line : List Char) (start width : Nat) (caption : String) : String :=
  let marks := max 1 (min width (line.length - start))
  String.ofList (label ++ Text.trimRightChars line ++
    '\n' :: blanksFor (label ++ line.take start) ++
      List.replicate marks '^' ++ ' ' :: caption.toList)

/-- Rows count from one. Without a caption nothing is drawn. -/
def Illustrator.standard : Illustrator where
  rowCol? text offset := some (Text.rowCol text.toList offset)
  line? text row := some (String.ofList (Text.lineAt text.toList row))
  draw? label line start width caption :=
    caption.map (illustration label.toList line.toList start.toNat width.toNat)
  returns _ _ _ := ⟨_, _, _, rfl, rfl, fun _ _ _ => rfl⟩

/-! ### Pictures -/

/-- A caption pinned to a stretch of a source unit. -/
structure Pin where
  unit : SourceUnit
  left : Nat
  right : Nat
  /-- What stands beside the marks. A part of a script whose kind has no name gives nothing. -/
  caption : Option String
  le : left ≤ right
  inText : right ≤ unit.text.length
  deriving Repr, DecidableEq

/-- A caption for a stretch, if the stretch lies in the text. -/
def SourceUnit.pin? (u : SourceUnit) (left right : Int) (caption : Option String) :
    Option Pin :=
  if h : u.fits left right then
    some ⟨u, left.toNat, right.toNat, caption, by simp [fits] at h; omega,
      by simp [fits] at h; omega⟩
  else none

/-- A row number in front of a line. -/
def rowLabel (row : Nat) : String :=
  let digits := ' ' :: Nat.toDigits 10 row
  String.ofList (List.replicate (6 - digits.length) ' ' ++ digits ++ [' ', '|'])

/-- The picture of a stretch, if it can be drawn. Of a stretch over several lines the first one is
shown. -/
def Pin.illustrate? (pencil : Illustrator) (a : Pin) : Option String := do
  let (row, col) ← pencil.rowCol? a.unit.text a.left
  let line ← pencil.line? a.unit.text row
  let width := max 1 (min ((a.right : Int) - a.left) (line.length - col))
  pencil.draw? (rowLabel row) line col width a.caption

/-- Something to tell: an introduction, some illustrated source and closing remarks. -/
structure Picture where
  intro : String
  pins : List Pin := []
  footer : List String := []
  deriving Repr, DecidableEq, Inhabited

namespace Picture

/-- The illustrations, each run of them from one path under a line with that path. -/
def illustrations? (pencil : Illustrator) (last : Option (Option String)) :
    List Pin → Option (List String)
  | [] => some []
  | a :: rest => do
    let heading := if last == some a.unit.path then [] else [a.unit.name]
    let shown ← a.illustrate? pencil
    let others ← illustrations? pencil (some a.unit.path) rest
    return heading ++ shown :: others

/-- The picture as text, if every stretch can be drawn. -/
def text? (pencil : Illustrator) (p : Picture) : Option String :=
  (illustrations? pencil none p.pins).map fun shown =>
    "\n".intercalate (p.intro :: "" :: shown ++ p.footer)

end Picture

end ScopeLowering

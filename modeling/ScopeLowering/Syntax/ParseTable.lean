import ScopeLowering.Syntax.Script

/-!
# Tables of parsed texts

A parser's answers for some texts, kept in a table: to every text its tree, or where the parser gave
up. A table serves as a parser for the texts in it.
-/

namespace ScopeLowering

/-- Texts with what a parser made of them. -/
abbrev ParseTable := List (String × Except ParseFailure Json)

namespace ParseTable

/-- The text of a field. -/
def textField (fields : List (String × Json)) (name : String) : String :=
  ((Json.find? name fields).bind Json.text?).getD ""

/-- The failure that a document describes. -/
def failureOf : Json → ParseFailure
  | .obj fields =>
    let index := match Json.find? "index" fields with | some (.int n) => n | _ => 0
    ⟨index, textField fields "message"⟩
  | _ => ⟨0, ""⟩

/-- One row: a text with its tree or with the parser's failure. -/
def rowOf : Json → Option (String × Except ParseFailure Json)
  | .obj fields =>
    let text := textField fields "text"
    match Json.find? "parse_error" fields with
    | some f => some (text, .error (failureOf f))
    | none => some (text, .ok ((Json.find? "tree" fields).getD .null))
  | _ => none

/-- The table that a document lists. -/
def ofJson : Json → ParseTable
  | .arr rows => rows.filterMap rowOf
  | _ => []

/-- The parser that looks texts up. -/
def parser (table : ParseTable) : Parser := fun text =>
  (table.lookup text).getD (.error ⟨0, "There is no tree for this text."⟩)

end ParseTable

end ScopeLowering

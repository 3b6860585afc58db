import ScopeLowering.Syntax.Document

/-!
# Scripts from source text

Splitting source text into a tree is the work of a parser, which is a parameter here: it answers
with an ESTree document, or says where it gave up. The comments at both ends of the text belong to
the script too, so the tree is widened to the whole text.
-/

namespace ScopeLowering

/-- A parser's report that a text is not a script. -/
structure ParseFailure where
  /-- Where the parser gave up. -/
  index : Int
  message : String
  deriving Repr, DecidableEq, Inhabited

/-- A parser of source text. -/
abbrev Parser := String → Except ParseFailure Json

/-- Why there is no tree for a source text. -/
inductive SourceFault where
  | parse (f : ParseFailure)
  | read (f : ReadFault)
  deriving Inhabited

namespace Script

/-- The tree with its span widened to a whole text. -/
def widen (text : String) : Node → Node
  | .program body span =>
    let stop := if span.right > text.length then span.stop else .known text.length
    .program body ⟨.known 0, stop⟩
  | n => n

/-- The tree of a source text. -/
def ofText (parser : Parser) (text : String) : Except SourceFault Node :=
  match parser text with
  | .error f => .error (.parse f)
  | .ok (.obj fields) =>
    match Document.readProgram fields with
    | .error f => .error (.read f)
    | .ok tree => .ok (widen text tree)
  | .ok _ => .error (.read .noFields)

/-- The tree of a document's text. -/
def ofDocument (text : String) : Except SourceFault Node :=
  (Document.readText text).mapError .read

end Script

end ScopeLowering

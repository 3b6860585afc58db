import ScopeLowering.Scope.Decision
import ScopeLowering.Text.Quoted
import ScopeLowering.Text.Slice

/-!
# Plans of edits

The decisions on a script become edits to its text, one for every statement whose keyword changes. A
plan is all or nothing: an inconsistency here is a defect in what came before, and no plan comes
out.
-/

namespace ScopeLowering

/-- A keyword to be replaced by another. -/
structure Edit where
  /-- The stretch of text that the keyword covers. -/
  span : Span
  old : String
  new : String
  /-- The names of the hazards that were accepted. -/
  notes : List String := []
  deriving Repr, DecidableEq, Inhabited

namespace Edit

/-- Does one edit's place come before, or equal, another's? -/
def isOrdered (a b : Edit) : Bool :=
  a.span.left < b.span.left || (a.span.left == b.span.left && a.span.right ≤ b.span.right)

/-- The notes in order, each once. -/
def sortedNotes (e : Edit) : List String := sortTexts e.notes

/-- The edit as a line of text. -/
def display (e : Edit) : String :=
  toString e.span.left ++ "-" ++ toString e.span.right ++ ": " ++ e.old ++ " -> " ++ e.new ++
    if e.notes.isEmpty then "" else "  (accepted: " ++ ", ".intercalate e.sortedNotes ++ ")"

/-- The edit as a JSON object. -/
def toJson (e : Edit) : Json :=
  .obj [("start", e.span.start.toJson), ("end", e.span.stop.toJson), ("old", .str e.old),
    ("new", .str e.new), ("notes", .arr (e.sortedNotes.map .str))]

end Edit

/-- A contradiction between decisions. -/
inductive Defect where
  | noDecision (b : Binding)
  | disagreement (statement : Statement) (keywords : List String)
  | overlap (before after : Edit)
  deriving Repr, DecidableEq, Inhabited

/-- A stretch of text as messages show it. -/
def displaySpan (s : Span) : String :=
  "(" ++ s.start.toJson.display ++ ", " ++ s.stop.toJson.display ++ ")"

/-- The wording of a defect. -/
def Defect.message : Defect → String
  | noDecision b => "No decision for " ++ b.display
  | disagreement s keywords =>
    "Declarators of " ++ s.display ++ " disagree: [" ++
      ", ".intercalate (keywords.map Text.quoted) ++ "]"
  | overlap before after =>
    "Overlapping edits at " ++ displaySpan before.span ++ " and " ++
      displaySpan after.span

/-! ### From decisions to edits -/

/-- The decisions on the members of a statement. A parameter or function that shares a name has
none, and the statement stays as it is. -/
def memberDecisions (t : Table) (ds : Decisions) :
    List BindingId → Except Defect (Option (List Decision))
  | [] => .ok (some [])
  | id :: rest =>
    match ds.find? id with
    | some d => (memberDecisions t ds rest).map fun found => found.map (d :: ·)
    | none =>
      let b := t.bindings[id]?.getD default
      if b.isCandidate then .error (.noDecision b) else .ok none

/-- The edit of a statement, if its keyword changes. -/
def statementEdit (t : Table) (ds : Decisions) (e : StatementEntry) : Except Defect (Option Edit) :=
  match memberDecisions t ds e.members with
  | .error defect => .error defect
  | .ok none => .ok none
  | .ok (some verdicts) =>
    match (verdicts.map (·.keyword)).eraseDups with
    | [keyword] =>
      if keyword = e.statement.keyword then .ok none
      else
        .ok (some ⟨e.statement.keywordSpan, e.statement.keyword.text, keyword.text,
          (verdicts.flatMap (·.accepted)).map (·.text)⟩)
    | keywords => .error (.disagreement e.statement (sortTexts (keywords.map (·.text))))

/-- The first two neighbours that overlap. -/
def firstOverlap : List Edit → Option (Edit × Edit)
  | a :: b :: rest => if a.span.right > b.span.left then some (a, b) else firstOverlap (b :: rest)
  | _ => none

/-- The plan of edits for a table, in the order of their places. -/
def emitPlan (t : Table) (ds : Decisions) : Except Defect (List Edit) :=
  match t.candidates.find? fun (id, _) => (ds.find? id).isNone with
  | some (_, b) => .error (.noDecision b)
  | none =>
    match t.statements.mapM (statementEdit t ds) with
    | .error defect => .error defect
    | .ok edits =>
      let plan := (edits.filterMap id).mergeSort Edit.isOrdered
      match firstOverlap plan with
      | some (a, b) => .error (.overlap a b)
      | none => .ok plan

/-! ### Applying a plan -/

/-- The text does not hold what an edit expects. -/
structure Mismatch where
  edit : Edit
  found : String
  deriving Repr, DecidableEq, Inhabited

/-- The wording of a mismatch. -/
def Mismatch.message (m : Mismatch) : String :=
  "Expected " ++ Text.quoted m.edit.old ++ " at " ++ toString m.edit.span.left ++ ", found " ++
    Text.quoted m.found

/-- The text with one edit made. -/
def applyEdit (text : List Char) (e : Edit) : Except Mismatch (List Char) :=
  let found := Text.slice text e.span.left e.span.right
  if found = e.old.toList then .ok (Text.splice text e.span.left e.span.right e.new.toList)
  else .error ⟨e, String.ofList found⟩

/-- The text with all edits made, the last one first so that offsets stay put. -/
def applyEdits (text : String) (edits : List Edit) : Except Mismatch String :=
  let latestFirst := edits.mergeSort fun a b => Edit.isOrdered b a
  (latestFirst.foldlM applyEdit text.toList).map String.ofList

end ScopeLowering

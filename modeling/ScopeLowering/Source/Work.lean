import ScopeLowering.Source.Report

/-!
# Work on one source unit

Reading the text of one script, analyzing it and lowering its declarations, with every failure
explained in a report.
-/

namespace ScopeLowering

namespace Reporting

/-- The tree of a unit, read as a document if `isDocument`. -/
def readUnit (parser : Parser) (u : SourceUnit) (isDocument : Bool) : Reporting Node := do
  let result := if isDocument then Script.ofDocument u.text else Script.ofText parser u.text
  match result with
  | .ok tree => return tree
  | .error (.parse f) =>
    parseError u f.index f.message
    throw (.failed .parse)
  | .error (.read (.unsupported construct span)) =>
    unsupported u construct span.left span.right
    throw (.failed .parse)
  | .error (.read (.notTree why)) =>
    notTree why
    throw (.failed .parse)
  | .error (.read f) => throw (.unreadable f)

/-- The analysis of a unit, with its tree. -/
def analyzeUnit (tools : Toolkit) (u : SourceUnit) (options : Options) (isDocument : Bool) :
    Reporting (Node × Analysis) := do
  let tree ← readUnit tools.parser u isDocument
  info ("Parsed " ++ u.display) 1
  match Analysis.ofScript tree options with
  | .error (.scope (.malformed message phrase)) =>
    malformed u message phrase
    throw (.failed .scope)
  | .error (.scope f) => throw (.unscopable f)
  | .error (.plan d) =>
    defect u d.message
    throw (.failed .emit)
  | .ok a =>
    info (toString a.decisions.length ++ " var bindings, " ++ toString a.edits.length ++ " edits") 1
    for (b, d) in a.decisionsInOrder do advise tools u b d
    return (tree, a)

/-- A text with a plan applied. -/
def lowered (text : String) (edits : List Edit) : Reporting String := do
  match applyEdits text edits with
  | .ok t => return t
  | .error m => throw (.mismatch m)

/-- The text of a unit with its declarations lowered. A failure is printed too. -/
def lowerUnit (tools : Toolkit) (u : SourceUnit) (options : Options) : Reporting String := do
  let result ← tryCatch (analyzeUnit tools u options false) fun stop => do
    match stop with
    | .failed _ => complain tools
    | _ => pure ()
    throw stop
  lowered u.text result.2.edits

/-- The outcome of a run with the standard host. -/
def outcomeOf (platform : Platform) (tree : Node) : Reporting Outcome := do
  match runScript tree { platform } with
  | .ok o => return o
  | .error s => throw (.noOutcome s)

/-- Run a script before and after its declarations are lowered, and insist that nobody can tell the
difference. -/
def verify (tools : Toolkit) (tree : Node) (newText : String) : Reporting Unit := do
  let before ← outcomeOf tools.platform tree
  match Script.ofText tools.parser newText with
  | .error f => throw (.unparsable f)
  | .ok newTree =>
    let after ← outcomeOf tools.platform newTree
    info ("before: " ++ before.display) 2
    if before ≠ after then
      divergence before after
      throw (.failed .verify)

end Reporting

end ScopeLowering

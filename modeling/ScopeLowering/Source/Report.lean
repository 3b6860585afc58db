import ScopeLowering.Analysis
import ScopeLowering.Machine.Run
import ScopeLowering.Source.Unit
import ScopeLowering.Syntax.Script

/-!
# Reports

What is told about one source unit. Issues are things to be fixed before anything is changed; the
rest is chatter, which is printed at once and only when it is asked for. Hazards are no issues: they
appear as advice.
-/

namespace ScopeLowering

/-- The issues of one unit, and what was printed meanwhile. -/
structure Report where
  /-- How much chatter is wanted. -/
  verbose : Int := 0
  /-- The number of issues at which counting stops. -/
  maxIssues : Int := 10
  issues : List Picture := []
  /-- Everything printed so far. -/
  printed : String := ""
  deriving Repr, Inhabited

/-- The step at which a unit failed. -/
inductive Phase where
  | read | parse | scope | emit | verify
  deriving Repr, DecidableEq, Inhabited

/-- The name of a step. -/
def Phase.text : Phase → String
  | read => "read"
  | parse => "parse"
  | scope => "scope"
  | emit => "emit"
  | verify => "verify"

/-- Why the work on a unit stops. -/
inductive Stop where
  /-- The unit failed, for a reason that was reported. -/
  | failed (phase : Phase)
  | tooManyIssues
  /-- Issues where there should be none. -/
  | issuesFound (message : String)
  /-- A name that is to be shown lies outside the text. -/
  | outsideText
  /-- A stretch without a caption could not be drawn. -/
  | noCaption
  /-- A document that cannot be read at all. -/
  | unreadable (f : ReadFault)
  /-- A tree that cannot be gone through. -/
  | unscopable (f : ScopeFault)
  /-- The text does not hold what an edit expects. -/
  | mismatch (m : Mismatch)
  /-- The changed text has no tree. -/
  | unparsable (f : SourceFault)
  /-- A run without an outcome. -/
  | noOutcome (s : Signal)
  /-- A path that no file can have. -/
  | impossiblePath
  /-- A file that could not be overwritten. -/
  | unwritable
  /-- It is not said how many files may be worked on at once. -/
  | noJobCount
  deriving Inhabited

/-- Work on a unit, with a report at hand. What was reported before a stop stays. -/
abbrev Reporting := EStateM Stop Report

/-- What can be said before the issues. -/
structure Grumble where
  cry : Fin 8 := 0
  remark : Fin 3 := 0

/-- A grumble in words. -/
def Grumble.text (g : Grumble) : String :=
  #v["Drat", "Blast", "Fiddlesticks", "Horsefeathers", "Confound it", "Well, that's awkward",
    "Hold the phone", "Not so fast"][g.cry] ++ "! " ++
  #v["These declarations stay exactly as they are.",
    "Nothing gets rewritten until this is sorted out.",
    "Better a var too many than a broken script."][g.remark]

/-- What the work on a unit makes use of. -/
structure Toolkit where
  parser : Parser
  pencil : Illustrator := .standard
  /-- What is said before the issues of a report. -/
  grumble : Report → Grumble := fun _ => {}
  /-- What scripts are run on to compare them. -/
  platform : Platform := {}

/-- An outcome in a message. -/
def Outcome.display (o : Outcome) : String :=
  "Outcome(result=" ++ Text.quoted o.result ++ ", error=" ++
    (match o.error with | some e => Text.quoted e | none => "None") ++
    ", log=[" ++ ", ".intercalate (o.log.map Text.quoted) ++ "])"

namespace Report

/-- Is there any issue? -/
def isSick (r : Report) : Bool := !r.issues.isEmpty

/-- The issues as they are printed, nothing if there are none. An issue without a text cannot be
printed. -/
def complaint? (tools : Toolkit) (r : Report) : Option String :=
  if r.issues.isEmpty then some ""
  else
    let rule := String.ofList (List.replicate 60 '-') ++ "\n"
    (r.issues.mapM (Picture.text? tools.pencil)).map fun texts =>
      (tools.grumble r).text ++ "\n" ++ String.join (texts.map fun t => rule ++ t ++ "\n")

end Report

namespace Reporting

/-- Print a line. -/
def print (line : String) : Reporting Unit :=
  modify fun r => { r with printed := r.printed ++ line ++ "\n" }

/-- Print a line if that much chatter is wanted. -/
def info (line : String) (level : Int) : Reporting Unit := do
  if (← get).verbose ≥ level then print line

/-- Report an issue. -/
def issue (p : Picture) : Reporting Unit := do
  modify fun r => { r with issues := r.issues ++ [p] }
  let r ← get
  if (r.issues.length : Int) ≥ r.maxIssues then throw .tooManyIssues

/-- Print the issues. -/
def complain (tools : Toolkit) : Reporting Unit := do
  match (← get).complaint? tools with
  | some text => modify fun r => { r with printed := r.printed ++ text }
  | none => throw .noCaption

/-- Stop if there is any issue, printing them all. -/
def assertNoIssues (tools : Toolkit) (message : String) : Reporting Unit := do
  let r ← get
  if r.isSick then
    complain tools
    throw (.issuesFound (message ++ ": " ++ "; ".intercalate (r.issues.map (·.intro))))

/-! ### Issues -/

/-- There is no such file. -/
def noSuchFile (path : String) : Reporting Unit :=
  issue { intro := "I see no file called " ++ path }

/-- A file cannot be read. -/
def brokenFile (path why : String) : Reporting Unit :=
  issue { intro := "Something went pear-shaped while trying to read " ++ path, footer := [why] }

/-- The text is not a script. -/
def parseError (u : SourceUnit) (offset : Int) (description : String) : Reporting Unit :=
  let place := max 0 (min offset u.text.length)
  issue
    { intro := "The parser could not make sense of this script."
      pins := (u.pin? place place (some description)).toList }

/-- The script uses what is not analyzed. A construct that is not named by a text gives no caption,
so that its issue has no text. -/
def unsupported (u : SourceUnit) (construct : Json) (left right : Int) : Reporting Unit :=
  issue
    { intro :=
        "This uses " ++ construct.plainText ++ ", which is outside what I know how to analyze."
      pins := (u.pin? left right construct.text?).toList
      footer := ["Destructuring, classes, templates, spread and modules are left to other tools."] }

/-- The document is not a tree. -/
def notTree (why : String) : Reporting Unit :=
  issue { intro := "This does not look like an ESTree document: " ++ why }

/-- The tree does not hang together. -/
def malformed (u : SourceUnit) (message : String) (phrase : Option Span) : Reporting Unit :=
  let place := phrase.bind fun s =>
    if s.start.isKnown && s.stop.isKnown then u.pin? s.left s.right (some "") else none
  issue
    { intro := "The syntax tree does not hang together: " ++ message
      pins := place.toList }

/-- The decisions contradict each other. -/
def defect (u : SourceUnit) (message : String) : Reporting Unit :=
  issue
    { intro :=
        "The rewrite plan for " ++ u.path.getD "this script" ++
          " broke an internal rule. This is a bug in unhoist."
      footer := [message] }

/-- Two runs differ. -/
def divergence (before after : Outcome) : Reporting Unit :=
  issue
    { intro := "Running the rewritten script does not match running the original."
      footer := ["before: " ++ before.display, " after: " ++ after.display] }

/-! ### Advice -/

/-- Say what became of a binding, and why, if any chatter is wanted. -/
def advise (tools : Toolkit) (u : SourceUnit) (b : Binding) (d : Decision) : Reporting Unit := do
  if (← get).verbose == 0 then return
  let others := sortTexts ((d.hazards.map (·.text)).filter (· != d.reason.text))
  let place := b.first.name.span
  match u.pin? place.left place.right (some (d.verdict.text ++ ": " ++ d.reason.text)) with
  | none => throw .outsideText
  | some a =>
    let picture : Picture :=
      { intro := "About " ++ Text.quoted b.name ++ ":"
        pins := [a]
        footer := if others.isEmpty then [] else ["also: " ++ ", ".intercalate others] }
    match picture.text? tools.pencil with
    | some text => print text
    | none => throw .noCaption

end Reporting

end ScopeLowering

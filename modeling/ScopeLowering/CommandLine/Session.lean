import ScopeLowering.CommandLine.Arguments
import ScopeLowering.CommandLine.Disk
import ScopeLowering.Json.Printer
import ScopeLowering.Source.Work

/-!
# Sessions

What the command line does with some files: every file is worked on by itself, and then the results
are shown in order. A file that fails does not keep the others from being done.

## The model

A session is given what reading the file with a path comes to, and whether a text can be written
there. Files are read before any of them is written.
-/

namespace ScopeLowering

/-- Lines of text, each with its end. -/
def linesOf (lines : List String) : String := String.join (lines.map (· ++ "\n"))

/-- How the arguments may be put together. -/
def usage : String :=
  linesOf [
    "usage: unhoist [-h] [-a] [-w | -p] [--json] [--estree] [-j JOBS] [-v]",
    "               [--verify]",
    "               files [files ...]"]

/-- What is said when there are no arguments. -/
def greeting : String :=
  "Turns legacy `var` declarations into `let` or `const`, wherever doing so cannot change what " ++
    "a script does.\n\n" ++ usage ++
    linesOf [
      "",
      "",
      "For example:",
      "",
      "    unhoist script.js",
      "",
      "will print the plan of edits for script.js, if any, or else try to explain why not.",
      "",
      "    unhoist -p script.js",
      "",
      "will print the rewritten script instead, and",
      "",
      "    unhoist -h",
      "",
      "will explain all the arguments."]

/-- The explanation of the arguments. -/
def helpText : String :=
  usage ++
    linesOf [
      "",
      "Safely lower var declarations to let and const.",
      "",
      "positional arguments:",
      "  files                 JavaScript sources (or ESTree JSON, with --estree).",
      "",
      "options:",
      "  -h, --help            show this help message and exit",
      "  -a, --allow-loop-capture-rebinding",
      "                        Lower loop variables even where closures capture them,",
      "                        giving each iteration its own binding.",
      "  -w, --write           Rewrite the files in place.",
      "  -p, --print           Print the rewritten source instead of the plan.",
      "  --json                Print the plan as JSON.",
      "  --estree              Inputs are ESTree documents in JSON, not JavaScript.",
      "  -j JOBS, --jobs JOBS  Analyze this many files at once.",
      "  -v, --verbose         Explain every decision. Say it twice for progress",
      "                        chatter.",
      "  --verify              Run the script before and after rewriting, and insist",
      "                        they agree."]

/-! ### One file -/

/-- What came of one file. -/
structure FileResult where
  path : String
  report : Report
  /-- The plan, and the changed text if there is one, or why there is none. -/
  outcome : Except Stop (List Edit × Option String)
  deriving Inhabited

/-- The text of a file. -/
def Reporting.readFile (content : FileContent) (path : String) : Reporting String := do
  match content with
  | .missing =>
    noSuchFile path
    throw (.failed .read)
  | .unreadable why =>
    brokenFile path why
    throw (.failed .read)
  | .impossible => throw .impossiblePath
  | .bytes bs =>
    match Text.decodeStrict bs with
    | .ok text => return String.ofList (Text.unifyLineEnds text.toList)
    | .error e =>
      brokenFile path e.message
      throw (.failed .read)

/-- Work on the file with a path and a content. -/
def Reporting.processFile (tools : Toolkit) (s : Settings) (content : FileContent)
    (path : String) : Reporting (List Edit × Option String) := do
  let text ← readFile content path
  let (tree, a) ← analyzeUnit tools ⟨text, some path⟩ ⟨s.allow⟩ s.estree
  if s.estree then return (a.edits, none)
  let newText ← lowered text a.edits
  if s.verify then verify tools tree newText
  return (a.edits, some newText)

/-- What comes of a file. Stops that are no failures of the file end the session. -/
def processFile (read : String → FileContent) (tools : Toolkit) (s : Settings) (path : String) :
    Except Stop FileResult :=
  match Reporting.processFile tools s (read path) path { verbose := s.verbose } with
  | .ok result report => .ok ⟨path, report, .ok result⟩
  | .error stop report =>
    match stop with
    | .failed _ | .tooManyIssues => .ok ⟨path, report, .error stop⟩
    | _ => .error stop

/-! ### All files -/

/-- What a session prints and writes. -/
structure Output where
  status : Nat := 0
  stdout : String := ""
  stderr : String := ""
  /-- The files to overwrite, with their new texts. -/
  writes : List (String × String) := []
  deriving Repr, DecidableEq, Inhabited

/-- One output after another. -/
def Output.append (a b : Output) : Output :=
  ⟨max a.status b.status, a.stdout ++ b.stdout, a.stderr ++ b.stderr, a.writes ++ b.writes⟩

/-- Show a plan, or do what is asked with it. A file that cannot be written ends the session. -/
def showPlan (canWrite : String → String → Bool) (s : Settings) (path : String)
    (edits : List Edit) (newText : Option String) : Except Stop Output :=
  match s.write, s.print, newText with
  | true, _, some text =>
    if edits.isEmpty then .ok {}
    else if canWrite path text then
      .ok
        { writes := [(path, text)]
          stderr := path ++ ": " ++ toString edits.length ++ " edits\n" }
    else .error .unwritable
  | true, _, none => .ok {}
  | false, true, some text => .ok { stdout := text }
  | false, _, _ =>
    if s.json then
      let plan := Json.obj [("file", .str path), ("edits", .arr (edits.map (·.toJson)))]
      .ok { stdout := plan.render ++ "\n" }
    else .ok { stdout := String.join (edits.map fun e => path ++ ":" ++ e.display ++ "\n") }

/-- Show what came of a file. An issue that cannot be printed ends the session. -/
def showResult (canWrite : String → String → Bool) (tools : Toolkit) (s : Settings)
    (r : FileResult) : Except Stop Output :=
  match r.outcome with
  | .ok (edits, newText) => showPlan canWrite s r.path edits newText
  | .error stop =>
    let count :=
      match stop with
      | .tooManyIssues =>
        r.path ++ ": stopped counting after " ++ toString r.report.issues.length ++ " issues.\n"
      | _ => ""
    match r.report.complaint? tools with
    | some text => .ok { status := 1, stderr := text ++ count }
    | none => .error .noCaption

/-- Work on all files and then show what came of them. -/
def runFiles (read : String → FileContent) (canWrite : String → String → Bool) (tools : Toolkit)
    (s : Settings) : Except Stop Output :=
  if s.jobs.isNone then .error .noJobCount
  else do
    let results ← (s.files.map normalPath).mapM (processFile read tools s)
    let chatter : Output := { stderr := String.join (results.map (·.report.printed)) }
    let shown ← results.mapM (showResult canWrite tools s)
    return shown.foldl Output.append chatter

/-- What the command line answers. -/
inductive Reply where
  /-- There were no arguments. -/
  | greeting
  | help
  | misuse (m : Misuse)
  | done (out : Output)
  deriving Inhabited

/-- Do what some arguments ask for. -/
def runCommand (read : String → FileContent) (canWrite : String → String → Bool)
    (tools : Toolkit) (args : List String) : Except Stop Reply :=
  if args.isEmpty then .ok .greeting
  else
    match Settings.ofArgs args with
    | .error .helpWanted => .ok .help
    | .error (.misuse m) => .ok (.misuse m)
    | .ok s =>
      if s.estree && (s.write || s.print) then .ok (.misuse .needsSource)
      else (runFiles read canWrite tools s).map .done

/-- The last line that is printed about a mistake in the arguments. -/
def Misuse.line (m : Misuse) : String := "unhoist: error: " ++ m.message

end ScopeLowering

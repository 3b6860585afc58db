import ScopeLowering.CommandLine.Session
import ScopeLowering.Json.Parser
import ScopeLowering.Syntax.ParseTable

/-!
# The command line

Reads the files, runs the session, prints and writes what came of it. The trees of a script are
looked for beside it, in a table of parsed texts with the name of the script and `.trees.json`.
-/

namespace ScopeLowering

/-- What reading a file comes to. -/
def contentOf (path : String) : IO FileContent := do
  try
    return .bytes (← IO.FS.readBinFile path).toList
  catch
    | .noFileOrDirectory .. => return .missing
    | e => return .unreadable (toString e)

/-- The trees that lie beside a script. -/
def treesBeside (path : String) : IO ParseTable := do
  match ← contentOf (path ++ ".trees.json") with
  | .bytes bs =>
    match Json.parse (Text.decodeLenient bs) with
    | .ok table => return ParseTable.ofJson table
    | .error _ => return []
  | _ => return []

/-- The files that some arguments name. -/
def filesNamed (args : List String) : List String :=
  match Settings.ofArgs args with
  | .ok s => s.files.map normalPath
  | .error _ => []

/-- Print a reply and write the files it asks for. The answer is the exit status. -/
def perform (reply : Reply) : IO UInt32 := do
  match reply with
  | .greeting =>
    IO.print greeting
    return 0
  | .help =>
    IO.print helpText
    return 0
  | .misuse m =>
    IO.eprint (usage ++ m.line ++ "\n")
    return 2
  | .done out =>
    for (path, text) in out.writes do IO.FS.writeFile path text
    IO.eprint out.stderr
    IO.print out.stdout
    return out.status.toUInt32

end ScopeLowering

open ScopeLowering in
/-- The command line. -/
def main (args : List String) : IO UInt32 := do
  let paths := filesNamed args
  let contents ← paths.mapM fun path => return (path, ← contentOf path)
  let trees ← paths.mapM treesBeside
  let read (path : String) : FileContent := (contents.lookup path).getD .missing
  let tools : Toolkit := { parser := ParseTable.parser trees.flatten }
  -- a write that fails after all is an error of its own
  match runCommand read (fun _ _ => true) tools args with
  | .ok reply => perform reply
  | .error _ =>
    IO.eprintln "unhoist: a file could not be processed at all."
    return 1

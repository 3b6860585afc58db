import ScopeLowering.Text.Quoted
import ScopeLowering.Text.Utf8

/-!
# Paths and files

Paths in their normal form, and what reading a file can come to. A `Disk` is a small file system in
memory; a program may equally well be given the real one.
-/

namespace ScopeLowering

/-! ### Paths -/

/-- The parts of a path between slashes. Empty ones and single dots say nothing. -/
def pathParts (path : String) : List String :=
  (path.splitOn "/").filter fun part => part != "" && part != "."

/-- The slashes in front of an absolute path: two stay two, any other number is one. -/
def pathRoot (path : String) : String :=
  match (path.toList.takeWhile (· == '/')).length with
  | 0 => ""
  | 2 => "//"
  | _ => "/"

/-- A path in its normal form. Steps upward stay. -/
def normalPath (path : String) : String :=
  let text := pathRoot path ++ "/".intercalate (pathParts path)
  if text.isEmpty then "." else text

/-! ### Files -/

/-- Why a file cannot be read. -/
inductive FileProblem where
  | missing
  | isDirectory
  | notDirectory
  | nameTooLong
  deriving Repr, DecidableEq, Inhabited

/-- The wording of a problem with the file at a path. -/
def FileProblem.message (path : String) : FileProblem → String
  | missing => "[Errno 2] No such file or directory: " ++ Text.quoted path
  | notDirectory => "[Errno 20] Not a directory: " ++ Text.quoted path
  | isDirectory => "[Errno 21] Is a directory: " ++ Text.quoted path
  | nameTooLong => "[Errno 36] File name too long: " ++ Text.quoted path

/-- What reading a file comes to. -/
inductive FileContent where
  | bytes (bs : List UInt8)
  | missing
  /-- The file cannot be read, for the reason given. -/
  | unreadable (why : String)
  /-- No file can have such a path. -/
  | impossible
  deriving Repr, Inhabited

/-- What stands at a path: a file with its bytes, or a directory. -/
inductive Entry where
  | file (bs : List UInt8)
  | directory
  deriving Repr, Inhabited

/-- A place that a path leads to. -/
inductive Location where
  /-- On the disk, by the parts of its path. -/
  | inside (parts : List String)
  /-- In one of the directories around the disk. -/
  | outside
  deriving Repr, DecidableEq, Inhabited

/-- The longest name, in bytes. -/
def maxNameBytes : Nat := 255

/-- The number of bytes from which on a path is too long. -/
def maxPathBytes : Nat := 4096

/-- Files and directories by the parts of their paths. -/
structure Disk where
  entries : List (List String × Entry) := []
  deriving Repr, Inhabited

namespace Disk

/-- What stands at a path. A directory also exists when something lies in it. -/
def find? (d : Disk) (parts : List String) : Option Entry :=
  match d.entries.lookup parts with
  | some e => some e
  | none => if d.entries.any fun (p, _) => parts.isPrefixOf p then some .directory else none

/-- One step along a path. Of the directories around the disk nothing is known but that they
exist. -/
def enter (d : Disk) (here : Location) (part : String) : Except FileProblem Location :=
  match here with
  | .outside =>
    if part == ".." then .ok .outside
    else if part.utf8ByteSize > maxNameBytes then .error .nameTooLong
    else .error .missing
  | .inside parts =>
    match d.find? parts with
    | some (.file _) => .error .notDirectory
    | _ =>
      if part == ".." then .ok (if parts.isEmpty then .outside else .inside parts.dropLast)
      else if part.utf8ByteSize > maxNameBytes then .error .nameTooLong
      else if (d.find? (parts ++ [part])).isNone then .error .missing
      else .ok (.inside (parts ++ [part]))

/-- Where a path leads. -/
def resolve (d : Disk) (path : String) : Except FileProblem Location :=
  if path.utf8ByteSize ≥ maxPathBytes then .error .nameTooLong
  else (pathParts path).foldlM d.enter (if pathRoot path == "" then .inside [] else .outside)

/-- Read the file at a path. -/
def read (d : Disk) (path : String) : FileContent :=
  let found : Except FileProblem (List UInt8) := do
    match ← d.resolve path with
    | .outside => throw .isDirectory
    | .inside parts =>
      match d.find? parts with
      | some (.file bs) => return bs
      | _ => throw .isDirectory
  if path.toList.contains '\x00' then .impossible
  else
    match found with
    | .ok bs => .bytes bs
    | .error .missing => .missing
    | .error p => .unreadable (p.message path)

/-- The disk with the file at a path overwritten. -/
def write (d : Disk) (path : String) (bs : List UInt8) : Disk :=
  match d.resolve path with
  | .ok (.inside parts) =>
    { d with entries := d.entries.map fun (p, e) => if p == parts then (p, .file bs) else (p, e) }
  | _ => d

end Disk

end ScopeLowering

import ScopeLowering.Decimal.Reading
import ScopeLowering.Text.Quoted

/-!
# Command-line arguments

What a user asks for on the command line. Options have a short and a long spelling or only a long
one; long ones may be cut short while that is unambiguous, short ones may be written together, and a
value may follow an equals sign. Files are the words that belong to no option, in one run. After
`--` everything is a word.
-/

namespace ScopeLowering

/-- An option. -/
inductive Flag where
  | help | allow | write | print | json | estree | jobs | verbose | verify
  deriving Repr, DecidableEq, Inhabited

namespace Flag

/-- How an option may be written. -/
def spellings : Flag → List String
  | help => ["-h", "--help"]
  | allow => ["-a", "--allow-loop-capture-rebinding"]
  | write => ["-w", "--write"]
  | print => ["-p", "--print"]
  | json => ["--json"]
  | estree => ["--estree"]
  | jobs => ["-j", "--jobs"]
  | verbose => ["-v", "--verbose"]
  | verify => ["--verify"]

/-- All options, in the order of the usage. -/
def all : List Flag := [help, allow, write, print, json, estree, jobs, verbose, verify]

/-- The name of an option in a message. -/
def name (f : Flag) : String := "/".intercalate f.spellings

/-- Does the option need a value? -/
def takesValue (f : Flag) : Bool := f == jobs

/-- Every spelling with its option. -/
def table : List (String × Flag) := all.flatMap fun f => f.spellings.map (·, f)

/-- The option with this spelling. -/
def ofSpelling? (s : String) : Option Flag := table.lookup s

/-- The option that cannot be given together with this one. -/
def rival? : Flag → Option Flag
  | write => some print
  | print => some write
  | _ => none

end Flag

/-- What is asked for. -/
structure Settings where
  files : List String := []
  allow : Bool := false
  write : Bool := false
  print : Bool := false
  json : Bool := false
  estree : Bool := false
  /-- How many files may be worked on at once. Nothing if no number is left to say it. -/
  jobs : Option Int := some 1
  verbose : Nat := 0
  verify : Bool := false
  deriving Repr, DecidableEq, Inhabited

/-- A mistake in the arguments. -/
inductive Misuse where
  | ambiguous (option : String) (candidates : List String)
  | conflict (flag rival : Flag)
  | ignoredValue (flag : Flag) (value : String)
  | missingValue (flag : Flag)
  | notInt (flag : Flag) (value : String)
  | noFiles
  | unrecognized (args : List String)
  /-- Documents can be neither overwritten nor printed. -/
  | needsSource
  deriving Repr, DecidableEq, Inhabited

/-- The wording of a mistake. -/
def Misuse.message : Misuse → String
  | ambiguous option candidates =>
    "ambiguous option: " ++ option ++ " could match " ++ ", ".intercalate candidates
  | conflict flag rival =>
    "argument " ++ flag.name ++ ": not allowed with argument " ++ rival.name
  | ignoredValue flag value =>
    "argument " ++ flag.name ++ ": ignored explicit argument " ++ Text.quoted value
  | missingValue flag => "argument " ++ flag.name ++ ": expected one argument"
  | notInt flag value => "argument " ++ flag.name ++ ": invalid int value: " ++ Text.quoted value
  | noFiles => "the following arguments are required: files"
  | unrecognized args => "unrecognized arguments: " ++ " ".intercalate args
  | needsSource => "--write and --print need JavaScript source, not ESTree."

/-- Why there are no settings. -/
inductive Refusal where
  | helpWanted
  | misuse (m : Misuse)
  deriving Repr, DecidableEq, Inhabited

/-! ### Words and options -/

/-- What one argument is. -/
inductive Piece where
  | word
  /-- The argument after which everything is a word. -/
  | divider
  /-- An option, known or not, in its short form if `isShort`, and the text attached to it. -/
  | option (flag : Option Flag) (isShort : Bool) (attached : Option (List Char))
  deriving Repr, DecidableEq, Inhabited

/-- The characters before the first equals sign, and those after it if there is one. -/
def splitAtEquals (cs : List Char) : List Char × Option (List Char) :=
  match cs.dropWhile (· != '=') with
  | [] => (cs, none)
  | _ :: after => (cs.takeWhile (· != '='), some after)

/-- Are there digits, and nothing else? -/
def areDigits (cs : List Char) : Bool :=
  !cs.isEmpty && cs.all fun c => (Text.decimalDigit? c).isSome

/-- Does the text look like a negative number? -/
def isNegativeNumber (cs : List Char) : Bool :=
  match cs with
  | '-' :: rest =>
    -- a line end may follow the number
    let body := if rest.getLast? == some '\n' then rest.dropLast else rest
    areDigits body ||
      match body.dropWhile fun c => (Text.decimalDigit? c).isSome with
      | '.' :: fraction => areDigits fraction
      | _ => false
  | _ => false

/-- The options that an argument may stand for, with their spelling. -/
def candidates (cs : List Char) : List (String × Piece) :=
  match cs with
  | '-' :: '-' :: _ =>
    let (stem, value) := splitAtEquals cs
    Flag.table.filterMap fun (spelling, f) =>
      if stem.isPrefixOf spelling.toList then
        some (spelling, .option (some f) false value)
      else none
  | _ =>
    Flag.table.filterMap fun (spelling, f) =>
      if spelling.toList == cs.take 2 then
        some (spelling, .option (some f) true (some (cs.drop 2)))
      else none

/-- Is this the short form of an option? -/
def isShortForm (cs : List Char) : Bool := cs.drop 1 |>.head? |>.any (· != '-')

/-- What one argument is. -/
def classifyArg (arg : String) : Except Misuse Piece :=
  let cs := arg.toList
  if cs.head? != some '-' then .ok .word
  else
    match Flag.ofSpelling? arg with
    | some f => .ok (.option (some f) (isShortForm cs) none)
    | none =>
      if cs.length == 1 then .ok .word
      else
        let (stem, value) := splitAtEquals cs
        match value, Flag.ofSpelling? (String.ofList stem) with
        | some text, some f => .ok (.option (some f) (isShortForm stem) (some text))
        | _, _ =>
          match candidates cs with
          | [(_, piece)] => .ok piece
          | [] =>
            if isNegativeNumber cs || cs.contains ' ' then .ok .word
            else .ok (.option none false none)
          | several => .error (.ambiguous arg (several.map (·.1)))

/-- What each argument is. -/
def classifyArgs : List String → Except Misuse (List (String × Piece))
  | [] => .ok []
  | arg :: rest =>
    if arg == "--" then .ok ((arg, .divider) :: rest.map (·, .word))
    else do
      let piece ← classifyArg arg
      return (arg, piece) :: (← classifyArgs rest)

/-! ### Options written together -/

/-- What one argument asks for. -/
structure Requested where
  /-- The options in order, with their values. -/
  flags : List (Flag × Option String) := []
  /-- Is the next word one of the values? -/
  usesNext : Bool := false
  deriving Repr, DecidableEq, Inhabited

/-- The request with one more option in front. -/
def Requested.after (flag : Flag) (r : Requested) : Requested :=
  { r with flags := (flag, none) :: r.flags }

/-- An option that nothing is attached to. Its value is the next word. -/
def requestAlone (flag : Flag) (next : Option String) : Except Misuse Requested :=
  if flag.takesValue then
    match next with
    | some word => .ok { flags := [(flag, some word)], usesNext := true }
    | none => .error (.missingValue flag)
  else .ok { flags := [(flag, none)] }

/-- An option with a text attached: its value, or more options in their short forms. -/
def requestAttached (next : Option String) (flag : Flag) (isShort : Bool) (text : List Char) :
    Except Misuse Requested :=
  if flag.takesValue then .ok { flags := [(flag, some (String.ofList text))] }
  else
    let refused : Except Misuse Requested := .error (.ignoredValue flag (String.ofList text))
    match text with
    | [] => refused
    | c :: rest =>
      if isShort then
        match Flag.ofSpelling? (String.ofList ['-', c]), rest with
        | none, _ => refused
        | some g, [] => (requestAlone g next).map (.after flag)
        | some g, more => (requestAttached next g true more).map (.after flag)
      else refused
termination_by text.length

/-! ### Settings -/

/-- The arguments read so far. -/
structure Progress where
  settings : Settings := {}
  /-- Have the files been found? -/
  filesFound : Bool := false
  /-- The words since the last option. -/
  run : List String := []
  extras : List String := []
  /-- Does the next word belong to an option? -/
  skipNext : Bool := false
  deriving Repr, Inhabited

namespace Progress

/-- Put the words since the last option where they belong: the first run is the files. -/
def flush (p : Progress) : Progress :=
  let words := p.run.erase "--"
  if !p.filesFound && !words.isEmpty then
    { p with settings := { p.settings with files := words }, filesFound := true, run := [] }
  else { p with extras := p.extras ++ p.run, run := [] }

/-- Has this option been given? -/
def has (p : Progress) : Flag → Bool
  | .write => p.settings.write
  | .print => p.settings.print
  | _ => false

/-- Give an option its effect. -/
def take (p : Progress) (flag : Flag) (value : Option String) : Except Refusal Progress :=
  match flag.rival? with
  | some rival =>
    if p.has rival then .error (.misuse (.conflict flag rival))
    else
      .ok (match flag with
        | .write => { p with settings := { p.settings with write := true } }
        | _ => { p with settings := { p.settings with print := true } })
  | none =>
    let s := p.settings
    match flag with
    | .help => .error .helpWanted
    | .allow => .ok { p with settings := { s with allow := true } }
    | .json => .ok { p with settings := { s with json := true } }
    | .estree => .ok { p with settings := { s with estree := true } }
    | .verify => .ok { p with settings := { s with verify := true } }
    | .verbose => .ok { p with settings := { s with verbose := s.verbose + 1 } }
    | .jobs =>
      let text := value.getD ""
      -- the divider is no value, wherever it stands
      if text == "--" then .ok { p with settings := { s with jobs := none } }
      else
        match Decimal.readInt? text with
        | some n => .ok { p with settings := { s with jobs := some n } }
        | none => .error (.misuse (.notInt flag text))
    | _ => .ok p

/-- Give all options of one argument their effect. -/
def takeAll (p : Progress) (r : Requested) : Except Refusal Progress := do
  let p ← r.flags.foldlM (fun p (flag, value) => p.take flag value) p
  return { p with skipNext := r.usesNext }

/-- The next argument, if it is a word. -/
def nextWord : List (String × Piece) → Option String
  | (arg, .word) :: _ => some arg
  | _ => none

/-- Read the arguments one by one. -/
def readAll (p : Progress) : List (String × Piece) → Except Refusal Progress
  | [] => .ok p.flush
  | (arg, piece) :: rest =>
    match piece with
    | .word | .divider =>
      if p.skipNext then readAll { p with skipNext := false } rest
      else readAll { p with run := p.run ++ [arg] } rest
    | .option none _ _ =>
      let p := p.flush
      readAll { p with extras := p.extras ++ [arg] } rest
    | .option (some flag) isShort attached => do
      let p := p.flush
      let requested ←
        (match attached with
          | none => requestAlone flag (nextWord rest)
          | some text => requestAttached (nextWord rest) flag isShort text).mapError .misuse
      readAll (← p.takeAll requested) rest

end Progress

/-- The settings that some arguments ask for. -/
def Settings.ofArgs (args : List String) : Except Refusal Settings := do
  let pieces ← (classifyArgs args).mapError .misuse
  let p ← Progress.readAll {} pieces
  if !p.filesFound then throw (.misuse .noFiles)
  if !p.extras.isEmpty then throw (.misuse (.unrecognized p.extras))
  return p.settings

end ScopeLowering

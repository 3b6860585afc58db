import ScopeLowering.Machine.Environment

/-!
# Setting up scopes

The variables that exist before the first statement of a function or a block runs. A function body
hoists the names of its `var` declarations and of its function declarations, however deeply they are
nested, but not those of other functions. A block makes its `let` and `const` variables, dead until
their declarations run, and its functions, which are live from the start.
-/

namespace ScopeLowering

/-- The names that some declarators declare. -/
def declaratorNames : List Node → Except Fault (List String)
  | [] => .ok []
  | .declarator name _ _ :: rest => do return name.text :: (← declaratorNames rest)
  | _ :: _ => .error .missingPart

mutual

/-- The names that a node hoists to its function. -/
def hoisted (n : Node) : Except Fault (List String) :=
  match n with
  | .absent | .ident _ | .function .declaration none .. => .error .missingPart
  | .literal .. | .lookup _ | .thisExpr _ | .emptyStmt _ | .breakStmt _ | .continueStmt _
  | .function .expression .. | .varDecl .letWord .. | .varDecl .constWord .. => .ok []
  | .function .declaration (some name) .. => .ok [name.text]
  | .varDecl .varWord declarators _ => declaratorNames declarators
  | .arrayLit xs _ | .objectLit xs _ | .sequence xs _ | .block xs _ | .program xs _ => hoistedAll xs
  | .property _ x _ | .update _ x _ _ | .unary _ x _ | .exprStmt x _ | .throwStmt x _
  | .catchClause _ x _ => hoisted x
  | .member target key computed _ => do
    let names ← hoisted target
    if computed then return names ++ (← hoisted key) else return names
  | .assign _ x y _ | .binary _ x y _ | .logical _ x y _ | .whileStmt x y _ | .doWhileStmt x y _
  | .withStmt x y _ => do return (← hoisted x) ++ (← hoisted y)
  | .conditional x y z _ | .forEachStmt x y z _ _ => do
    return (← hoisted x) ++ (← hoisted y) ++ (← hoisted z)
  | .call fn args _ | .newCall fn args _ => do return (← hoisted fn) ++ (← hoistedAll args)
  | .declarator _ init _ => if init.isAbsent then .ok [] else hoisted init
  | .returnStmt value _ => if value.isAbsent then .ok [] else hoisted value
  | .ifStmt test yes no _ => do
    let names := (← hoisted test) ++ (← hoisted yes)
    if no.isAbsent then return names else return names ++ (← hoisted no)
  | .forStmt init test update body _ => do
    let first ← if init.isAbsent then pure [] else hoisted init
    let second ← if test.isAbsent then pure [] else hoisted test
    let third ← if update.isAbsent then pure [] else hoisted update
    return first ++ second ++ third ++ (← hoisted body)
  | .tryStmt body handler finalizer _ => do
    let first ← hoisted body
    let second ← if handler.isAbsent then pure [] else hoisted handler
    let third ← if finalizer.isAbsent then pure [] else hoisted finalizer
    return first ++ second ++ third
  | .caseClause test body _ => do
    let names ← if test.isAbsent then pure [] else hoisted test
    return names ++ (← hoistedAll body)
  | .switchStmt subject cases _ => do return (← hoisted subject) ++ (← hoistedAll cases)

/-- The names that some nodes hoist to their function. Absent ones hoist none. -/
def hoistedAll (ns : List Node) : Except Fault (List String) :=
  match ns with
  | [] => .ok []
  | n :: rest => do
    let names ← if n.isAbsent then pure [] else hoisted n
    return names ++ (← hoistedAll rest)

end

namespace Eval

/-- Make dead variables for some declarators. -/
def declareDead (f : Frame) (isConst : Bool) : List Node → Eval Unit
  | [] => return
  | .declarator name _ _ :: rest => do
    declare f name.text .uninitialized isConst
    declareDead f isConst rest
  | _ :: _ => fault .missingPart

/-- Hand a function of a block to the variables of its function, which are found from `outer`. -/
def handOver (outer : Option Env) (name : String) (fn : Value) : Eval Unit :=
  match outer with
  | some up => write up name fn
  | none => return

/-- Set up what one statement of a block declares. -/
def enterStatement (env : Env) (outer : Option Env) : Node → Eval Unit
  | .varDecl .varWord .. => return
  | .varDecl keyword declarators _ => declareDead env.frame (keyword == .constWord) declarators
  | .function .declaration (some name) params body isArrow _ => do
    let fn ← newFunction (.closure env ⟨some name, params, body, isArrow⟩)
    declare env.frame name.text fn false
    handOver outer name.text fn
  | .function .declaration none .. => fault .missingPart
  | _ => return

/-- Set up the lexical variables and the functions of a block. A block inside a function hands its
functions to the variables of that function too, which are found from `outer`. -/
def enterBlock (env : Env) (outer : Option Env) : List Node → Eval Unit
  | [] => return
  | stmt :: rest => do
    enterStatement env outer stmt
    enterBlock env outer rest

/-- Make a hoisted variable, unless the frame has one of that name. -/
def declareMissing (f : Frame) (name : String) : Eval Unit := do
  if (← get).declares f name then return else declare f name .undefined false

/-- Make the hoisted variables that a frame does not have yet. -/
def declareHoisted (f : Frame) : List String → Eval Unit
  | [] => return
  | name :: rest => do
    declareMissing f name
    declareHoisted f rest

/-- Set up the variables of a function body. -/
def enterFunction (env : Env) (body : List Node) : Eval Unit := do
  declareHoisted env.frame (← compute (hoistedAll body))
  enterBlock env none body

end Eval

end ScopeLowering

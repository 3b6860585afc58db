import ScopeLowering.Machine.Hoisting
import ScopeLowering.Machine.Operator

/-!
# Running code

The value of an expression and the effect of a statement.

## The model

`eval` and `exec` are recursions over the tree. How a function is called is a parameter, `apply`, so
that the recursion through calls is bounded elsewhere, by the depth of the calls. A loop runs its
body at least once a pass, and every statement counts against the budget, so a loop never makes more
passes than the budget has steps left, and one more.
-/

namespace ScopeLowering

/-- How the function with a number is called, with a value for `this` and some arguments. -/
abbrev Apply := Nat → Value → List Value → Eval Value

namespace Eval

/-! ### Control -/

/-- Go on as an attempted action did. -/
def resume {α : Type} : Except Signal α → Eval α
  | .ok a => pure a
  | .error s => throw s

/-- An action and then another, whatever becomes of the first. The signal of the second wins. -/
def thenAlways (action cleanup : Eval Unit) : Eval Unit := do
  let result ← attempt action
  cleanup
  resume result

/-- An action that is closed by another one, if that part is not missing. -/
def closing (part : Node) (action cleanup : Eval Unit) : Eval Unit :=
  if part.isAbsent then action else thenAlways action cleanup

/-- An action that goes on with another one if it throws an exception. -/
def catching {α : Type} (action : Eval α) (handle : Value → Eval α) : Eval α := do
  match ← attempt action with
  | .error (.thrown v) => handle v
  | result => resume result

/-- An action that may be left by a `break`. -/
def breakable (action : Eval Unit) : Eval Unit := do
  match ← attempt action with
  | .error .broke => return
  | result => resume result

/-- One pass through the body of a loop. The answer says whether to go on. -/
def runBody (body : Eval Unit) : Eval Bool := do
  match ← attempt body with
  | .ok _ | .error .continued => return true
  | .error .broke => return false
  | .error s => throw s

/-- The most passes that a loop can begin before the budget runs out. -/
def passesLeft : Eval Nat := do return (← get).budget.toNat + 1

/-- Make at most so many passes, until one of them gives nothing to go on with. -/
def iterate {α : Type} (pass : α → Eval (Option α)) : Nat → α → Eval Unit
  | 0, _ => throw .exhausted
  | n + 1, a => do
    match ← pass a with
    | some b => iterate pass n b
    | none => return

/-- Make passes from here on until one of them gives nothing to go on with. -/
def loop {α : Type} (pass : α → Eval (Option α)) (a : α) : Eval Unit := do
  iterate pass (← passesLeft) a

/-- Repeat a body as long as a test before it gives something true. -/
def whileLoop (test : Eval Value) (body : Eval Unit) : Eval Unit := do
  let pass (_ : Unit) : Eval (Option Unit) := do
    if (← test).truthy then return if ← runBody body then some () else none
    else return none
  loop pass ()

/-- Repeat a body as long as a test after it gives something true. -/
def doWhileLoop (body : Eval Unit) (test : Eval Value) : Eval Unit := do
  let pass (_ : Unit) : Eval (Option Unit) := do
    if ← runBody body then return if (← test).truthy then some () else none
    else return none
  loop pass ()

/-- The environment of the next pass of a loop, which may need variables of its own. -/
def nextEnv (fresh : Bool) (env : Env) : Eval Env := if fresh then copyFrame env else pure env

/-- Repeat a body and an update as long as a test before them says so, from an environment on. -/
def forLoop (fresh : Bool) (test : Env → Eval Bool) (body update : Env → Eval Unit) (head : Env) :
    Eval Unit := do
  let pass (env : Env) : Eval (Option Env) := do
    if ← test env then
      if ← runBody (body env) then
        let next ← nextEnv fresh env
        update next
        return some next
      else return none
    else return none
  loop pass (← nextEnv fresh head)

/-- Make a pass for each item, until one of them says to stop. -/
def passOver (pass : Value → Eval Bool) : List Value → Eval Unit
  | [] => return
  | v :: rest => do if ← pass v then passOver pass rest

/-- Make a pass for each element of an array, also for those that are added meanwhile. -/
def passOverArray (pass : Value → Eval Bool) (id : Nat) : Eval Unit := do
  let onePass (i : Nat) : Eval (Option Nat) := do
    match ((← get).array id)[i]? with
    | some v => return if ← pass v then some (i + 1) else none
    | none => return none
  loop onePass 0

/-- Make a pass for each item of a value, if it has items. -/
def passOverItems (pass : Value → Eval Bool) (subject : Value) : Eval Unit := do
  match subject with
  | .array id => passOverArray pass id
  | .text s => passOver pass (characters s)
  | v => raise "TypeError" ((← toText v) ++ " is not iterable")

/-- Go through the items of a value, or else its keys. Each pass has an environment of its own. -/
def eachLoop (isOf : Bool) (setUp : Value → Eval Env) (body : Env → Eval Unit)
    (subject : Value) : Eval Unit := do
  let pass (item : Value) : Eval Bool := do runBody (body (← setUp item))
  if isOf then passOverItems pass subject else passOver pass ((← get).keys subject)

/-! ### Pieces of expressions -/

/-- The value of a part that may be missing. -/
def optional (part : Node) (value : Eval Value) : Eval Value :=
  if part.isAbsent then return .undefined else value

/-- Does a loop go on? Without a test it always does. -/
def goesOn (test : Node) (value : Eval Value) : Eval Bool := do
  if test.isAbsent then return true else return (← value).truthy

/-- The key of a member: a computed one is the text of a value. -/
def memberKey (computed : Bool) (key : Node) (value : Eval Value) : Eval Key := do
  if computed then return .text (← toText (← value))
  else
    match key with
    | .literal c _ => return .ofConstant c
    | _ => fault .missingPart

/-- Does a logical operator ask for its right side, after this value on the left? -/
def needsBoth (op : Json) (v : Value) : Bool :=
  if op.isText "&&" then v.truthy
  else if op.isText "||" then !v.truthy
  else v.isNullish

/-- The new value of a compound assignment. Its logical forms may skip the right side. -/
def combine (op : Json) (old : Value) (value : Eval Value) : Eval Value := do
  match op with
  | .str "&&=" => if old.truthy then value else return old
  | .str "||=" => if old.truthy then return old else value
  | .str "??=" => if old.isNullish then value else return old
  | .str s =>
    let spelling := String.ofList s.toList.dropLast
    match BinaryOp.ofText? spelling with
    | some op => binary op old (← value)
    | none => fault (.unknownOperator (.str spelling))
  | _ => fault .wrongType

/-- The value that an assignment stores. -/
def assigned (op : Json) (old value : Eval Value) : Eval Value := do
  if op.isText "=" then value else combine op (← old) value

/-- The value before an update and the one after it. -/
def stepped (op : Json) (v : Value) : Eval (Value × Value) := do
  let old ← toNumber v
  let new ← compute (old.add (.int (if op.isText "++" then 1 else -1)))
  return (.number old, .number new)

/-- Call a value, if it is a function. -/
def call (apply : Apply) (fn this : Value) (args : List Value) : Eval Value := do
  match fn with
  | .function id => apply id this args
  | v => raise "TypeError" ((← toText v) ++ " is not a function")

/-- Make an object with a constructor. -/
def construct (apply : Apply) (fn : Value) (args : List Value) : Eval Value := do
  match fn with
  | .function id =>
    let object ← newRecord {}
    let result ← apply id object args
    return if result.isReference then result else object
  | v => raise "TypeError" ((← toText v) ++ " is not a constructor")

/-- A function made by an expression. One with a name sees itself under that name. -/
def newClosure (env : Env) (code : Code) : Eval Value := do
  match code.name with
  | none => newFunction (.closure env code)
  | some name =>
    let inner ← child env
    let fn ← newFunction (.closure inner code)
    declare inner.frame name.text fn false
    return fn

/-- Give a declared variable its first value. -/
def setInitial (env : Env) (keyword : Keyword) (name : String) (value : Value) : Eval Unit := do
  match (← get).own? env.frame name with
  | some id => modify (·.assign (.cell id) value)
  | none => declare env.frame name value (keyword == .constWord)

/-- Run a declarator. One of a `var` without a value does nothing. -/
def runDeclarator (env : Env) (keyword : Keyword) (name : String) (init : Node)
    (value : Eval Value) : Eval Unit :=
  if keyword == .varWord then
    if init.isAbsent then return else do write env name (← value)
  else do setInitial env keyword name (← optional init value)

/-- The environment for one pass of a loop over items, which a declaration heads. -/
def bindItem (env : Env) (keyword : Keyword) (name : String) (item : Value) : Eval Env := do
  if keyword == .varWord then
    write env name item
    return env
  else
    let inner ← child env
    declare inner.frame name item (keyword == .constWord)
    return inner

/-- The environment of a `catch` clause, with a variable for the exception if it names one. -/
def bindException (env : Env) (param : Option Ident) (v : Value) : Eval Env := do
  let inner ← child env
  match param with
  | some name =>
    declare inner.frame name.text v false
    return inner
  | none => return inner

/-- Is this the type of a name that stands for nothing? -/
def isUnboundType (env : Env) (op : Json) (operand : Node) : Eval Bool :=
  if op.isText "typeof" then
    match operand with
    | .lookup name => do return ((← get).find env name.text).isNone
    | _ => return false
  else return false

/-- Remove a property of a value. The key is asked for only if there are properties. -/
def remove (target : Value) (key : Eval Key) : Eval Value :=
  match target with
  | .record id => do
    deleteProperty id (← key)
    return .bool true
  | _ => return .bool true

/-- Set up the block of a case of a switch. -/
def enterCase (env : Env) (outer : Env) : Node → Eval Unit
  | .caseClause _ body _ | .block body _ | .program body _ | .function _ _ _ body _ _ =>
    enterBlock env (some outer) body
  | .forStmt .. | .forEachStmt .. | .whileStmt .. | .doWhileStmt .. | .withStmt ..
  | .catchClause .. => fault .wrongType
  | _ => fault .missingPart

/-- Set up the blocks of the cases of a switch. -/
def enterCases (env : Env) (outer : Env) : List Node → Eval Unit
  | [] => return
  | c :: rest => do
    enterCase env outer c
    enterCases env outer rest

/-- The place of the default among some cases. -/
def defaultCase (cases : List Node) : Option Nat :=
  cases.findIdx? fun
    | .caseClause test _ _ => test.isAbsent
    | _ => false

/-! ### Expressions and statements -/

mutual

/-- The value of an expression. -/
def eval (apply : Apply) (env : Env) (n : Node) : Eval Value := do
  match n with
  | .literal c _ => return .ofConstant c
  | .lookup name => read env name.text
  | .thisExpr _ => return env.frame.this
  | .arrayLit elements _ => newArray (← evalElements apply env elements).toArray
  | .objectLit properties _ => newRecord (← evalProperties apply env {} properties)
  | .member target key computed _ =>
    let target ← eval apply env target
    getProperty target (← memberKey computed key (eval apply env key))
  | .assign op (.lookup name) value _ =>
    let v ← assigned op (read env name.text) (eval apply env value)
    write env name.text v
    return v
  | .assign op (.member target key computed _) value _ =>
    let target ← eval apply env target
    let key ← memberKey computed key (eval apply env key)
    let v ← assigned op (getProperty target key) (eval apply env value)
    setProperty target key v
    return v
  | .update op (.lookup name) before _ =>
    let (old, new) ← stepped op (← read env name.text)
    write env name.text new
    return if before then new else old
  | .update op (.member target key computed _) before _ =>
    let target ← eval apply env target
    let key ← memberKey computed key (eval apply env key)
    let (old, new) ← stepped op (← getProperty target key)
    setProperty target key new
    return if before then new else old
  | .unary op operand _ =>
    if op.isText "delete" then evalDelete apply env operand
    else if ← isUnboundType env op operand then return .text "undefined"
    else
      match op.text?.bind UnaryOp.ofText? with
      | some f => unary f (← eval apply env operand)
      | none => fault (if op.isCompound then .wrongType else .unknownOperator op)
  | .binary op lhs rhs _ =>
    let a ← eval apply env lhs
    let b ← eval apply env rhs
    match op.text?.bind BinaryOp.ofText? with
    | some f => binary f a b
    | none => fault (if op.isCompound then .wrongType else .noRule)
  | .logical op lhs rhs _ =>
    let a ← eval apply env lhs
    if needsBoth op a then eval apply env rhs else return a
  | .conditional test yes no _ =>
    if (← eval apply env test).truthy then eval apply env yes else eval apply env no
  | .call (.member target key computed _) args _ =>
    let this ← eval apply env target
    let fn ← getProperty this (← memberKey computed key (eval apply env key))
    call apply fn this (← evalArgs apply env args)
  | .call fn args _ =>
    let fn ← eval apply env fn
    call apply fn .undefined (← evalArgs apply env args)
  | .newCall fn args _ =>
    let fn ← eval apply env fn
    construct apply fn (← evalArgs apply env args)
  | .sequence exprs _ => evalSequence apply env .undefined exprs
  | .function .expression name params body isArrow _ => newClosure env ⟨name, params, body, isArrow⟩
  | _ => fault .noRule

/-- Delete a member. Everything else counts as deleted. -/
def evalDelete (apply : Apply) (env : Env) (n : Node) : Eval Value := do
  match n with
  | .member target key computed _ =>
    let target ← eval apply env target
    remove target (memberKey computed key (eval apply env key))
  | _ => return .bool true

/-- The elements of an array literal. Holes are undefined. -/
def evalElements (apply : Apply) (env : Env) (ns : List Node) : Eval (List Value) := do
  match ns with
  | [] => return []
  | n :: rest =>
    let v ← optional n (eval apply env n)
    return v :: (← evalElements apply env rest)

/-- The values of some arguments. -/
def evalArgs (apply : Apply) (env : Env) (ns : List Node) : Eval (List Value) := do
  match ns with
  | [] => return []
  | n :: rest =>
    let v ← eval apply env n
    return v :: (← evalArgs apply env rest)

/-- A record with the properties of an object literal. -/
def evalProperties (apply : Apply) (env : Env) (r : Record) (ns : List Node) : Eval Record := do
  match ns with
  | [] => return r
  | .property key value _ :: rest =>
    let v ← eval apply env value
    let key := Key.ofConstant (.json key)
    if key.isUsable then evalProperties apply env (r.set key v) rest else fault .wrongType
  | _ :: _ => fault .missingPart

/-- The value of the last of some expressions. -/
def evalSequence (apply : Apply) (env : Env) (last : Value) (ns : List Node) : Eval Value := do
  match ns with
  | [] => return last
  | n :: rest => evalSequence apply env (← eval apply env n) rest

/-- Run a statement. -/
def exec (apply : Apply) (env : Env) (n : Node) : Eval Unit := do
  tick
  match n with
  | .emptyStmt _ | .function .declaration .. => return
  | .exprStmt expr _ => let _ ← eval apply env expr
  | .varDecl keyword declarators _ => execDeclarators apply env keyword declarators
  | .block body _ =>
    let inner ← child env
    enterBlock inner (some env) body
    execAll apply inner body
  | .ifStmt test yes no _ =>
    if (← eval apply env test).truthy then exec apply env yes
    else if no.isAbsent then return
    else exec apply env no
  | .whileStmt test body _ => whileLoop (eval apply env test) (exec apply env body)
  | .doWhileStmt body test _ => doWhileLoop (exec apply env body) (eval apply env test)
  | .forStmt init test update body _ =>
    let head ← child env
    let fresh ← (match init with
      | .varDecl keyword _ _ => do
        enterBlock head (some env) [init]
        exec apply head init
        return keyword == .letWord
      | .absent => return false
      | _ => do
        let _ ← eval apply head init
        return false : Eval Bool)
    forLoop fresh (fun env => goesOn test (eval apply env test)) (fun env => exec apply env body)
      (fun env => do let _ ← optional update (eval apply env update)) head
  | .forEachStmt head subject body isOf _ =>
    let subject ← eval apply env subject
    let setUp (item : Value) : Eval Env :=
      match head with
      | .varDecl keyword (.declarator name _ _ :: _) _ => bindItem env keyword name.text item
      | .varDecl _ [] _ => fault .noItem
      | .lookup name => do
        write env name.text item
        return env
      | .member target key computed _ => do
        let target ← eval apply env target
        setProperty target (← memberKey computed key (eval apply env key)) item
        return env
      | _ => fault .missingPart
    eachLoop isOf setUp (fun env => exec apply env body) subject
  | .returnStmt value _ => throw (.returned (← optional value (eval apply env value)))
  | .breakStmt _ => throw .broke
  | .continueStmt _ => throw .continued
  | .throwStmt value _ => throw (.thrown (← eval apply env value))
  | .tryStmt body handler finalizer _ =>
    let handle (v : Value) : Eval Unit :=
      match handler with
      | .absent => throw (.thrown v)
      | .catchClause param inside _ => do
        let inner ← bindException env param v
        match inside with
        | .block xs _ | .program xs _ | .function _ _ _ xs _ _ | .caseClause _ xs _ =>
          enterBlock inner (some env) xs
          execAll apply inner xs
        | .forStmt .. | .forEachStmt .. | .whileStmt .. | .doWhileStmt .. | .withStmt ..
        | .catchClause .. => fault .wrongType
        | _ => fault .missingPart
      | _ => fault .missingPart
    closing finalizer (catching (exec apply env body) handle) (exec apply env finalizer)
  | .switchStmt subject cases _ =>
    let subject ← eval apply env subject
    let inner ← child env
    enterCases inner env cases
    match (← findCase apply inner subject 0 cases) <|> defaultCase cases with
    | none => return
    | some start => breakable (execCases apply inner start cases)
  | .withStmt object body _ =>
    let subject ← eval apply env object
    exec apply (← childOf env subject) body
  | _ => fault .noRule

/-- Run some statements one after the other. -/
def execAll (apply : Apply) (env : Env) (ns : List Node) : Eval Unit := do
  match ns with
  | [] => return
  | n :: rest =>
    exec apply env n
    execAll apply env rest

/-- Run the declarators of a declaration. -/
def execDeclarators (apply : Apply) (env : Env) (keyword : Keyword) (ns : List Node) :
    Eval Unit := do
  match ns with
  | [] => return
  | .declarator name init _ :: rest =>
    runDeclarator env keyword name.text init (eval apply env init)
    execDeclarators apply env keyword rest
  | _ :: _ => fault .missingPart

/-- The place of the first case whose test equals the subject, counted from `place`. -/
def findCase (apply : Apply) (env : Env) (subject : Value) (place : Nat) (ns : List Node) :
    Eval (Option Nat) := do
  match ns with
  | [] => return none
  | .caseClause test _ _ :: rest =>
    if test.isAbsent then findCase apply env subject (place + 1) rest
    else if subject.strictEquals (← eval apply env test) then return some place
    else findCase apply env subject (place + 1) rest
  | _ :: _ => fault .missingPart

/-- Run the cases after the first `skip` ones. -/
def execCases (apply : Apply) (env : Env) (skip : Nat) (ns : List Node) : Eval Unit := do
  match skip, ns with
  | _, [] => return
  | skip + 1, _ :: rest => execCases apply env skip rest
  | 0, .caseClause _ body _ :: rest =>
    execAll apply env body
    execCases apply env 0 rest
  | 0, _ :: _ => fault .missingPart

end

end Eval

end ScopeLowering

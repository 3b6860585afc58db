import ScopeLowering.Json.Parser
import ScopeLowering.Syntax.Basic
import ScopeLowering.Syntax.NodeType

/-!
# Reading syntax trees from documents

A script arrives as an ESTree document. Reading it builds the tree from the leaves up and refuses
what lies outside the language that is analyzed, rather than guess at it.

## The model

A document is arbitrary JSON, so reading can fail in several ways, and the first failure met in
reading order is the one reported. `readNode` reads one node, given a reader for what is inside it;
`readWithin` ties the knot, with one unit of fuel for each level of the document.
-/

namespace ScopeLowering

/-- Why a document could not be read. -/
inductive ReadFault where
  /-- A construct outside the analyzed language, as the document names it. -/
  | unsupported (construct : Json) (span : Span)
  /-- The document is not shaped like a syntax tree. -/
  | notTree (why : String)
  /-- A node lacks a field it must have. -/
  | missingField (name : String)
  /-- A value without fields stands where a node is needed. -/
  | noFields
  /-- A value of the wrong type stands where it cannot be used. -/
  | wrongType
  /-- A name that is not a text, or an operator that does not belong to its node. -/
  | refused
  /-- A whole number with more digits than are converted. -/
  | tooManyDigits
  deriving Inhabited

namespace Document

/-- A reading of part of a document. -/
abbrev Read := Except ReadFault

/-! ### Fields and spans -/

/-- The value of a field, nothing if it is not there. -/
def get (fields : List (String × Json)) (name : String) : Json :=
  (Json.find? name fields).getD .null

/-- The value of a field that must be there. -/
def need (fields : List (String × Json)) (name : String) : Read Json :=
  match Json.find? name fields with
  | some v => pure v
  | none => throw (.missingField name)

/-- The fields of a value that must have some. -/
def fieldsOf (v : Json) : Read (List (String × Json)) :=
  match v with
  | .obj fields => pure fields
  | _ => throw .noFields

/-- What a field that should be a list is gone through as. A missing one is empty. -/
def listOf (fields : List (String × Json)) (name : String) : Read (List Json) :=
  match Json.find? name fields with
  | none => pure []
  | some v =>
    match v.members? with
    | some items => pure items
    | none => throw .wrongType

/-- The two offsets of a node: its `range`, or else its `start` and `end`. -/
def offsetsOf (fields : List (String × Json)) : Json × Json :=
  match get fields "range" with
  | .arr [l, r] => (l, r)
  | _ => (get fields "start", get fields "end")

/-- The span of a node. Both offsets must be there. -/
def spanOf (node : Json) : Read Span :=
  let found : Option Span := do
    let fields ← node.fields?
    let (l, r) := offsetsOf fields
    let l ← Offset.ofJson? l
    let r ← Offset.ofJson? r
    pure ⟨l, r⟩
  match found with
  | some span => pure span
  | none =>
    let shown := String.ofList (node.display.toList.take 60)
    throw (.notTree ("a node lacks source offsets: " ++ shown))

/-- The name under which a construct is reported, given the type of its node. -/
def constructOf (type : Json) (otherwise : Json) : Read Json :=
  match type with
  | .str s => pure (((unsupportedConstruct? s).map Json.str).getD otherwise)
  | .arr _ | .obj _ => throw .wrongType
  | _ => pure otherwise

/-! ### Parts of nodes -/

/-- A name that is declared or looked up. -/
def readIdent (node : Json) : Read Ident :=
  match node with
  | .obj fields => do
    let type := get fields "type"
    if type.isText "Identifier" then
      let name ← need fields "name"
      let span ← spanOf node
      match name with
      | .str text => pure ⟨text, span⟩
      | _ => throw .refused
    else
      let construct ← constructOf type type
      let span ← spanOf node
      throw (.unsupported construct span)
  | _ => do
    let _ ← spanOf node
    throw .noFields

/-- A list of statements. -/
def readStatements (read : Json → Read Node) (v : Json) : Read (List Node) :=
  match v with
  | .arr items => items.mapM read
  | _ => throw (.notTree "expected a list of statements")

/-- The left side of an assignment: a name or a member. -/
def readTarget (read : Json → Read Node) (node : Json) : Read Node := do
  let fields ← fieldsOf node
  let type := get fields "type"
  if type.isText "Identifier" then
    return .lookup (← readIdent node)
  else if type.isText "MemberExpression" then
    read node
  else
    let construct ← constructOf type (.str "destructuring")
    let span ← spanOf node
    throw (.unsupported construct span)

/-- The name of a node if it has one: an empty one counts as none. -/
def readOptionalIdent (fields : List (String × Json)) (name : String) : Read (Option Ident) :=
  let v := get fields name
  if v.truthy then return some (← readIdent v) else return none

/-- A function of any form. -/
def readFunction (read : Json → Read Node) (form : FunctionForm) (isArrow : Bool)
    (fields : List (String × Json)) (span : Span) : Read Node := do
  if (get fields "generator").truthy then
    throw (.unsupported (.str "generators") span)
  if (get fields "async").truthy || (get fields "isAsync").truthy then
    throw (.unsupported (.str "async functions") span)
  let name ← readOptionalIdent fields "id"
  let params ← (← listOf fields "params").mapM readIdent
  let body ← need fields "body"
  let inner ← fieldsOf body
  if (get inner "type").isText "BlockStatement" then
    let statements ← readStatements read (get inner "body")
    return .function form name params statements isArrow span
  else
    let expr ← read body
    return .function form name params [.returnStmt expr expr.span] isArrow span

/-- One name of a declaration. -/
def readDeclarator (read : Json → Read Node) (fields : List (String × Json)) (span : Span) :
    Read Node := do
  let name ← readIdent (← need fields "id")
  let init ← read (get fields "init")
  return .declarator name init span

/-- One case of a switch. -/
def readCase (read : Json → Read Node) (fields : List (String × Json)) (span : Span) :
    Read Node := do
  let test ← read (get fields "test")
  let body ← readStatements read (get fields "consequent")
  return .caseClause test body span

/-- The name of a property given by a literal. Whole doubles lose their point. -/
def literalKey (v : Json) : String :=
  match v with
  | .float x =>
    if Decimal.isWhole x then toString ((Decimal.truncate? x).getD 0) else v.plainText
  | _ => v.plainText

/-- One member of an object literal. -/
def readProperty (read : Json → Read Node) (fields : List (String × Json)) (span : Span) :
    Read Node := do
  let type := get fields "type"
  if !type.isText "Property" then
    let construct ← constructOf type type
    throw (.unsupported construct span)
  match Json.find? "kind" fields with
  | some kind =>
    if !kind.isText "init" then throw (.unsupported (.str "getters and setters") span)
  | none => pure ()
  if (get fields "computed").truthy then
    throw (.unsupported (.str "computed property names") span)
  let key ← fieldsOf (← need fields "key")
  let name ←
    if (get key "type").isText "Identifier" then need key "name"
    else pure (.str (literalKey (get key "value")))
  let value ← read (← need fields "value")
  return .property name value span

/-- The parts of a list, each of which must carry a span. -/
def readParts (part : List (String × Json) → Span → Read Node) (items : List Json) :
    Read (List Node) :=
  items.mapM fun item => do
    let span ← spanOf item
    part (← fieldsOf item) span

/-- A declaration statement. -/
def readDeclaration (read : Json → Read Node) (fields : List (String × Json)) (span : Span) :
    Read Node := do
  let kind := get fields "kind"
  match kind.text?.bind Keyword.ofText? with
  | none => throw (.unsupported (.str (kind.plainText ++ " declarations")) span)
  | some keyword =>
    let declarators ← readParts (readDeclarator read) (← listOf fields "declarations")
    return .varDecl keyword declarators span

/-- The head of a loop over items declares one name without a value, or assigns. -/
def readLoopHead (read : Json → Read Node) (left : Json) : Read Node := do
  let fields ← fieldsOf left
  if (get fields "type").isText "VariableDeclaration" then
    let head ← read left
    match head with
    | .varDecl _ [.declarator _ .absent _] _ => return head
    | _ =>
      let span ← spanOf left
      throw (.unsupported (.str "an initialized loop head") span)
  else readTarget read left

/-- A loop over items. -/
def readForEach (read : Json → Read Node) (isOf : Bool) (fields : List (String × Json))
    (span : Span) : Read Node := do
  let head ← readLoopHead read (← need fields "left")
  let subject ← read (← need fields "right")
  let body ← read (← need fields "body")
  return .forEachStmt head subject body isOf span

/-- A property access. The name after a point is a literal. -/
def readMember (read : Json → Read Node) (fields : List (String × Json)) (span : Span) :
    Read Node := do
  let target ← read (← need fields "object")
  if (get fields "computed").truthy then
    let key ← read (← need fields "property")
    return .member target key true span
  else
    let property ← need fields "property"
    match property with
    | .obj inner =>
      let name ← need inner "name"
      let at_ ← spanOf property
      return .member target (.literal (.json name) at_) false span
    | _ => throw .wrongType

/-- A jump, which may not name a label. -/
def readJump (jump : Span → Node) (fields : List (String × Json)) (span : Span) : Read Node :=
  if (get fields "label").truthy then throw (.unsupported (.str "labels") span)
  else pure (jump span)

/-- A logical operator, which must be one of three. -/
def readLogicalOp (op : Json) : Read Json :=
  match op with
  | .str s => if ["&&", "||", "??"].contains s then pure op else throw .refused
  | .arr _ | .obj _ => throw .wrongType
  | _ => throw .refused

/-! ### Nodes -/

/-- A node of a type that can be read, given its fields and a reader for what is inside it. -/
def readTyped (read : Json → Read Node) (type : NodeType) (fields : List (String × Json))
    (span : Span) : Read Node :=
  match type with
  | .emptyStatement | .debuggerStatement => pure (.emptyStmt span)
  | .expressionStatement => do
    return .exprStmt (← read (← need fields "expression")) span
  | .blockStatement => do
    return .block (← readStatements read (get fields "body")) span
  | .variableDeclaration => readDeclaration read fields span
  | .variableDeclarator => readDeclarator read fields span
  | .functionDeclaration => readFunction read .declaration false fields span
  | .ifStatement => do
    let test ← read (← need fields "test")
    let yes ← read (← need fields "consequent")
    let no ← read (get fields "alternate")
    return .ifStmt test yes no span
  | .forStatement => do
    let init ← read (get fields "init")
    let test ← read (get fields "test")
    let update ← read (get fields "update")
    let body ← read (get fields "body")
    return .forStmt init test update body span
  | .forInStatement => readForEach read false fields span
  | .forOfStatement => do
    if (get fields "await").truthy || (get fields "isAwait").truthy then
      throw (.unsupported (.str "async iteration") span)
    readForEach read true fields span
  | .whileStatement => do
    let test ← read (← need fields "test")
    let body ← read (← need fields "body")
    return .whileStmt test body span
  | .doWhileStatement => do
    let body ← read (← need fields "body")
    let test ← read (← need fields "test")
    return .doWhileStmt body test span
  | .returnStatement => do
    return .returnStmt (← read (get fields "argument")) span
  | .breakStatement => readJump .breakStmt fields span
  | .continueStatement => readJump .continueStmt fields span
  | .throwStatement => do
    return .throwStmt (← read (← need fields "argument")) span
  | .tryStatement => do
    let body ← read (← need fields "block")
    let handler ← read (get fields "handler")
    let finalizer ← read (get fields "finalizer")
    return .tryStmt body handler finalizer span
  | .catchClause => do
    let param ← readOptionalIdent fields "param"
    let body ← read (← need fields "body")
    return .catchClause param body span
  | .switchStatement => do
    let cases ← readParts (readCase read) (← listOf fields "cases")
    let subject ← read (← need fields "discriminant")
    return .switchStmt subject cases span
  | .switchCase => readCase read fields span
  | .withStatement => do
    let object ← read (← need fields "object")
    let body ← read (← need fields "body")
    return .withStmt object body span
  | .identifier => do
    return .lookup (← readIdent (.obj fields))
  | .literal =>
    let source := if (get fields "regex").truthy then "raw" else "value"
    pure (.literal (.json (get fields source)) span)
  | .thisExpression => pure (.thisExpr span)
  | .arrayExpression => do
    return .arrayLit (← (← listOf fields "elements").mapM read) span
  | .objectExpression => do
    return .objectLit (← readParts (readProperty read) (← listOf fields "properties")) span
  | .property => readProperty read fields span
  | .memberExpression => readMember read fields span
  | .assignmentExpression => do
    let op ← need fields "operator"
    let target ← readTarget read (← need fields "left")
    let value ← read (← need fields "right")
    return .assign op target value span
  | .updateExpression => do
    let op ← need fields "operator"
    let target ← readTarget read (← need fields "argument")
    return .update op target (get fields "prefix").truthy span
  | .unaryExpression => do
    let op ← need fields "operator"
    return .unary op (← read (← need fields "argument")) span
  | .binaryExpression => do
    let op ← need fields "operator"
    let lhs ← read (← need fields "left")
    let rhs ← read (← need fields "right")
    return .binary op lhs rhs span
  | .logicalExpression => do
    let op ← readLogicalOp (← need fields "operator")
    let lhs ← read (← need fields "left")
    let rhs ← read (← need fields "right")
    return .logical op lhs rhs span
  | .conditionalExpression => do
    let test ← read (← need fields "test")
    let yes ← read (← need fields "consequent")
    let no ← read (← need fields "alternate")
    return .conditional test yes no span
  | .callExpression => do
    if (get fields "optional").truthy then
      throw (.unsupported (.str "optional chaining") span)
    let callee ← read (← need fields "callee")
    let args ← (← listOf fields "arguments").mapM read
    return .call callee args span
  | .newExpression => do
    let callee ← read (← need fields "callee")
    let args ← (← listOf fields "arguments").mapM read
    return .newCall callee args span
  | .sequenceExpression => do
    return .sequence (← (← listOf fields "expressions").mapM read) span
  | .functionExpression => readFunction read .expression false fields span
  | .arrowFunctionExpression => readFunction read .expression true fields span

/-- A node, given a reader for what is inside it. Nothing reads as an absent node. -/
def readNode (read : Json → Read Node) (node : Json) : Read Node :=
  match node with
  | .null => pure .absent
  | .obj fields =>
    match Json.find? "type" fields with
    | none => throw (.notTree ("expected a node, got " ++ node.display))
    | some (.str type) => do
      let span ← spanOf node
      match unsupportedConstruct? type with
      | some construct => throw (.unsupported (.str construct) span)
      | none =>
        match NodeType.ofName? type with
        | some type => readTyped read type fields span
        | none => throw (.unsupported (.str type) span)
    | some _ => throw .wrongType
  | _ => throw (.notTree ("expected a node, got " ++ node.display))

/-- A node with at most so many levels inside it. -/
def readWithin : Nat → Json → Read Node
  | 0 => fun _ => throw (.notTree "the document is nested too deeply")
  | levels + 1 => readNode (readWithin levels)

/-- The script of a document's fields. -/
def readProgram (fields : List (String × Json)) : Read Node := do
  let type := get fields "type"
  if !type.isText "Program" then
    throw (.notTree ("the root is a " ++ type.display ++ ", not a Program"))
  if (get fields "sourceType").isText "module" then
    throw (.unsupported (.str "module syntax") (← spanOf (.obj fields)))
  let body ← readStatements (readWithin (Json.obj fields).height) (get fields "body")
  let span ← spanOf (.obj fields)
  return .program body span

/-- Read a script from a document that has been loaded. -/
def read (document : Json) : Read Node :=
  match document with
  | .obj fields => readProgram fields
  | _ => throw (.notTree "the top level is not an object")

/-- Read a script from the text of a document. -/
def readText (text : String) : Read Node :=
  match Json.parse text with
  | .ok document => read document
  | .error e =>
    if e.complaint = .tooManyDigits then throw .tooManyDigits
    else throw (.notTree ("not valid JSON: " ++ e.message text))

end Document

end ScopeLowering

import ScopeLowering.Json.Display

/-!
# Syntax trees

The scripts that are analyzed and run. Every node knows the stretch of source text it covers.

Identifiers occur in three roles, told apart by where they stand: the name of a declarator (or a
parameter, a catch parameter, a function name) declares; a `lookup` reads; a `lookup` that is the
target of an assignment or update writes.

## The model

A tree may come from any parser, so a node may stand anywhere, and `absent` stands where there is
none: for an array hole, a missing branch, or a part that a careless parser left out. Operators and
property names are kept as the document spells them. The analysis and the evaluator each say what
they accept.
-/

namespace ScopeLowering

/-! ### Places in the text -/

/-- A place in the source text. -/
inductive Offset where
  /-- So many characters from the start. -/
  | known (n : Int)
  /-- A truth value, which counts as zero or one. -/
  | flag (b : Bool)
  | missing
  deriving Repr, DecidableEq, Inhabited

namespace Offset

/-- The number of characters from the start of the text. -/
def value : Offset → Int
  | known n => n
  | flag b => if b then 1 else 0
  | missing => 0

/-- Does the offset name a place? -/
def isKnown : Offset → Bool
  | missing => false
  | _ => true

/-- The offset in a document. -/
def toJson : Offset → Json
  | known n => .int n
  | flag b => .bool b
  | missing => .null

/-- The offset that a document gives, if it is a number or a truth value. -/
def ofJson? : Json → Option Offset
  | .int n => some (known n)
  | .bool b => some (flag b)
  | _ => none

end Offset

/-- The stretch of source text from `start` up to `stop`. -/
structure Span where
  start : Offset
  stop : Offset
  deriving Repr, DecidableEq, Inhabited

namespace Span

/-- The span between two numbers. -/
def of (l r : Int) : Span := ⟨.known l, .known r⟩

/-- The offset of the first character. -/
def left (s : Span) : Int := s.start.value

/-- The offset just past the last character. -/
def right (s : Span) : Int := s.stop.value

/-- Are both ends known, in order and not before the start of the text? -/
def isSensible (s : Span) : Bool :=
  s.start.isKnown && s.stop.isKnown && (0 ≤ s.left && s.left ≤ s.right)

/-- Does this span lie within the other? -/
def isWithin (inner outer : Span) : Bool :=
  outer.left ≤ inner.left && inner.right ≤ outer.right

end Span

/-! ### Names and constants -/

/-- The occurrence of a name in the text. -/
structure Ident where
  text : String
  span : Span
  deriving Repr, DecidableEq, Inhabited

/-- The offset of the first character of a name. -/
def Ident.position (name : Ident) : Int := name.span.left

/-- What a literal stands for. -/
inductive Constant where
  | undefined
  /-- The content of a variable whose declaration has not run. -/
  | uninitialized
  | json (v : Json)
  deriving Inhabited

/-- The word that opens a declaration. -/
inductive Keyword where
  | varWord
  | letWord
  | constWord
  deriving Repr, DecidableEq, Inhabited

namespace Keyword

/-- The keyword as written. -/
def text : Keyword → String
  | varWord => "var"
  | letWord => "let"
  | constWord => "const"

/-- The keyword with this spelling. -/
def ofText? (s : String) : Option Keyword :=
  [varWord, letWord, constWord].find? (·.text == s)

/-- The number of characters of a keyword. -/
def length (k : Keyword) : Nat := k.text.length

end Keyword

/-- Is a function a statement of its own or part of an expression? -/
inductive FunctionForm where
  | declaration
  | expression
  deriving Repr, DecidableEq, Inhabited

/-! ### Nodes -/

/-- A piece of a script. -/
inductive Node where
  /-- Nothing, where a node might stand. -/
  | absent
  /-- A name by itself, which is neither expression nor statement. -/
  | ident (name : Ident)
  | literal (value : Constant) (span : Span)
  /-- A name used as an expression. -/
  | lookup (name : Ident)
  | thisExpr (span : Span)
  | arrayLit (elements : List Node) (span : Span)
  /-- One `key: value` of an object literal. -/
  | property (key : Json) (value : Node) (span : Span)
  | objectLit (properties : List Node) (span : Span)
  /-- `target.key`, where the key is a literal, or with brackets if `computed`. -/
  | member (target key : Node) (computed : Bool) (span : Span)
  /-- `target = value`, or a compound form such as `+=`. -/
  | assign (op : Json) (target value : Node) (span : Span)
  /-- `++` and `--`, before or after the target. -/
  | update (op : Json) (target : Node) (before : Bool) (span : Span)
  | unary (op : Json) (operand : Node) (span : Span)
  | binary (op : Json) (lhs rhs : Node) (span : Span)
  /-- `&&`, `||` and `??`, which may skip their right side. -/
  | logical (op : Json) (lhs rhs : Node) (span : Span)
  | conditional (test yes no : Node) (span : Span)
  | call (callee : Node) (args : List Node) (span : Span)
  | newCall (callee : Node) (args : List Node) (span : Span)
  | sequence (exprs : List Node) (span : Span)
  /-- A function of any form. The body of an arrow with an expression is one return. -/
  | function (form : FunctionForm) (name : Option Ident) (params : List Ident) (body : List Node)
      (isArrow : Bool) (span : Span)
  /-- One name of a declaration, with its initial value. -/
  | declarator (name : Ident) (init : Node) (span : Span)
  | varDecl (keyword : Keyword) (declarators : List Node) (span : Span)
  | exprStmt (expr : Node) (span : Span)
  | block (body : List Node) (span : Span)
  | emptyStmt (span : Span)
  | ifStmt (test yes no : Node) (span : Span)
  | forStmt (init test update body : Node) (span : Span)
  /-- `for (head in subject)`, or `of` if `isOf`. -/
  | forEachStmt (head subject body : Node) (isOf : Bool) (span : Span)
  | whileStmt (test body : Node) (span : Span)
  | doWhileStmt (body test : Node) (span : Span)
  | returnStmt (value : Node) (span : Span)
  | breakStmt (span : Span)
  | continueStmt (span : Span)
  | throwStmt (value : Node) (span : Span)
  | catchClause (param : Option Ident) (body : Node) (span : Span)
  | tryStmt (body handler finalizer : Node) (span : Span)
  /-- One case of a switch. The default has no test. -/
  | caseClause (test : Node) (body : List Node) (span : Span)
  | switchStmt (subject : Node) (cases : List Node) (span : Span)
  | withStmt (object body : Node) (span : Span)
  | program (body : List Node) (span : Span)
  deriving Inhabited

namespace Node

/-- The stretch of text a node covers. -/
def span : Node → Span
  | absent => ⟨.missing, .missing⟩
  | ident name | lookup name => name.span
  | literal _ s | thisExpr s | arrayLit _ s | property _ _ s | objectLit _ s | member _ _ _ s
  | assign _ _ _ s | update _ _ _ s | unary _ _ s | binary _ _ _ s | logical _ _ _ s
  | conditional _ _ _ s | call _ _ s | newCall _ _ s | sequence _ s | function _ _ _ _ _ s
  | declarator _ _ s | varDecl _ _ s | exprStmt _ s | block _ s | emptyStmt s | ifStmt _ _ _ s
  | forStmt _ _ _ _ s | forEachStmt _ _ _ _ s | whileStmt _ _ s | doWhileStmt _ _ s
  | returnStmt _ s | breakStmt s | continueStmt s | throwStmt _ s | catchClause _ _ s
  | tryStmt _ _ _ s | caseClause _ _ s | switchStmt _ _ s | withStmt _ _ s | program _ s => s

/-- Is there nothing here? -/
def isAbsent : Node → Bool
  | absent => true
  | _ => false

/-- The name that a declarator declares. -/
def declared? : Node → Option Ident
  | declarator name _ _ => some name
  | _ => none

/-- The name of a node's sort. -/
def sort : Node → String
  | absent => "NoneType"
  | ident _ => "Nom"
  | literal .. => "Literal"
  | lookup _ => "Lookup"
  | thisExpr _ => "This"
  | arrayLit .. => "ArrayLit"
  | property .. => "Property"
  | objectLit .. => "ObjectLit"
  | member .. => "Member"
  | assign .. => "Assign"
  | update .. => "Update"
  | unary .. => "UnaryExp"
  | binary .. => "BinExp"
  | logical .. => "ShortCutExp"
  | conditional .. => "Cond"
  | call .. => "Call"
  | newCall .. => "New"
  | sequence .. => "SequenceExp"
  | function .expression .. => "FunctionExpr"
  | function .declaration .. => "FunctionDecl"
  | declarator .. => "Declarator"
  | varDecl .. => "VarDecl"
  | exprStmt .. => "ExprStmt"
  | block .. => "Block"
  | emptyStmt _ => "Empty"
  | ifStmt .. => "If"
  | forStmt .. => "For"
  | forEachStmt .. => "ForIn"
  | whileStmt .. => "While"
  | doWhileStmt .. => "DoWhile"
  | returnStmt .. => "Return"
  | breakStmt _ => "Break"
  | continueStmt _ => "Continue"
  | throwStmt .. => "Throw"
  | catchClause .. => "Catch"
  | tryStmt .. => "Try"
  | caseClause .. => "Case"
  | switchStmt .. => "Switch"
  | withStmt .. => "With"
  | program .. => "Program"

end Node

/-! ### Nodes in messages -/

/-- A name as messages show it. -/
def Ident.display (name : Ident) : String :=
  "<Name " ++ Text.quoted name.text ++ " @" ++ toString name.position ++ ">"

/-- A constant as messages show it. -/
def Constant.display : Constant → String
  | undefined => "undefined"
  | uninitialized => "<uninitialized>"
  | json v => v.display

/-- A node as messages show it. -/
def Node.display : Node → String
  | ident name => name.display
  | literal value _ => "<lit " ++ value.display ++ ">"
  | lookup name => "<ref:" ++ name.text ++ ">"
  | n@(function _ name ..) =>
    "<" ++ n.sort ++ " " ++ (match name with | some i => i.text | none => "(anonymous)") ++ ">"
  | varDecl keyword declarators _ =>
    let names := declarators.filterMap fun d => d.declared?.map (·.text)
    "<" ++ keyword.text ++ " " ++ ", ".intercalate names ++ ">"
  | n => "<" ++ n.sort ++ ">"

end ScopeLowering

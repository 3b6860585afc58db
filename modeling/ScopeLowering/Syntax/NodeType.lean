/-!
# Node types of documents

The names under which an ESTree document files its nodes: those that can be read, and those that
name a construct outside the language that is analyzed.
-/

namespace ScopeLowering

/-- A type of node that can be read. -/
inductive NodeType where
  | emptyStatement
  | debuggerStatement
  | expressionStatement
  | blockStatement
  | variableDeclaration
  | variableDeclarator
  | functionDeclaration
  | ifStatement
  | forStatement
  | forInStatement
  | forOfStatement
  | whileStatement
  | doWhileStatement
  | returnStatement
  | breakStatement
  | continueStatement
  | throwStatement
  | tryStatement
  | catchClause
  | switchStatement
  | switchCase
  | withStatement
  | identifier
  | literal
  | thisExpression
  | arrayExpression
  | objectExpression
  | property
  | memberExpression
  | assignmentExpression
  | updateExpression
  | unaryExpression
  | binaryExpression
  | logicalExpression
  | conditionalExpression
  | callExpression
  | newExpression
  | sequenceExpression
  | functionExpression
  | arrowFunctionExpression
  deriving Repr, DecidableEq, Inhabited

namespace NodeType

/-- The name of a type in a document. -/
def name : NodeType → String
  | emptyStatement => "EmptyStatement"
  | debuggerStatement => "DebuggerStatement"
  | expressionStatement => "ExpressionStatement"
  | blockStatement => "BlockStatement"
  | variableDeclaration => "VariableDeclaration"
  | variableDeclarator => "VariableDeclarator"
  | functionDeclaration => "FunctionDeclaration"
  | ifStatement => "IfStatement"
  | forStatement => "ForStatement"
  | forInStatement => "ForInStatement"
  | forOfStatement => "ForOfStatement"
  | whileStatement => "WhileStatement"
  | doWhileStatement => "DoWhileStatement"
  | returnStatement => "ReturnStatement"
  | breakStatement => "BreakStatement"
  | continueStatement => "ContinueStatement"
  | throwStatement => "ThrowStatement"
  | tryStatement => "TryStatement"
  | catchClause => "CatchClause"
  | switchStatement => "SwitchStatement"
  | switchCase => "SwitchCase"
  | withStatement => "WithStatement"
  | identifier => "Identifier"
  | literal => "Literal"
  | thisExpression => "ThisExpression"
  | arrayExpression => "ArrayExpression"
  | objectExpression => "ObjectExpression"
  | property => "Property"
  | memberExpression => "MemberExpression"
  | assignmentExpression => "AssignmentExpression"
  | updateExpression => "UpdateExpression"
  | unaryExpression => "UnaryExpression"
  | binaryExpression => "BinaryExpression"
  | logicalExpression => "LogicalExpression"
  | conditionalExpression => "ConditionalExpression"
  | callExpression => "CallExpression"
  | newExpression => "NewExpression"
  | sequenceExpression => "SequenceExpression"
  | functionExpression => "FunctionExpression"
  | arrowFunctionExpression => "ArrowFunctionExpression"

/-- All types that can be read. -/
def all : List NodeType :=
  [emptyStatement, debuggerStatement, expressionStatement, blockStatement, variableDeclaration,
   variableDeclarator, functionDeclaration, ifStatement, forStatement, forInStatement,
   forOfStatement, whileStatement, doWhileStatement, returnStatement, breakStatement,
   continueStatement, throwStatement, tryStatement, catchClause, switchStatement, switchCase,
   withStatement, identifier, literal, thisExpression, arrayExpression, objectExpression, property,
   memberExpression, assignmentExpression, updateExpression, unaryExpression, binaryExpression,
   logicalExpression, conditionalExpression, callExpression, newExpression, sequenceExpression,
   functionExpression, arrowFunctionExpression]

/-- The type with this name. -/
def ofName? (s : String) : Option NodeType := all.find? (·.name == s)

end NodeType

/-- The construct behind a type of node that is known and not supported. -/
def unsupportedConstruct? (type : String) : Option String :=
  ([("ObjectPattern", "destructuring"),
    ("ArrayPattern", "destructuring"),
    ("AssignmentPattern", "default parameters"),
    ("RestElement", "rest parameters"),
    ("SpreadElement", "spread syntax"),
    ("ClassDeclaration", "classes"),
    ("ClassExpression", "classes"),
    ("Super", "classes"),
    ("TemplateLiteral", "template strings"),
    ("TaggedTemplateExpression", "template strings"),
    ("LabeledStatement", "labels"),
    ("YieldExpression", "generators"),
    ("AwaitExpression", "async functions"),
    ("MetaProperty", "meta-properties"),
    ("ImportDeclaration", "module syntax"),
    ("ImportExpression", "module syntax"),
    ("ExportNamedDeclaration", "module syntax"),
    ("ExportDefaultDeclaration", "module syntax"),
    ("ExportAllDeclaration", "module syntax")] : List (String × String)).lookup type

end ScopeLowering

import ScopeLowering.Syntax.Basic

/-!
# Bindings

Every declared name: where it is declared, which scope owns it, and every place where it is read or
written. Hazards are tags that gather on a binding as more is learned about it. They are not errors;
what they mean is decided later.
-/

namespace ScopeLowering

/-- The number of a scope in its graph. -/
abbrev ScopeId := Nat

/-- The number of a binding in its table. -/
abbrev BindingId := Nat

/-! ### Kinds and hazards -/

/-- How a name comes to be declared. -/
inductive BindingKind where
  /-- By a declaration statement. -/
  | declared (keyword : Keyword)
  | function
  | param
  | catchParam
  /-- The name of a function expression, seen from inside. -/
  | callee
  deriving Repr, DecidableEq, Inhabited

namespace BindingKind

/-- The name of a kind. -/
def text : BindingKind → String
  | declared k => k.text
  | function => "function"
  | param => "param"
  | catchParam => "catch"
  | callee => "callee"

/-- The kind with this name. -/
def ofText? (s : String) : Option BindingKind :=
  [declared .varWord, declared .letWord, declared .constWord, function, param, catchParam,
    callee].find? (·.text == s)

/-- Does a declaration of this kind belong to the whole enclosing function? -/
def isFunctionScoped : BindingKind → Bool
  | declared .varWord | function | param | callee => true
  | _ => false

end BindingKind

/-- What a reference does with its name. -/
inductive RefKind where
  | read
  | write
  | readwrite
  deriving Repr, DecidableEq, Inhabited

namespace RefKind

/-- The name of a kind of reference. -/
def text : RefKind → String
  | read => "read"
  | write => "write"
  | readwrite => "readwrite"

/-- The kind of reference with this name. -/
def ofText? (s : String) : Option RefKind := [read, write, readwrite].find? (·.text == s)

end RefKind

/-- A reason to think that a declaration may not move into its block. -/
inductive Hazard where
  /-- A reference outside the block would find no binding. -/
  | free
  /-- Another declaration claims the same name. -/
  | duplicateBlockBinding
  /-- The name is declared again for the same function. -/
  | mergedRedeclaration
  /-- A `with` statement or direct `eval` may reach the name. -/
  | dynamicScope
  /-- The declaration is the whole body of a statement, without braces. -/
  | unbracedDeclaration
  /-- A reference would find another binding. -/
  | scopeResolutionChange
  /-- A reference may run before the declaration. -/
  | temporalDeadZone
  /-- A read may see the value of the last iteration. -/
  | loopCarriedValue
  /-- A closure would capture a fresh variable in each iteration. -/
  | iterationSemanticsChange
  /-- The script reaches the global object, of which the variable is a property. -/
  | globalProperty
  deriving Repr, DecidableEq, Inhabited

namespace Hazard

/-- The name of a hazard. -/
def text : Hazard → String
  | free => "Free"
  | duplicateBlockBinding => "DuplicateBlockBinding"
  | mergedRedeclaration => "MergedRedeclaration"
  | dynamicScope => "DynamicScope"
  | unbracedDeclaration => "UnbracedDeclaration"
  | scopeResolutionChange => "ScopeResolutionChange"
  | temporalDeadZone => "TemporalDeadZoneHazard"
  | loopCarriedValue => "LoopCarriedValue"
  | iterationSemanticsChange => "IntentionalIterationSemanticsChange"
  | globalProperty => "GlobalProperty"

/-- All hazards. -/
def all : List Hazard :=
  [free, duplicateBlockBinding, mergedRedeclaration, dynamicScope, unbracedDeclaration,
   scopeResolutionChange, temporalDeadZone, loopCarriedValue, iterationSemanticsChange,
   globalProperty]

/-- The hazard with this name. -/
def ofText? (s : String) : Option Hazard := all.find? (·.text == s)

end Hazard

/-- Texts in the order of their characters, each once. -/
def sortTexts (texts : List String) : List String :=
  texts.eraseDups.mergeSort fun a b => decide (a ≤ b)

/-- The names of some hazards, in order. -/
def hazardNames (hazards : List Hazard) : List String := sortTexts (hazards.map (·.text))

/-! ### Sites, references and bindings -/

/-- A declaration statement: its keyword, the names it declares, and where it stands. -/
structure Statement where
  keyword : Keyword
  names : List String
  span : Span
  deriving Repr, DecidableEq, Inhabited

/-- The stretch of text that the keyword covers. -/
def Statement.keywordSpan (s : Statement) : Span :=
  ⟨s.span.start, .known (s.span.left + s.keyword.length)⟩

/-- A statement as messages show it. -/
def Statement.display (s : Statement) : String :=
  "<" ++ s.keyword.text ++ " " ++ ", ".intercalate s.names ++ ">"

/-- A place where a name is declared. -/
structure Site where
  name : Ident
  /-- The declaration statement, if it is one that declares. -/
  statement : Option Statement
  /-- The scope in which the declaration is written. -/
  scope : ScopeId
  hasInit : Bool
  /-- From where on the name holds its initial value. -/
  ready : Offset
  /-- Is the declaration the whole body of another statement? -/
  unbraced : Bool := false
  /-- Is it the head of a loop over items? -/
  forEach : Bool := false
  deriving Repr, DecidableEq, Inhabited

/-- Does the declaration give the name a value? -/
def Site.isInitialized (s : Site) : Bool := s.hasInit || s.forEach

/-- A place where a name is used. -/
structure Reference where
  name : Ident
  scope : ScopeId
  kind : RefKind
  deriving Repr, DecidableEq, Inhabited

namespace Reference

/-- Does the reference see the value of its name? -/
def isRead (r : Reference) : Bool := r.kind != .write

/-- Does the reference change the value of its name? -/
def isWrite (r : Reference) : Bool := r.kind != .read

/-- Where the reference stands. -/
def position (r : Reference) : Int := r.name.position

end Reference

/-- One declared name. -/
structure Binding where
  kind : BindingKind
  /-- The scope that owns the name. -/
  scope : ScopeId
  /-- The place of the first declaration. -/
  first : Site
  /-- Later declarations of the same binding. -/
  others : List Site := []
  references : List Reference := []
  hazards : List Hazard := []
  /-- The loop that a lowered declaration would be renewed by. -/
  loop : Option ScopeId := none
  deriving Repr, DecidableEq, Inhabited

namespace Binding

/-- The declared name. -/
def name (b : Binding) : String := b.first.name.text

/-- All declarations, in order. -/
def sites (b : Binding) : List Site := b.first :: b.others

/-- Only `var` bindings are up for lowering. -/
def isCandidate (b : Binding) : Bool := b.kind == .declared .varWord

/-- Is the value changed anywhere? -/
def isReassigned (b : Binding) : Bool := b.references.any (·.isWrite)

/-- The references that see the value. -/
def reads (b : Binding) : List Reference := b.references.filter (·.isRead)

/-- The binding with one more hazard. -/
def addHazard (h : Hazard) (b : Binding) : Binding :=
  if h ∈ b.hazards then b else { b with hazards := b.hazards ++ [h] }

/-- The binding with one more declaration. -/
def merge (s : Site) (b : Binding) : Binding := { b with others := b.others ++ [s] }

/-- The binding with one more reference. -/
def addReference (r : Reference) (b : Binding) : Binding :=
  { b with references := b.references ++ [r] }

/-- A binding as messages show it. -/
def display (b : Binding) : String := "\x7b" ++ b.kind.text ++ " " ++ b.name ++ "\x7d"

end Binding

/-! ### The table -/

/-- A declaration statement and the binding each of its declarators feeds. -/
structure StatementEntry where
  statement : Statement
  members : List BindingId
  deriving Repr, DecidableEq, Inhabited

/-- Everything learned about the names of a script, in the order of declaration. A binding that lost
a claim on its name is here too, though no scope owns it. -/
structure Table where
  bindings : List Binding := []
  /-- The references that find no binding. -/
  free : List Reference := []
  /-- The `var` statements with at least one declarator. -/
  statements : List StatementEntry := []
  deriving Repr, DecidableEq, Inhabited

namespace Table

/-- The numbers of the bindings. -/
def ids (t : Table) : List BindingId := List.range t.bindings.length

/-- The bindings with their numbers. -/
def numbered (t : Table) : List (BindingId × Binding) :=
  t.bindings.zipIdx.map fun (b, i) => (i, b)

/-- The bindings that are up for lowering, with their numbers. -/
def candidates (t : Table) : List (BindingId × Binding) :=
  t.numbered.filter fun (_, b) => b.isCandidate

/-- The numbers of the bindings with a given name. -/
def named (t : Table) (name : String) : List BindingId :=
  (t.numbered.filter fun (_, b) => b.name == name).map (·.1)

/-- The names that find no binding, in order. -/
def freeNames (t : Table) : List String := sortTexts (t.free.map (·.name.text))

/-- The table with one binding changed. -/
def modify (t : Table) (id : BindingId) (f : Binding → Binding) : Table :=
  { t with bindings := t.bindings.modify id f }

/-- References in the order of their places. -/
def inOrder (rs : List Reference) : List Reference :=
  rs.mergeSort fun a b => decide (a.position ≤ b.position)

/-- The table with every list of references in order. -/
def sortReferences (t : Table) : Table :=
  { t with
    bindings := t.bindings.map fun b => { b with references := inOrder b.references }
    free := inOrder t.free }

end Table

end ScopeLowering

import ScopeLowering.Scope.Binding
import ScopeLowering.Scope.Layer

/-!
# The graph of scopes

Scopes live in an arena and know their parent by number. Scope zero is the script's own. Looking a
name up climbs from a scope to its ancestors and takes the first binding found.
-/

namespace ScopeLowering

/-- What opens a scope. -/
inductive ScopeKind where
  | program
  | function
  | block
  | loop
  | catchClause
  deriving Repr, DecidableEq, Inhabited

/-- The name of a kind of scope. -/
def ScopeKind.text : ScopeKind → String
  | program => "Program"
  | function => "Function"
  | block => "Block"
  | loop => "Loop"
  | catchClause => "CatchClause"

/-- Is this a scope that hoisted declarations stop at? -/
def ScopeKind.isFunctionLevel : ScopeKind → Bool
  | program | function => true
  | _ => false

/-- What a function scope knows of its function. -/
structure Callable where
  form : FunctionForm
  isArrow : Bool
  /-- The name through which the function can be called: its own for a declaration, else the one it
  is stored in as soon as it is made. -/
  handle : Option Ident
  deriving Repr, DecidableEq, Inhabited

/-- A stretch of the script with names of its own. -/
structure Scope where
  kind : ScopeKind
  parent : Option ScopeId
  span : Span
  /-- The nearest function or script scope, this one included. -/
  function : ScopeId
  children : List ScopeId := []
  layer : Layer BindingId := {}
  callable : Option Callable := none
  /-- The spans of the cases, in the body of a switch. -/
  cases : List Span := []
  deriving Repr, Inhabited

/-- The case that holds an offset. -/
def Scope.caseAt (s : Scope) (offset : Int) : Option Nat :=
  s.cases.findIdx? fun c => c.left ≤ offset && offset < c.right

/-- The scopes of a script. -/
structure Graph where
  scopes : List Scope := []
  deriving Repr, Inhabited

namespace Graph

/-- A scope by number. -/
def scope? (g : Graph) (id : ScopeId) : Option Scope := g.scopes[id]?

/-- The number of scopes. -/
def size (g : Graph) : Nat := g.scopes.length

/-- The parent of a scope. -/
def parent? (g : Graph) (id : ScopeId) : Option ScopeId := (g.scope? id).bind (·.parent)

/-- The kind of a scope. -/
def kind? (g : Graph) (id : ScopeId) : Option ScopeKind := (g.scope? id).map (·.kind)

/-- The nearest function or script scope at or above a scope. -/
def nearestFunction (g : Graph) (id : ScopeId) : ScopeId :=
  match g.scope? id with
  | some s => s.function
  | none => id

/-- The graph with one scope changed. -/
def modify (g : Graph) (id : ScopeId) (f : Scope → Scope) : Graph :=
  ⟨g.scopes.modify id f⟩

/-- A scope and those above it, at most so many. -/
def climb (g : Graph) : Nat → ScopeId → List ScopeId
  | 0, _ => []
  | steps + 1, id =>
    id :: match g.parent? id with
      | some up => climb g steps up
      | none => []

/-- This scope, then its parent, and so on up to the script's own. -/
def ancestors (g : Graph) (id : ScopeId) : List ScopeId := g.climb (g.size + 1) id

/-- Is the first scope the second, or inside it? -/
def isWithin (g : Graph) (inner outer : ScopeId) : Bool := (g.ancestors inner).contains outer

/-- The scopes from one (included) up to another (excluded), or up to the root. -/
def path (g : Graph) (id stop : ScopeId) : List ScopeId :=
  (g.ancestors id).takeWhile (· != stop)

/-- The function scopes from one scope (included) up to another (excluded), innermost first. -/
def functionsBetween (g : Graph) (id stop : ScopeId) : List ScopeId :=
  (g.path id stop).filter fun s => g.kind? s == some .function

/-- The nearest loop scope from one scope (included) up to another (excluded). -/
def loopBetween (g : Graph) (id stop : ScopeId) : Option ScopeId :=
  (g.path id stop).find? fun s => g.kind? s == some .loop

/-- The binding of a name in one scope. -/
def here? (g : Graph) (name : String) (id : ScopeId) : Option BindingId :=
  (g.scope? id).bind (·.layer.find? name)

/-- The binding a name finds from a scope. -/
def lookup (g : Graph) (name : String) (id : ScopeId) : Option BindingId :=
  (g.ancestors id).findSome? (g.here? name)

/-- The binding a name would find if one of the bindings did not exist. -/
def lookupWithout (g : Graph) (name : String) (id : ScopeId) (excluded : BindingId) :
    Option BindingId :=
  (g.ancestors id).findSome? fun s => (g.here? name s).filter (· != excluded)

end Graph

end ScopeLowering

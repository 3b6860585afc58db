import ScopeLowering.Scope.Event

/-!
# From events to scopes and bindings

Going through the events of a script opens scopes, attaches every declaration to the scope that owns
it, and notes every use of a name. Names are resolved when all events are in, because a name may be
used in the text before its declaration.

The hoisting rule is in one place: `attachment`.
-/

namespace ScopeLowering

/-- The names that hand out the global object when nothing in the script declares them. -/
def globalObjectNames : List String := ["window", "self", "globalThis", "global", "frames"]

/-- The scopes and bindings of a script. -/
structure Scoping where
  graph : Graph
  table : Table
  deriving Repr, Inhabited

/-- What is known part way through the events. -/
structure Draft where
  graph : Graph := {}
  table : Table := {}
  /-- The innermost open scope. -/
  current : ScopeId := 0
  /-- The open declaration statements, innermost first, with their place in the table. -/
  statements : List (Statement × Option Nat) := []
  /-- The uses of names, not yet resolved. -/
  pending : List Reference := []
  /-- The `var` declarations, with the binding each one feeds. -/
  varSites : List (BindingId × Site) := []
  /-- The scopes in which any name may be reached. -/
  dynamic : List ScopeId := []
  /-- Calls to something named `eval`. -/
  evalCalls : List Reference := []
  /-- Does the script use `this` outside of any function of its own? -/
  globalReach : Bool := false
  deriving Repr, Inhabited

namespace Draft

/-! ### Scopes -/

/-- A new scope inside the current one, or at the top if there is none. -/
def openScope (d : Draft) (kind : ScopeKind) (span : Span) (callable : Option Callable)
    (cases : List Span) : Draft :=
  let id := d.graph.size
  let parent := if id == 0 then none else some d.current
  let scope : Scope :=
    { kind, parent, span, callable, cases,
      function := if kind.isFunctionLevel then id else d.graph.nearestFunction d.current }
  let adopted :=
    match parent with
    | some up => d.graph.modify up fun s => { s with children := s.children ++ [id] }
    | none => d.graph
  { d with graph := ⟨adopted.scopes ++ [scope]⟩, current := id }

/-- Back to the scope around the current one. -/
def closeScope (d : Draft) : Draft := { d with current := (d.graph.parent? d.current).getD 0 }

/-! ### Declarations -/

/-- The scope that owns a declaration: function-scoped ones skip past any block, loop or catch
clause, all others stay where they are written. -/
def attachment (d : Draft) (kind : BindingKind) : ScopeId :=
  if kind.isFunctionScoped then d.graph.nearestFunction d.current else d.current

/-- The table with one more binding. -/
def addBinding (d : Draft) (b : Binding) : Draft :=
  { d with table := { d.table with bindings := d.table.bindings ++ [b] } }

/-- One more hazard on a binding. -/
def tag (d : Draft) (id : BindingId) (h : Hazard) : Draft :=
  { d with table := d.table.modify id (Binding.addHazard h) }

/-- Declare a name, and say which binding it feeds. A function-scoped name may be declared again and
keeps its binding. Any other second claim is recorded on both sides, without picking a winner. -/
def declare (d : Draft) (kind : BindingKind) (site : Site) : Draft × BindingId :=
  let owner := d.attachment kind
  let fresh : Binding := { kind, scope := owner, first := site }
  let id := d.table.bindings.length
  match d.graph.here? fresh.name owner with
  | none =>
    let graph := d.graph.modify owner fun s =>
      { s with layer := (s.layer.define? fresh.name id).getD s.layer }
    (({ d with graph } : Draft).addBinding fresh, id)
  | some old =>
    let oldKind := (d.table.bindings[old]?.map (·.kind)).getD .param
    if kind.isFunctionScoped && oldKind.isFunctionScoped then
      let merged : Draft := { d with table := d.table.modify old (Binding.merge site) }
      (if oldKind == .declared .varWord then merged.tag old .mergedRedeclaration else merged, old)
    else
      (((d.tag old .duplicateBlockBinding).addBinding fresh).tag id .duplicateBlockBinding, id)

/-- Remember which binding a declarator of the innermost statement feeds. -/
def noteStatement (d : Draft) (id : BindingId) : Draft :=
  match d.statements with
  | [] => d
  | (_, some i) :: _ =>
    let entries := d.table.statements.modify i fun e => { e with members := e.members ++ [id] }
    { d with table := { d.table with statements := entries } }
  | (s, none) :: rest =>
    let i := d.table.statements.length
    { d with
      table := { d.table with statements := d.table.statements ++ [⟨s, [id]⟩] }
      statements := (s, some i) :: rest }

/-- Declare a name of a declaration statement. -/
def declareVariable (d : Draft) (kind : BindingKind) (site : Site) : Draft :=
  let (d, id) := d.declare kind site
  let d := if site.unbraced then d.tag id .unbracedDeclaration else d
  if kind == .declared .varWord then
    let d := d.noteStatement id
    { d with varSites := d.varSites ++ [(id, site)] }
  else d

/-! ### Going through the events -/

/-- Does `this` in the current scope mean the script's own? Arrows borrow it from outside. -/
def thisIsGlobal (d : Draft) : Bool :=
  !(d.graph.ancestors d.current).any fun id =>
    match d.graph.scope? id with
    | some s => s.kind == .function && !(s.callable.any (·.isArrow))
    | none => false

/-- What one event adds. -/
def step (d : Draft) : Event → Except ScopeFault Draft
  | .enter kind span callable cases => .ok (d.openScope kind span callable cases)
  | .leave => .ok d.closeScope
  | .openStatement s => .ok { d with statements := (s, none) :: d.statements }
  | .closeStatement => .ok { d with statements := d.statements.tail }
  | .declare kind name statement hasInit ready unbraced forEach =>
    let site : Site := { name, statement, scope := d.current, hasInit, ready, unbraced, forEach }
    .ok (d.declareVariable kind site)
  | .callee name ready problem =>
    -- something closer may already hold the name
    if (d.graph.here? name.text d.current).isSome then .ok d
    else
      match problem with
      | some f => .error f
      | none =>
        let site : Site :=
          { name, statement := none, scope := d.current, hasInit := true, ready }
        .ok (d.declareVariable .callee site)
  | .refer name kind => .ok { d with pending := d.pending ++ [⟨name, d.current, kind⟩] }
  | .evalCall name => .ok { d with evalCalls := d.evalCalls ++ [⟨name, d.current, .read⟩] }
  | .dynamic => .ok { d with dynamic := d.dynamic ++ [d.current] }
  | .thisUse => .ok (if d.thisIsGlobal then { d with globalReach := true } else d)
  | .fault f => .error f

/-- What a list of events adds. -/
def steps (d : Draft) (events : List Event) : Except ScopeFault Draft := events.foldlM step d

/-! ### After the last event -/

/-- Hazards of a `var` that hoists past scopes which hold the same name. -/
def checkHoisting (d : Draft) : Draft :=
  d.varSites.foldl (fun d (id, site) =>
    let owner := (d.table.bindings[id]?.map (·.scope)).getD 0
    let name := (d.table.bindings[id]?.map (·.name)).getD ""
    (d.graph.path site.scope owner).foldl (fun d s =>
      match d.graph.here? name s with
      | none => d
      | some other =>
        if (d.table.bindings[other]?.map (·.kind)) == some .catchParam then
          d.tag id .scopeResolutionChange
        else (d.tag id .duplicateBlockBinding).tag other .duplicateBlockBinding) d) d

/-- Every use of a name goes to the binding it finds, or to the free ones. -/
def resolve (d : Draft) : Draft :=
  d.pending.foldl (fun d r =>
    match d.graph.lookup r.name.text r.scope with
    | some id => { d with table := d.table.modify id (Binding.addReference r) }
    | none => { d with table := { d.table with free := d.table.free ++ [r] } }) d

/-- The scopes in which any name may be reached: those of `with` statements, and those that call an
`eval` the script does not declare. -/
def dynamicScopes (d : Draft) : List ScopeId :=
  let unbound := d.evalCalls.filter fun r => (d.graph.lookup r.name.text r.scope).isNone
  d.dynamic ++ unbound.map (·.scope)

/-- Hazards of the bindings that a dynamic scope may reach. -/
def taintDynamic (d : Draft) : Draft :=
  let reach := d.dynamicScopes
  let taint (b : Binding) : Binding :=
    if reach.any fun s => d.graph.isWithin s b.scope then b.addHazard .dynamicScope else b
  { d with table := { d.table with bindings := d.table.bindings.map taint } }

/-- Hazards of the script's own variables, once it lays hands on the global object. -/
def markGlobals (d : Draft) : Draft :=
  if d.globalReach || d.table.free.any (fun r => globalObjectNames.contains r.name.text) then
    let mark (b : Binding) : Binding :=
      if b.isCandidate && b.scope == 0 then b.addHazard .globalProperty else b
    { d with table := { d.table with bindings := d.table.bindings.map mark } }
  else d

/-- The finished scopes and bindings. -/
def finish (d : Draft) : Scoping :=
  let d := d.checkHoisting.resolve.taintDynamic.markGlobals
  ⟨d.graph, d.table.sortReferences⟩

end Draft

/-- The scopes and bindings of a script. -/
def Scoping.ofScript (script : Node) : Except ScopeFault Scoping :=
  match script with
  | .program .. => (Draft.steps {} (Event.ofScript script)).map Draft.finish
  | _ =>
    .error (.malformed ("the root of the tree must be a Program, not " ++ script.sort) none)

end ScopeLowering

import ScopeLowering.Scope.Builder

/-!
# Captures, and what would go wrong in a block

For every `var` the question is the same: were it declared for its block alone, right where it
stands, would any reference see something different?

* A reference outside the block would find another binding, or none.
* A reference that can run before the declaration would find the variable not yet set up.
* A read at the top of a loop's body would no longer see the value of the last iteration.
* A closure made in a loop would capture a fresh variable in each iteration.

Nothing here fails. No captures is a perfectly good answer.
-/

namespace ScopeLowering

/-- A binding reached from inside a function. -/
structure CaptureEdge where
  binding : BindingId
  /-- The outermost function between the scope of the binding and the reference. -/
  closure : ScopeId
  /-- `read` or `write`. -/
  kind : RefKind
  deriving Repr, DecidableEq, Inhabited

/-- A point in the text at which code may run first, or one before or after all of them. -/
inductive Moment where
  | earliest
  | point (n : Int)
  | never
  deriving Repr, DecidableEq, Inhabited

namespace Moment

/-- Is the moment before an offset? -/
def isBefore (m : Moment) (offset : Int) : Bool :=
  match m with
  | earliest => true
  | point n => n < offset
  | never => false

/-- The earlier of two moments. -/
def first : Moment → Moment → Moment
  | earliest, _ | _, earliest => earliest
  | never, m | m, never => m
  | point a, point b => point (min a b)

end Moment

/-- The case of a switch that holds a moment. -/
def Scope.caseAtMoment (s : Scope) : Moment → Option Nat
  | .point n => s.caseAt n
  | _ => none

namespace Scoping

/-! ### Edges -/

/-- The edges of a binding, in the order of its references. -/
def edgesOf (s : Scoping) (id : BindingId) : List CaptureEdge :=
  match s.table.bindings[id]? with
  | none => []
  | some b =>
    b.references.filterMap fun r =>
      (s.graph.functionsBetween r.scope b.scope).getLast?.map fun closure =>
        ⟨id, closure, if r.isWrite then .write else .read⟩

/-- The edges of all bindings. -/
def edges (s : Scoping) : List CaptureEdge := s.table.ids.flatMap s.edgesOf

/-! ### When code can run -/

/-- Where the function of a scope comes into being: a declaration at the start of the scope around
it, an expression where it stands. -/
def creation (g : Graph) (id : ScopeId) : Int :=
  match g.scope? id with
  | none => 0
  | some s =>
    match s.callable, s.parent.bind g.scope? with
    | some ⟨.declaration, _, _⟩, some outer => outer.span.left
    | _, _ => s.span.left

/-- The binding through which the function of a scope can be called. -/
def handleBinding (g : Graph) (id : ScopeId) : Option BindingId := do
  let s ← g.scope? id
  let name ← s.callable.bind (·.handle)
  let outer ← s.parent
  g.lookup name.text outer

/-- The earliest offset within a region at which the code at some place could run. Code directly in
the region runs where it stands. Code inside a function runs no earlier than the function can first
be called: through its handle, if it has one and comes into being before `ready`. The bindings being
visited are not followed again. -/
def effectivePosition (s : Scoping) (region : ScopeId) (ready : Int) :
    Nat → List BindingId → ScopeId → Int → Moment
  | fuel, visiting, scope, offset =>
    match (s.graph.functionsBetween scope region).getLast? with
    | none => .point offset
    | some f =>
      let made := creation s.graph f
      if made ≥ ready then .point made
      else
        match handleBinding s.graph f with
        | none => .point made
        | some id =>
          if visiting.contains id then .never
          else
            match fuel with
            | 0 => .never
            | fuel + 1 =>
              let reads := (s.table.bindings[id]?.map (·.reads)).getD []
              reads.foldl (fun m r =>
                m.first
                  (if s.graph.isWithin r.scope region then
                    effectivePosition s region ready fuel (id :: visiting) r.scope r.position
                  else .earliest)) .never

/-! ### Hazards -/

/-- Could the reference run before the declaration, or skip it? -/
def isTooEarly (s : Scoping) (b : Binding) (r : Reference) : Bool :=
  let site := b.first
  let moment :=
    s.effectivePosition site.scope site.ready.value s.table.bindings.length [] r.scope r.position
  moment.isBefore site.ready.value ||
    match s.graph.scope? site.scope with
    | some home =>
      -- control can jump straight into any case, past a declaration in another
      !home.cases.isEmpty &&
        home.caseAtMoment moment != home.caseAt site.name.position
    | none => false

/-- Is the reference inside a function that the binding is outside of? -/
def isCaptured (s : Scoping) (b : Binding) (r : Reference) : Bool :=
  !(s.graph.functionsBetween r.scope b.scope).isEmpty

/-- Where would the reference go, were the binding confined to its block? -/
def stray (s : Scoping) (id : BindingId) (b : Binding) (r : Reference) : Hazard :=
  match s.graph.lookupWithout b.name r.scope id with
  | none => .free
  | some _ => .scopeResolutionChange

/-- The hazards that a binding's references show. -/
def captureHazards (s : Scoping) (id : BindingId) (b : Binding) : List Hazard :=
  let home := b.first.scope
  let covered := b.references.filter fun r => s.graph.isWithin r.scope home
  let strays := b.references.filter fun r => !s.graph.isWithin r.scope home
  let direct := covered.filter fun r => r.isRead && !s.isCaptured b r
  strays.map (s.stray id b) ++
    (if covered.any (s.isTooEarly b) then [.temporalDeadZone] else []) ++
    match s.graph.loopBetween home b.scope with
    | none => []
    | some loop =>
      (if loop != home && !b.first.isInitialized && !direct.isEmpty then [.loopCarriedValue]
        else []) ++
      if covered.any (s.isCaptured b) then [.iterationSemanticsChange] else []

/-- A binding with its loop and the hazards of its references. -/
def inspect (s : Scoping) (id : BindingId) (b : Binding) : Binding :=
  if b.isCandidate then
    (s.captureHazards id b).foldl (fun b h => b.addHazard h)
      { b with loop := s.graph.loopBetween b.first.scope b.scope }
  else b

/-- The bindings with all their hazards. -/
def withCaptures (s : Scoping) : Scoping :=
  let bindings := s.table.numbered.map fun (id, b) => s.inspect id b
  { s with table := { s.table with bindings } }

end Scoping

end ScopeLowering

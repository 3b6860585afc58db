import ScopeLowering.Scope.Capture
import ScopeLowering.Scope.Plan

/-!
# The analysis of a script

From the tree to the scopes and bindings, to the hazards, the decisions and the plan of edits.
-/

namespace ScopeLowering

/-- Why a script has no analysis. -/
inductive AnalysisFault where
  | scope (f : ScopeFault)
  | plan (d : Defect)
  deriving Repr, Inhabited

/-- Everything learned about a script. -/
structure Analysis where
  scoping : Scoping
  edges : List CaptureEdge
  decisions : Decisions
  edits : List Edit
  deriving Repr, Inhabited

namespace Analysis

/-- Analyze a script. -/
def ofScript (script : Node) (o : Options) : Except AnalysisFault Analysis :=
  match Scoping.ofScript script with
  | .error f => .error (.scope f)
  | .ok scoping =>
    let scoping := scoping.withCaptures
    let decisions := classify scoping.table o
    match emitPlan scoping.table decisions with
    | .error d => .error (.plan d)
    | .ok edits => .ok ⟨scoping, scoping.edges, decisions, edits⟩

/-- The bindings of the script. -/
def table (a : Analysis) : Table := a.scoping.table

/-- The decisions with their bindings, in the order in which the names are first declared. -/
def decisionsInOrder (a : Analysis) : List (Binding × Decision) :=
  let found := a.decisions.filterMap fun (id, d) => a.table.bindings[id]?.map (·, d)
  found.mergeSort fun x y => Decidable.decide (x.1.first.name.position ≤ y.1.first.name.position)

/-- The decisions on the `var` bindings with a given name. -/
def decisionsNamed (a : Analysis) (name : String) : List (Binding × Decision) :=
  a.decisions.filterMap fun (id, d) =>
    match a.table.bindings[id]? with
    | some b => if b.name == name then some (b, d) else none
    | none => none

end Analysis

end ScopeLowering

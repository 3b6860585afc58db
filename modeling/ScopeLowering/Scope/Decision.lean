import ScopeLowering.Scope.Binding

/-!
# Decisions

One decision for every `var` binding. The rules have a fixed order and the first that applies wins,
so that a binding with several hazards is kept for the most fundamental one. Then the bindings that
share a statement are reconciled, because a statement has one keyword.
-/

namespace ScopeLowering

/-- What becomes of a declaration. -/
inductive Verdict where
  | toBlockConst
  | toBlockLet
  | keep
  deriving Repr, DecidableEq, Inhabited

namespace Verdict

/-- The name of a verdict. -/
def text : Verdict → String
  | toBlockConst => "ToBlockConst"
  | toBlockLet => "ToBlockLet"
  | keep => "KeepFunctionScoped"

/-- The verdict with this name. -/
def ofText? (s : String) : Option Verdict := [toBlockConst, toBlockLet, keep].find? (·.text == s)

/-- The keyword that a verdict gives to a statement. -/
def keyword : Verdict → Keyword
  | toBlockConst => .constWord
  | toBlockLet => .letWord
  | keep => .varWord

end Verdict

/-- Why a decision is what it is. -/
inductive Reason where
  | hazard (h : Hazard)
  | neverReassigned
  | reassigned
  | uninitialized
  | sharedDeclaration
  /-- A reason given from outside. -/
  | stated (text : String)
  deriving Repr, DecidableEq, Inhabited

/-- The name of a reason. -/
def Reason.text : Reason → String
  | hazard h => h.text
  | neverReassigned => "NeverReassigned"
  | reassigned => "Reassigned"
  | uninitialized => "Uninitialized"
  | sharedDeclaration => "SharedDeclaration"
  | stated text => text

/-- What becomes of one binding, and why. -/
structure Decision where
  verdict : Verdict
  reason : Reason
  /-- All hazards of the binding. -/
  hazards : List Hazard
  /-- The hazards that were accepted. -/
  accepted : List Hazard := []
  deriving Repr, DecidableEq, Inhabited

namespace Decision

/-- Is the declaration changed? -/
def isLowered (d : Decision) : Bool := d.verdict != .keep

/-- The keyword that the decision asks for. -/
def keyword (d : Decision) : Keyword := d.verdict.keyword

/-- The decision with another verdict. What was accepted no longer counts when the declaration is
kept. -/
def demote (d : Decision) (verdict : Verdict) (reason : Reason) : Decision :=
  { d with verdict, reason, accepted := if verdict = .keep then [] else d.accepted }

end Decision

/-- What may be asked of the analysis. -/
structure Options where
  /-- Lower loop variables even where closures capture them, so that each iteration has its own. -/
  allowLoopCaptureRebinding : Bool := false
  deriving Repr, DecidableEq, Inhabited

/-- The hazards that settle the matter, the most fundamental first. -/
def blockers : List Hazard :=
  [.free, .duplicateBlockBinding, .mergedRedeclaration, .dynamicScope, .globalProperty,
   .unbracedDeclaration, .scopeResolutionChange, .temporalDeadZone, .loopCarriedValue]

/-- The decision on a binding by itself. -/
def Binding.decision (b : Binding) (o : Options) : Decision :=
  let hazards := b.hazards
  match blockers.find? (hazards.contains ·) with
  | some h => ⟨.keep, .hazard h, hazards, []⟩
  | none =>
    let iteration := hazards.contains .iterationSemanticsChange
    if iteration && !o.allowLoopCaptureRebinding then
      ⟨.keep, .hazard .iterationSemanticsChange, hazards, []⟩
    else
      let accepted := if iteration then [.iterationSemanticsChange] else []
      if b.isReassigned then ⟨.toBlockLet, .reassigned, hazards, accepted⟩
      else if !b.first.isInitialized then ⟨.toBlockLet, .uninitialized, hazards, accepted⟩
      else ⟨.toBlockConst, .neverReassigned, hazards, accepted⟩

/-! ### All decisions -/

/-- Decisions by the number of their binding. -/
abbrev Decisions := List (BindingId × Decision)

namespace Decisions

/-- The decision on a binding. -/
def find? (ds : Decisions) (id : BindingId) : Option Decision := ds.lookup id

/-- The decisions with one of them replaced. -/
def replace (ds : Decisions) (id : BindingId) (d : Decision) : Decisions :=
  ds.map fun (i, old) => if i == id then (i, d) else (i, old)

/-- The decisions without one of them. -/
def drop (ds : Decisions) (id : BindingId) : Decisions := ds.filter (·.1 != id)

end Decisions

/-- The verdict that the members of a statement must share, if they do not already. A member without
a decision, or one that is kept, keeps them all; members with two verdicts take the weaker. -/
def commonVerdict (verdicts : List (Option Verdict)) : Option Verdict :=
  if verdicts.any (fun v => v == none || v == some .keep) then some .keep
  else if verdicts.eraseDups.length > 1 then some .toBlockLet
  else none

/-- The decisions after one statement's members are reconciled. -/
def reconcile (ds : Decisions) (entry : StatementEntry) : Decisions :=
  let before := entry.members.map fun id => (id, ds.find? id)
  match commonVerdict (before.map fun (_, d) => d.map (·.verdict)) with
  | none => ds
  | some target =>
    before.foldl (fun ds (id, d) =>
      match d with
      | some d =>
        if d.verdict ≠ target ∧ d.verdict ≠ .keep then
          ds.replace id (d.demote target .sharedDeclaration)
        else ds
      | none => ds) ds

/-- Reconcile every statement, until nothing changes or the passes are used up. -/
def reconcileAll (statements : List StatementEntry) : Nat → Decisions → Decisions
  | 0, ds => ds
  | passes + 1, ds =>
    let next := statements.foldl reconcile ds
    if next = ds then ds else reconcileAll statements passes next

/-- The decision on every candidate by itself. -/
def decideEach (t : Table) (o : Options) : Decisions :=
  t.candidates.map fun (id, b) => (id, b.decision o)

/-- The decisions on a table. Each pass lowers a verdict, and each verdict can be lowered twice. -/
def classify (t : Table) (o : Options) : Decisions :=
  let ds := decideEach t o
  reconcileAll t.statements (2 * ds.length + 1) ds

end ScopeLowering

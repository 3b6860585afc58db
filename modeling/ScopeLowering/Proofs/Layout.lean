import ScopeLowering.Proofs.Phrases
import ScopeLowering.Scope.Event

/-!
# How the events of a node are laid out

The events of a node are events of its own and those of its parts, one piece after the other
(`Event.ofNode_eq_layout`). So a statement about the events of trees has to be checked for the
pieces only, with no recursion (`Node.byParts`).

## The model

`Event.layout` lists the pieces. The parts of a node stand in its slots, but for two sorts of nodes:
the initial values of declarators are parts of the statement, and what stands in the block of a
`catch` clause is part of the clause.
-/

namespace ScopeLowering

/-- What passes from the parts of a node to the node holds of every node. -/
@[elab_as_elim] theorem Node.byParts {P : Node → Prop}
    (step : ∀ n, (∀ c ∈ n.slots, P c) → (∀ c ∈ n.slots, ∀ d ∈ c.slots, P d) → P n) (n : Node) :
    P n := by
  suffices h : P n ∧ ∀ c ∈ n.slots, P c from h.1
  induction n using Node.bySlots with
  | step n ih =>
    have hslots : ∀ c ∈ n.slots, P c := fun c hc => (ih c hc).1
    exact ⟨step n hslots fun c hc => (ih c hc).2, hslots⟩

/-- Where the subject of the loop ends, if this is the role of a loop's head. -/
def Role.headEnd? : Role → Option (Option Offset)
  | eachHead stop => some stop
  | _ => none

def Role.isSoleBody : Role → Bool
  | soleBody => true
  | _ => false

namespace Event

/-- A piece of the events of a node: events of its own, or those of some parts. -/
inductive Piece where
  | own (es : List Event)
  | part (p : Place) (role : Role) (c : Node)
  | optional (p : Place) (role : Role) (c : Node)
  | parts (p : Place) (cs : List Node)
  | declarators (p : Place) (st : Statement) (unbraced : Bool) (each : Option Offset)
      (ds : List Node)

@[simp] def Piece.events : Piece → List Event
  | own es => es
  | part p role c => ofNode p role c
  | optional p role c => if c.isAbsent then [] else ofNode p role c
  | parts p cs => ofNodes p cs
  | declarators p st unbraced each ds => ofDeclarators p st unbraced each ds

/-- The nodes whose events a piece holds. -/
@[simp] def Piece.nodes : Piece → List Node
  | own _ => []
  | part _ _ c | optional _ _ c => [c]
  | parts _ cs | declarators _ _ _ _ cs => cs

/-- The events of the name of a `catch` clause, if it has one. -/
@[simp] def ofParam (param : Option Ident) (ready : Offset) (outer : Node) : List Event :=
  match param with
  | some i => declareName .catchParam i ready outer
  | none => []

/-- The events of the name of a function declaration. -/
@[simp] def ofOwnName (form : FunctionForm) (name : Option Ident) (ready : Offset) (outer : Node) :
    List Event :=
  match form, name with
  | .declaration, some i => declareName .function i ready outer
  | .declaration, none => [fault .noPart]
  | .expression, _ => []

/-- The event of the own name of a function expression, if it has one. -/
@[simp] def ofCallee (form : FunctionForm) (name : Option Ident) (ready : Offset) (outer : Node) :
    List Event :=
  match form, name with
  | .expression, some i => [callee i ready (misplaced? (.ident i) outer)]
  | _, _ => []

/-- The pieces of the body of a `catch` clause. -/
@[simp] def clauseBody (body : Node) (ready : Offset) (outer : Node) : List Piece :=
  match body with
  | .block xs _ | .program xs _ | .function _ _ _ xs _ _ | .caseClause _ xs _ =>
    [.own (check body outer), .parts ⟨body, ready⟩ xs]
  | .absent => [.own [fault .noPart]]
  | .forStmt .. | .forEachStmt .. | .whileStmt .. | .doWhileStmt .. | .withStmt ..
  | .catchClause .. => [.own (check body outer ++ [fault .notList])]
  | _ => [.own (check body outer ++ [fault .noPart])]

/-- The pieces of the events of a node in its place. -/
def layout (p : Place) (role : Role) (n : Node) : List Piece :=
  let lead : Piece := .own (check n p.outer)
  let here : Place := { p with outer := n }
  let inside : Place := ⟨n, n.span.start⟩
  match n with
  | .absent => [.own [noRule n.sort none]]
  | .ident name => [.own [noRule n.sort (some name.span)]]
  | .literal .. | .emptyStmt _ | .breakStmt _ | .continueStmt _ => [lead]
  | .lookup name => [lead, .own [refer name role.refKind]]
  | .thisExpr _ => [lead, .own [thisUse]]
  | .arrayLit xs _ | .objectLit xs _ | .sequence xs _ | .program xs _ => [lead, .parts here xs]
  | .property _ x _ | .unary _ x _ | .exprStmt x _ | .throwStmt x _ => [lead, .part here .plain x]
  | .update _ x _ _ => [lead, .part here (.target .readwrite) x]
  | .declarator _ x _ | .returnStmt x _ => [lead, .optional here .plain x]
  | .member x y computed _ =>
    [lead, .part here .plain x, if computed then .part here .plain y else .own []]
  | .assign op x y _ =>
    [lead, .part here (.target (if op.isText "=" then .write else .readwrite)) x,
      .part here (valueRole op x) y]
  | .binary _ x y _ | .logical _ x y _ => [lead, .part here .plain x, .part here .plain y]
  | .conditional x y z _ =>
    [lead, .part here .plain x, .part here .plain y, .part here .plain z]
  | .call x xs _ => [lead, .own (evalCalls x), .part here .plain x, .parts here xs]
  | .newCall x xs _ => [lead, .part here .plain x, .parts here xs]
  | .function form name params xs isArrow span =>
    [lead, .own (ofOwnName form name p.scopeStart n),
      .own [enter .function span (some ⟨form, isArrow, handleOf form name role⟩) []],
      .own (params.flatMap fun i => declareName .param i span.start n), .parts inside xs,
      .own (ofCallee form name span.start n), .own [leave]]
  | .varDecl keyword ds span =>
    [lead, .own (if role.headEnd? == some none then [fault .noPart] else []),
      .own [openStatement (statementOf keyword ds span)],
      .declarators here (statementOf keyword ds span) role.isSoleBody (role.headEnd?.bind id) ds,
      .own [closeStatement]]
  | .block xs span => [lead, .own [enter .block span none []], .parts inside xs, .own [leave]]
  | .ifStmt x y z _ =>
    [lead, .part here .plain x, .part here .soleBody y, .optional here .soleBody z]
  | .forStmt x y z w span =>
    [lead, .own [enter .loop span none []], .optional inside .plain x, .optional inside .plain y,
      .optional inside .plain z, .part inside .soleBody w, .own [leave]]
  | .forEachStmt x y z _ span =>
    [lead, .own [enter .loop span none []], .part inside (.eachHead (subjectEnd y)) x,
      .part inside .plain y, .part inside .soleBody z, .own [leave]]
  | .whileStmt x y span =>
    [lead, .own [enter .loop span none []], .part inside .plain x, .part inside .soleBody y,
      .own [leave]]
  | .doWhileStmt x y span =>
    [lead, .own [enter .loop span none []], .part inside .soleBody x, .part inside .plain y,
      .own [leave]]
  | .catchClause param body span =>
    [lead, .own [enter .catchClause span none []], .own (ofParam param span.start n)] ++
      clauseBody body span.start n ++ [.own [leave]]
  | .tryStmt x y z _ =>
    [lead, .part here .plain x, .optional here .plain y, .optional here .plain z]
  | .caseClause x xs _ => [lead, .optional here .plain x, .parts here xs]
  | .switchStmt x xs span =>
    [lead, .part here .plain x, .own (if xs.any (·.isAbsent) then [fault .noPart] else []),
      .own [enter .block span none (xs.map (·.span))], .parts inside xs, .own [leave]]
  | .withStmt x y _ => [lead, .own [dynamic], .part here .plain x, .part here .soleBody y]

theorem ofNode_eq_layout (p : Place) (role : Role) (n : Node) :
    ofNode p role n = (layout p role n).flatMap Piece.events := by
  have hall : ofNode p role n = (layout p role n).foldl (fun es x => es ++ x.events) [] := by
    cases n with
    | member x y computed => cases computed <;> rfl
    | catchClause param body =>
      cases body with
      | block | program | function | caseClause =>
        exact congrArg (· ++ [leave]) (List.append_assoc ..).symm
      | _ => rfl
    | _ => rfl
  rw [hall, List.foldl_append_eq_append, List.flatMap_def]
  rfl

end Event

end ScopeLowering

import ScopeLowering.Proofs.Phrases
import ScopeLowering.Proofs.Stretching
import ScopeLowering.Syntax.Document

/-!
# Rendering trees as documents

A tree can be written down as a document, each node under the type that is read as such a node
(`Document.render`). Reading inverts this: the document of a supported script is read as the script
itself, with every part in its place and every span (`Document.read_render`).

## The model

A script is *supported* if each node in it is as its constructor asks and has a place in the text
(`Node.isSupported`). What is asked is little, because any node may stand in most slots, and so may
nothing at all. Only where reading looks for one sort of node must this sort be there: properties in
an object literal, declarators in a declaration, cases in a switch, targets of assignments, a
literal for the key after a point.

Offsets may be given in either of the two styles that reading knows (`OffsetStyle`). The body of a
function is always a block. Reading takes no notice of where this block stands, so it gets the place
of its function.

Documents are read as deeply as they nest. The stack is taken to suffice for that, so the theorem
has no bound on the depth of a script.
-/

namespace ScopeLowering

/-! ### Supported trees -/

namespace Node

/-- May this stand wherever a document has room for any node? A name by itself and a whole script
may not. -/
def isPart : Node → Bool
  | ident _ | program .. => false
  | _ => true

/-- Is this a target, or a declaration of one name without a value? -/
def isLoopHead : Node → Bool
  | varDecl _ [declarator _ absent _] _ => true
  | n => n.isTarget

/-- Does the node hold what its constructor asks for, so that a document can say it? -/
def isExpressible : Node → Bool
  | absent | ident _ | lookup _ | thisExpr _ | emptyStmt _ | breakStmt _ | continueStmt _ => true
  | literal value _ =>
    match value with
    | .json _ => true
    | .undefined | .uninitialized => false
  | arrayLit xs _ | sequence xs _ | block xs _ | program xs _ => xs.all isPart
  | objectLit xs _ => xs.all isProperty
  | varDecl _ xs _ => xs.all isDeclarator
  | property _ x _ | unary _ x _ | declarator _ x _ | exprStmt x _ | returnStmt x _
  | throwStmt x _ | catchClause _ x _ => x.isPart
  | member x key computed _ => x.isPart && if computed then key.isPart else key.isLiteral
  | assign _ x y _ => x.isTarget && y.isPart
  | update _ x _ _ => x.isTarget
  | logical op x y _ =>
    op.text?.any (["&&", "||", "??"].contains ·) && (x.isPart && y.isPart)
  | binary _ x y _ | whileStmt x y _ | doWhileStmt x y _ | withStmt x y _ => x.isPart && y.isPart
  | conditional x y z _ | ifStmt x y z _ | tryStmt x y z _ => x.isPart && y.isPart && z.isPart
  | forStmt x y z w _ => x.isPart && y.isPart && z.isPart && w.isPart
  | forEachStmt x y z _ _ => x.isLoopHead && y.isPart && z.isPart
  | call x xs _ | newCall x xs _ | caseClause x xs _ => x.isPart && xs.all isPart
  | switchStmt x xs _ => x.isPart && xs.all isCaseClause
  -- there are no arrows among the declarations
  | function form _ _ xs isArrow _ => (form == .expression || !isArrow) && xs.all isPart

/-- Is each node of a tree as its constructor asks, at a place in the text? -/
def isSupported (n : Node) : Bool := n.phrases.all fun m => m.span.isKnown && m.isExpressible

theorem isSupported_iff {n : Node} (h : n.isAbsent = false) :
    n.isSupported = true ↔
      (n.span.isKnown = true ∧ n.isExpressible = true) ∧ ∀ c ∈ n.slots, c.isSupported = true := by
  simp only [isSupported, List.all_eq_true, Bool.and_eq_true]
  exact forall_phrases h

theorem isPart_of_isTarget {n : Node} (h : n.isTarget = true) : n.isPart = true := by
  cases n with
  | lookup | member => rfl
  | _ => cases h

end Node

/-! ### Rendering -/

/-- How the nodes of a document say where they stand. -/
inductive OffsetStyle where
  /-- By a `range` of two offsets. -/
  | range
  /-- By a `start` and an `end`. -/
  | ends
  deriving Repr, DecidableEq, Inhabited

namespace Document

section

variable (style : OffsetStyle)

/-- The fields that say where a node stands. -/
def placeFields (span : Span) : List (String × Json) :=
  match style with
  | .range => [("range", .arr [span.start.toJson, span.stop.toJson])]
  | .ends => [("start", span.start.toJson), ("end", span.stop.toJson)]

/-- The fields of a node: its type, its place and what is inside it. -/
def nodeFields (type : String) (span : Span) (inside : List (String × Json)) :
    List (String × Json) :=
  ("type", .str type) :: (placeFields style span ++ inside)

/-- A node of a type that can be read. -/
def nodeOf (type : NodeType) (span : Span) (inside : List (String × Json)) : Json :=
  .obj (nodeFields style type.name span inside)

def renderIdent (name : Ident) : Json :=
  nodeOf style .identifier name.span [("name", .str name.text)]

def renderName (name : Option Ident) : Json := name.elim .null (renderIdent style)

/-- What a document says for a constant. The marks that only running knows have no spelling. -/
def constantOf : Constant → Json
  | .json v => v
  | .undefined | .uninitialized => .null

/-- The key after a point is written as a name. -/
def renderKey : Node → Json
  | .literal value span => nodeOf style .identifier span [("name", constantOf value)]
  | _ => .null

/-- The type of a function in a document. -/
def functionType : FunctionForm → Bool → NodeType
  | .declaration, _ => .functionDeclaration
  | .expression, false => .functionExpression
  | .expression, true => .arrowFunctionExpression

mutual

/-- A tree as a document. -/
def render (n : Node) : Json :=
  match n with
  | .absent => .null
  | .ident name | .lookup name => renderIdent style name
  | .literal value span => nodeOf style .literal span [("value", constantOf value)]
  | .thisExpr span => nodeOf style .thisExpression span []
  | .arrayLit xs span =>
    nodeOf style .arrayExpression span [("elements", .arr (renderAll xs))]
  | .property key x span =>
    nodeOf style .property span
      [("kind", .str "init"), ("computed", .bool false),
        ("key", nodeOf style .identifier span [("name", key)]), ("value", render x)]
  | .objectLit xs span =>
    nodeOf style .objectExpression span [("properties", .arr (renderAll xs))]
  | .member x key computed span =>
    nodeOf style .memberExpression span
      [("object", render x), ("property", if computed then render key else renderKey style key),
        ("computed", .bool computed)]
  | .assign op x y span =>
    nodeOf style .assignmentExpression span
      [("operator", op), ("left", render x), ("right", render y)]
  | .update op x before span =>
    nodeOf style .updateExpression span
      [("operator", op), ("argument", render x), ("prefix", .bool before)]
  | .unary op x span =>
    nodeOf style .unaryExpression span
      [("operator", op), ("prefix", .bool true), ("argument", render x)]
  | .binary op x y span =>
    nodeOf style .binaryExpression span
      [("operator", op), ("left", render x), ("right", render y)]
  | .logical op x y span =>
    nodeOf style .logicalExpression span
      [("operator", op), ("left", render x), ("right", render y)]
  | .conditional x y z span =>
    nodeOf style .conditionalExpression span
      [("test", render x), ("consequent", render y), ("alternate", render z)]
  | .call x xs span =>
    nodeOf style .callExpression span
      [("callee", render x), ("arguments", .arr (renderAll xs)), ("optional", .bool false)]
  | .newCall x xs span =>
    nodeOf style .newExpression span [("callee", render x), ("arguments", .arr (renderAll xs))]
  | .sequence xs span =>
    nodeOf style .sequenceExpression span [("expressions", .arr (renderAll xs))]
  | .function form name params xs isArrow span =>
    nodeOf style (functionType form isArrow) span
      [("id", renderName style name), ("params", .arr (params.map (renderIdent style))),
        ("body", nodeOf style .blockStatement span [("body", .arr (renderAll xs))]),
        ("generator", .bool false), ("async", .bool false)]
  | .declarator name x span =>
    nodeOf style .variableDeclarator span [("id", renderIdent style name), ("init", render x)]
  | .varDecl keyword xs span =>
    nodeOf style .variableDeclaration span
      [("kind", .str keyword.text), ("declarations", .arr (renderAll xs))]
  | .exprStmt x span => nodeOf style .expressionStatement span [("expression", render x)]
  | .block xs span => nodeOf style .blockStatement span [("body", .arr (renderAll xs))]
  | .emptyStmt span => nodeOf style .emptyStatement span []
  | .ifStmt x y z span =>
    nodeOf style .ifStatement span
      [("test", render x), ("consequent", render y), ("alternate", render z)]
  | .forStmt x y z w span =>
    nodeOf style .forStatement span
      [("init", render x), ("test", render y), ("update", render z), ("body", render w)]
  | .forEachStmt x y z isOf span =>
    nodeOf style (if isOf then .forOfStatement else .forInStatement) span
      [("left", render x), ("right", render y), ("body", render z)]
  | .whileStmt x y span =>
    nodeOf style .whileStatement span [("test", render x), ("body", render y)]
  | .doWhileStmt x y span =>
    nodeOf style .doWhileStatement span [("body", render x), ("test", render y)]
  | .returnStmt x span => nodeOf style .returnStatement span [("argument", render x)]
  | .breakStmt span => nodeOf style .breakStatement span [("label", .null)]
  | .continueStmt span => nodeOf style .continueStatement span [("label", .null)]
  | .throwStmt x span => nodeOf style .throwStatement span [("argument", render x)]
  | .catchClause param x span =>
    nodeOf style .catchClause span [("param", renderName style param), ("body", render x)]
  | .tryStmt x y z span =>
    nodeOf style .tryStatement span
      [("block", render x), ("handler", render y), ("finalizer", render z)]
  | .caseClause x xs span =>
    nodeOf style .switchCase span [("test", render x), ("consequent", .arr (renderAll xs))]
  | .switchStmt x xs span =>
    nodeOf style .switchStatement span
      [("discriminant", render x), ("cases", .arr (renderAll xs))]
  | .withStmt x y span =>
    nodeOf style .withStatement span [("object", render x), ("body", render y)]
  | .program xs span =>
    .obj (nodeFields style "Program" span
      [("body", .arr (renderAll xs)), ("sourceType", .str "script")])

/-- Some trees as documents. -/
def renderAll (ns : List Node) : List Json :=
  match ns with
  | [] => []
  | n :: rest => render n :: renderAll rest

end

end

/-! ### The parts of a rendered node -/

section

variable {style : OffsetStyle} {type name : String} {span : Span} {inside : List (String × Json)}

/-- Fields other than the type and the place are those of what is inside. -/
theorem find?_nodeFields (h : name ∉ ["type", "range", "start", "end"]) :
    Json.find? name (nodeFields style type span inside) = Json.find? name inside := by
  simp only [List.mem_cons, List.not_mem_nil, not_or, or_false] at h
  obtain ⟨htype, hrange, hstart, hend⟩ := h
  cases style <;>
    simp [nodeFields, placeFields, Json.find?, Ne.symm htype, Ne.symm hrange, Ne.symm hstart,
      Ne.symm hend]

theorem need_nodeFields (h : name ∉ ["type", "range", "start", "end"]) :
    need (nodeFields style type span inside) name = need inside name := by
  unfold need
  rw [find?_nodeFields h]

theorem find?_type : Json.find? "type" (nodeFields style type span inside) = some (.str type) := rfl

theorem ofJson?_toJson {o : Offset} (h : o.isKnown = true) : Offset.ofJson? o.toJson = some o := by
  cases o with
  | missing => cases h
  | _ => rfl

/-- A node stands where it says, unless something inside it goes by the name of a place. -/
theorem spanOf_nodeFields (h : span.isKnown = true) (hrange : Json.find? "range" inside = none) :
    spanOf (.obj (nodeFields style type span inside)) = pure span := by
  rw [Span.isKnown, Bool.and_eq_true] at h
  have hoffsets : offsetsOf (nodeFields style type span inside) =
      (span.start.toJson, span.stop.toJson) := by
    cases style with
    | range => rfl
    | ends => simp [offsetsOf, get, nodeFields, placeFields, Json.find?, hrange]
  simp [spanOf, Json.fields?, hoffsets, ofJson?_toJson h.1, ofJson?_toJson h.2]

end

section

variable {style : OffsetStyle} {span : Span} {inside : List (String × Json)}

/-- A node of a type that can be read is read as the type says. -/
theorem readNode_nodeOf {read : Json → Read Node} {type : NodeType} (h : span.isKnown = true)
    (hrange : Json.find? "range" inside = none) :
    readNode read (nodeOf style type span inside) =
      readTyped read type (nodeFields style type.name span inside) span := by
  have hsupported : unsupportedConstruct? type.name = none := by cases type <;> decide
  have hname : NodeType.ofName? type.name = some type := by cases type <;> decide
  simp only [nodeOf, readNode, find?_type, spanOf_nodeFields h hrange, pure_bind, hsupported, hname]

end

/-! ### Depth -/

theorem height_of_mem {v : Json} {items : List Json} (h : v ∈ items) :
    v.height ≤ Json.heightList items := by
  induction items with
  | nil => cases h
  | cons w rest ih =>
    rw [Json.heightList]
    rcases List.mem_cons.mp h with rfl | h
    · exact Nat.le_max_left _ _
    · exact Nat.le_trans (ih h) (Nat.le_max_right _ _)

theorem height_of_mem_fields {v : Json} {fields : List (String × Json)}
    (h : v ∈ fields.map (·.2)) : v.height ≤ Json.heightFields fields := by
  induction fields with
  | nil => cases h
  | cons field rest ih =>
    rw [Json.heightFields]
    rcases List.mem_cons.mp h with rfl | h
    · exact Nat.le_max_left _ _
    · exact Nat.le_trans (ih h) (Nat.le_max_right _ _)

/-- What is inside a node is less deep than the node. -/
theorem height_inside (style : OffsetStyle) (type : String) (span : Span)
    {inside : List (String × Json)} {v : Json} (h : v ∈ inside.map (·.2)) :
    v.height < (Json.obj (nodeFields style type span inside)).height := by
  have hmem : v ∈ (nodeFields style type span inside).map (·.2) := by
    rw [nodeFields, List.map_cons, List.map_append]
    exact List.mem_cons_of_mem _ (List.mem_append_right _ h)
  rw [Json.height]
  exact Nat.lt_succ_of_le (height_of_mem_fields hmem)

theorem renderAll_eq (style : OffsetStyle) (xs : List Node) :
    renderAll style xs = xs.map (render style) := by
  induction xs with
  | nil => rfl
  | cons x rest ih => rw [renderAll, ih, List.map_cons]

/-! ### Reading what is rendered -/

theorem mapM_map {α : Type} {f : α → Json} {read : Json → Read α} {xs : List α}
    (h : ∀ x ∈ xs, read (f x) = pure x) : (xs.map f).mapM read = pure xs := by
  induction xs with
  | nil => rfl
  | cons x rest ih =>
    obtain ⟨hx, hrest⟩ := List.forall_mem_cons.mp h
    rw [List.map_cons, List.mapM_cons, hx, pure_bind, ih hrest, pure_bind]

theorem readIdent_renderIdent (style : OffsetStyle) {name : Ident}
    (h : name.span.isKnown = true) : readIdent (renderIdent style name) = pure name := by
  have hname : need (nodeFields style "Identifier" name.span [("name", .str name.text)]) "name" =
      pure (.str name.text) := need_nodeFields (by decide)
  have hspan : spanOf (.obj (nodeFields style "Identifier" name.span [("name", .str name.text)])) =
      pure name.span := spanOf_nodeFields h rfl
  simp only [renderIdent, nodeOf, NodeType.name, readIdent, get, find?_type, Option.getD_some,
    Json.isText, BEq.rfl, if_true, hname, pure_bind, hspan]

theorem readOptionalIdent_renderName (style : OffsetStyle) {name : Option Ident}
    {fields : List (String × Json)} {field : String} (h : ∀ i ∈ name.toList, i.span.isKnown = true)
    (hfield : get fields field = renderName style name) :
    readOptionalIdent fields field = pure name := by
  simp only [readOptionalIdent, hfield]
  cases name with
  | none => rfl
  | some i =>
    change (readIdent (renderIdent style i) >>= fun i => pure (some i)) = _
    rw [readIdent_renderIdent style (h i (by simp)), pure_bind]

theorem isKnown_of_isSupported {names : List Ident}
    (h : ∀ c ∈ names.map Node.ident, c.isSupported = true) : ∀ i ∈ names, i.span.isKnown = true :=
  fun _ hi => ((Node.isSupported_iff rfl).mp (h _ (List.mem_map_of_mem hi))).1.1

/-- A supported literal has a value that documents know. -/
theorem exists_literal {n : Node} (h : n.isLiteral = true) (hn : n.isSupported = true) :
    ∃ v span, n = .literal (.json v) span ∧ span.isKnown = true := by
  cases n with
  | literal value span =>
    obtain ⟨⟨hspan, hjson⟩, -⟩ := (Node.isSupported_iff rfl).mp hn
    cases value with
    | json v => exact ⟨v, span, rfl, hspan⟩
    | _ => cases hjson
  | _ => cases h

/-- The documents of supported trees are read as these trees, up to a depth. -/
def Inverts (style : OffsetStyle) (read : Json → Read Node) (depth : Nat) : Prop :=
  ∀ n : Node, n.isPart = true → n.isSupported = true → (render style n).height ≤ depth →
    read (render style n) = pure n

namespace Inverts

variable {style : OffsetStyle} {read : Json → Read Node} {depth : Nat}
  {type : String} {span : Span} {inside : List (String × Json)}

attribute [local simp] render readTyped readStatements listOf need get find?_nodeFields find?_type
  Json.find? Json.truthy Json.members? Json.isText

/-- A node that is inside another is read. -/
theorem part (hread : Inverts style read depth) {x : Node}
    (hdepth : (Json.obj (nodeFields style type span inside)).height ≤ depth + 1)
    (hmem : render style x ∈ inside.map (·.2)) (hpart : x.isPart = true)
    (hx : x.isSupported = true) : read (render style x) = pure x := by
  have hlt := height_inside style type span hmem
  exact hread x hpart hx (by omega)

/-- The nodes of a list that is inside another node are read. -/
theorem parts (hread : Inverts style read depth) {xs : List Node}
    (hdepth : (Json.obj (nodeFields style type span inside)).height ≤ depth + 1)
    (hmem : .arr (renderAll style xs) ∈ inside.map (·.2))
    (hparts : xs.all Node.isPart = true) (hxs : ∀ x ∈ xs, x.isSupported = true) :
    (renderAll style xs).mapM read = pure xs := by
  have hlt := height_inside style type span hmem
  rw [Json.height] at hlt
  rw [renderAll_eq] at hlt ⊢
  refine mapM_map fun x hx => hread x (List.all_eq_true.mp hparts x hx) (hxs x hx) ?_
  have hle := height_of_mem (List.mem_map_of_mem (f := render style) hx)
  omega

/-- A target that is inside another node is read. -/
theorem target (hread : Inverts style read depth) {x : Node}
    (hdepth : (Json.obj (nodeFields style type span inside)).height ≤ depth + 1)
    (hmem : render style x ∈ inside.map (·.2)) (htarget : x.isTarget = true)
    (hx : x.isSupported = true) : readTarget read (render style x) = pure x := by
  have hreads := hread.part hdepth hmem (Node.isPart_of_isTarget htarget) hx
  cases x with
  | lookup name =>
    change (readIdent (renderIdent style name) >>= fun name => pure (Node.lookup name)) = _
    rw [readIdent_renderIdent style ((Node.isSupported_iff rfl).mp hx).1.1, pure_bind]
  | member => exact hreads
  | _ => cases htarget

/-- The head of a loop over items is read. -/
theorem loopHead (hread : Inverts style read depth) {x : Node}
    (hdepth : (Json.obj (nodeFields style type span inside)).height ≤ depth + 1)
    (hmem : render style x ∈ inside.map (·.2)) (hhead : x.isLoopHead = true)
    (hx : x.isSupported = true) : readLoopHead read (render style x) = pure x := by
  cases x with
  | lookup | member => exact hread.target hdepth hmem hhead hx
  | varDecl keyword ds span =>
    have hreads := hread.part hdepth hmem rfl hx
    change (read (render style (.varDecl keyword ds span)) >>= _) = _
    rw [hreads, pure_bind]
    unfold Node.isLoopHead at hhead
    split at hhead
    · cases ‹Node.varDecl keyword ds span = _›
      rfl
    · cases hhead
  | _ => cases hhead

/-! Three sorts of nodes are also read where their type does not matter. -/

theorem property (hread : Inverts style read depth) {key : Json} {x : Node}
    (hn : (Node.property key x span).isSupported = true)
    (hdepth : (render style (.property key x span)).height ≤ depth + 1) :
    readProperty read
      (nodeFields style NodeType.property.name span
        [("kind", .str "init"), ("computed", .bool false),
          ("key", nodeOf style .identifier span [("name", key)]), ("value", render style x)])
      span = pure (.property key x span) := by
  obtain ⟨⟨-, hpart⟩, hslots⟩ := (Node.isSupported_iff rfl).mp hn
  rw [render] at hdepth
  have hx := hread.part hdepth (by simp) hpart (hslots x List.mem_cons_self)
  simp [readProperty, NodeType.name, nodeOf, fieldsOf, hx]

theorem declarator (hread : Inverts style read depth) {name : Ident} {x : Node}
    (hn : (Node.declarator name x span).isSupported = true)
    (hdepth : (render style (.declarator name x span)).height ≤ depth + 1) :
    readDeclarator read
      (nodeFields style NodeType.variableDeclarator.name span
        [("id", renderIdent style name), ("init", render style x)])
      span = pure (.declarator name x span) := by
  obtain ⟨⟨-, hpart⟩, hslots⟩ := (Node.isSupported_iff rfl).mp hn
  simp only [Node.slots, List.forall_mem_cons] at hslots
  rw [render] at hdepth
  have hname := readIdent_renderIdent style ((Node.isSupported_iff rfl).mp hslots.1).1.1
  have hx := hread.part hdepth (by simp) hpart hslots.2.1
  simp [readDeclarator, hname, hx]

theorem caseClause (hread : Inverts style read depth) {x : Node} {xs : List Node}
    (hn : (Node.caseClause x xs span).isSupported = true)
    (hdepth : (render style (.caseClause x xs span)).height ≤ depth + 1) :
    readCase read
      (nodeFields style NodeType.switchCase.name span
        [("test", render style x), ("consequent", .arr (renderAll style xs))])
      span = pure (.caseClause x xs span) := by
  obtain ⟨⟨-, hparts⟩, hslots⟩ := (Node.isSupported_iff rfl).mp hn
  simp only [Node.isExpressible, Bool.and_eq_true] at hparts
  simp only [Node.slots, List.forall_mem_cons] at hslots
  rw [render] at hdepth
  have hx := hread.part hdepth (by simp) hparts.1 hslots.1
  have hxs := hread.parts hdepth (by simp) hparts.2 hslots.2
  simp [readCase, hx, hxs]

/-- A part with a place is read with this place. -/
theorem placed {part : List (String × Json) → Span → Read Node} {type : NodeType}
    (h : span.isKnown = true) (hrange : Json.find? "range" inside = none) :
    (do
      let at_ ← spanOf (nodeOf style type span inside)
      part (← fieldsOf (nodeOf style type span inside)) at_) =
      part (nodeFields style type.name span inside) span := by
  rw [nodeOf, spanOf_nodeFields h hrange]
  rfl

/-- The parts of a list are read, each as one of its sort. -/
theorem listed {part : List (String × Json) → Span → Read Node} {xs : List Node}
    (hdepth : (Json.obj (nodeFields style type span inside)).height ≤ depth + 1)
    (hmem : .arr (renderAll style xs) ∈ inside.map (·.2))
    (hpart : ∀ x ∈ xs, (render style x).height ≤ depth + 1 →
      (do let at_ ← spanOf (render style x); part (← fieldsOf (render style x)) at_) = pure x) :
    readParts part (renderAll style xs) = pure xs := by
  have hlt := height_inside style type span hmem
  rw [Json.height] at hlt
  rw [renderAll_eq] at hlt ⊢
  refine mapM_map fun x hx => hpart x hx ?_
  have hle := height_of_mem (List.mem_map_of_mem (f := render style) hx)
  omega

/-- A function is read, whatever its type. -/
theorem function (hread : Inverts style read depth) {form : FunctionForm} {name : Option Ident}
    {params : List Ident} {xs : List Node} {isArrow : Bool}
    (hn : (Node.function form name params xs isArrow span).isSupported = true)
    (hdepth : (render style (.function form name params xs isArrow span)).height ≤ depth + 1)
    (type : String) :
    readFunction read form isArrow
      (nodeFields style type span
        [("id", renderName style name), ("params", .arr (params.map (renderIdent style))),
          ("body", nodeOf style .blockStatement span [("body", .arr (renderAll style xs))]),
          ("generator", .bool false), ("async", .bool false)])
      span = pure (.function form name params xs isArrow span) := by
  obtain ⟨⟨-, hparts⟩, hslots⟩ := (Node.isSupported_iff rfl).mp hn
  simp only [Node.isExpressible, Bool.and_eq_true] at hparts
  simp only [Node.slots, List.forall_mem_append] at hslots
  rw [render] at hdepth
  have hparams : (params.map (renderIdent style)).mapM readIdent = pure params :=
    mapM_map fun i hi => readIdent_renderIdent style (isKnown_of_isSupported hslots.1.2 i hi)
  -- the statements are one level further down
  have hblock : (nodeOf style .blockStatement span [("body", .arr (renderAll style xs))]).height ≤
      depth + 1 := Nat.le_of_lt (Nat.lt_of_lt_of_le (height_inside _ _ _ (by simp)) hdepth)
  have hxs := hread.parts hblock (by simp) hparts.2 hslots.2
  simp [readFunction, fieldsOf, nodeOf, NodeType.name, hparams, hxs,
    readOptionalIdent_renderName style (isKnown_of_isSupported hslots.1.1)]

/-- **One level more.** A reader of the parts of a node makes a reader of the node. -/
theorem readNode (hread : Inverts style read depth) :
    Inverts style (readNode read) (depth + 1) := by
  intro n hpart hn hdepth
  rcases Bool.eq_false_or_eq_true n.isAbsent with habsent | hpresent
  · cases n with
    | absent => rfl
    | _ => cases habsent
  obtain ⟨⟨hspan, hparts⟩, hslots⟩ := (Node.isSupported_iff hpresent).mp hn
  cases n with (simp only [Node.isExpressible, Node.span, Bool.and_eq_true] at hspan hparts
                rw [render] at hdepth ⊢)
  | absent => cases hpresent
  | ident | program => cases hpart
  | lookup name =>
    rw [renderIdent, readNode_nodeOf hspan (by rfl)]
    change (readIdent (renderIdent style name) >>= fun name => pure (Node.lookup name)) = _
    rw [readIdent_renderIdent style hspan, pure_bind]
  | literal value span =>
    rw [readNode_nodeOf hspan (by rfl)]
    cases value with
    | json v => simp [constantOf]
    | _ => cases hparts
  | thisExpr span | emptyStmt span | breakStmt span | continueStmt span =>
    rw [readNode_nodeOf hspan (by rfl)]
    simp [readJump]
  | unary _ x span | exprStmt x span | returnStmt x span | throwStmt x span =>
    have hx := hread.part hdepth (by simp) hparts (hslots x (by simp))
    rw [readNode_nodeOf hspan (by rfl)]
    simp [hx]
  | binary _ x y span | whileStmt x y span | doWhileStmt x y span | withStmt x y span =>
    have hx := hread.part hdepth (by simp) hparts.1 (hslots x (by simp))
    have hy := hread.part hdepth (by simp) hparts.2 (hslots y (by simp))
    rw [readNode_nodeOf hspan (by rfl)]
    simp [hx, hy]
  | logical op x y span =>
    have hx := hread.part hdepth (by simp) hparts.2.1 (hslots x (by simp))
    have hy := hread.part hdepth (by simp) hparts.2.2 (hslots y (by simp))
    have hop : readLogicalOp op = pure op := by
      cases op with
      | str s => exact if_pos hparts.1
      | _ => cases hparts.1
    rw [readNode_nodeOf hspan (by rfl)]
    simp [hop, hx, hy]
  | conditional x y z span | ifStmt x y z span | tryStmt x y z span =>
    have hx := hread.part hdepth (by simp) hparts.1.1 (hslots x (by simp))
    have hy := hread.part hdepth (by simp) hparts.1.2 (hslots y (by simp))
    have hz := hread.part hdepth (by simp) hparts.2 (hslots z (by simp))
    rw [readNode_nodeOf hspan (by rfl)]
    simp [hx, hy, hz]
  | forStmt x y z w span =>
    have hx := hread.part hdepth (by simp) hparts.1.1.1 (hslots x (by simp))
    have hy := hread.part hdepth (by simp) hparts.1.1.2 (hslots y (by simp))
    have hz := hread.part hdepth (by simp) hparts.1.2 (hslots z (by simp))
    have hw := hread.part hdepth (by simp) hparts.2 (hslots w (by simp))
    rw [readNode_nodeOf hspan (by rfl)]
    simp [hx, hy, hz, hw]
  | forEachStmt x y z isOf span =>
    have hx := hread.loopHead hdepth (by simp) hparts.1.1 (hslots x (by simp))
    have hy := hread.part hdepth (by simp) hparts.1.2 (hslots y (by simp))
    have hz := hread.part hdepth (by simp) hparts.2 (hslots z (by simp))
    rw [readNode_nodeOf hspan (by rfl)]
    cases isOf <;>
      simp [readForEach, hx, hy, hz]
  | assign op x y span =>
    have hx := hread.target hdepth (by simp) hparts.1 (hslots x (by simp))
    have hy := hread.part hdepth (by simp) hparts.2 (hslots y (by simp))
    rw [readNode_nodeOf hspan (by rfl)]
    simp [hx, hy]
  | update op x before span =>
    have hx := hread.target hdepth (by simp) hparts (hslots x (by simp))
    rw [readNode_nodeOf hspan (by rfl)]
    simp [hx]
  | member x key computed span =>
    have hx := hread.part hdepth (by simp) hparts.1 (hslots x (by simp))
    rw [readNode_nodeOf hspan (by rfl)]
    cases computed with
    | true =>
      have hkey := hread.part hdepth (by simp) hparts.2 (hslots key (by simp))
      simp [readMember, hx, hkey]
    | false =>
      -- the name after the point comes back as a literal
      obtain ⟨v, at_, rfl, hat⟩ := exists_literal hparts.2 (hslots key (by simp))
      simp [readMember, renderKey, constantOf, nodeOf, spanOf_nodeFields hat, hx]
  | arrayLit xs span | sequence xs span | block xs span =>
    have hxs := hread.parts hdepth (by simp) hparts hslots
    rw [readNode_nodeOf hspan (by rfl)]
    simp [hxs]
  | call x xs span | newCall x xs span =>
    simp only [Node.slots, List.forall_mem_cons] at hslots
    have hx := hread.part hdepth (by simp) hparts.1 hslots.1
    have hxs := hread.parts hdepth (by simp) hparts.2 hslots.2
    rw [readNode_nodeOf hspan (by rfl)]
    simp [hx, hxs]
  | catchClause param x span =>
    simp only [Node.slots, List.forall_mem_append, List.forall_mem_singleton] at hslots
    have hx := hread.part hdepth (by simp) hparts hslots.2
    rw [readNode_nodeOf hspan (by rfl)]
    simp [hx, readOptionalIdent_renderName style (isKnown_of_isSupported hslots.1)]
  | property key x span =>
    rw [readNode_nodeOf hspan (by rfl)]
    exact hread.property hn hdepth
  | declarator name x span =>
    rw [readNode_nodeOf hspan (by rfl)]
    exact hread.declarator hn hdepth
  | caseClause x xs span =>
    rw [readNode_nodeOf hspan (by rfl)]
    exact hread.caseClause hn hdepth
  | objectLit xs span =>
    have hxs : readParts (readProperty read) (renderAll style xs) = pure xs := by
      refine listed hdepth (by simp) fun c hc hle => ?_
      have hsort := List.all_eq_true.mp hparts c hc
      cases c with
      | property key y at_ =>
        have hat : at_.isKnown = true := ((Node.isSupported_iff rfl).mp (hslots _ hc)).1.1
        rw [render, placed hat (by rfl)]
        exact hread.property (hslots _ hc) hle
      | _ => cases hsort
    rw [readNode_nodeOf hspan (by rfl)]
    simp [hxs]
  | varDecl keyword xs span =>
    have hxs : readParts (readDeclarator read) (renderAll style xs) = pure xs := by
      refine listed hdepth (by simp) fun c hc hle => ?_
      have hsort := List.all_eq_true.mp hparts c hc
      cases c with
      | declarator name y at_ =>
        have hat : at_.isKnown = true := ((Node.isSupported_iff rfl).mp (hslots _ hc)).1.1
        rw [render, placed hat (by rfl)]
        exact hread.declarator (hslots _ hc) hle
      | _ => cases hsort
    have hkeyword : Keyword.ofText? keyword.text = some keyword := by cases keyword <;> decide
    rw [readNode_nodeOf hspan (by rfl)]
    simp [readDeclaration, Json.text?, hkeyword, hxs]
  | switchStmt x xs span =>
    simp only [Node.slots, List.forall_mem_cons] at hslots
    have hx := hread.part hdepth (by simp) hparts.1 hslots.1
    have hxs : readParts (readCase read) (renderAll style xs) = pure xs := by
      refine listed hdepth (by simp) fun c hc hle => ?_
      have hsort := List.all_eq_true.mp hparts.2 c hc
      cases c with
      | caseClause y ys at_ =>
        have hat : at_.isKnown = true := ((Node.isSupported_iff rfl).mp (hslots.2 _ hc)).1.1
        rw [render, placed hat (by rfl)]
        exact hread.caseClause (hslots.2 _ hc) hle
      | _ => cases hsort
    rw [readNode_nodeOf hspan (by rfl)]
    simp [hx, hxs]
  | function form name params xs isArrow span =>
    rw [readNode_nodeOf hspan (by rfl)]
    cases form with
    | expression => cases isArrow <;> exact hread.function hn hdepth _
    | declaration =>
      cases isArrow with
      | false => exact hread.function hn hdepth _
      | true => cases hparts.1

end Inverts

theorem inverts_readWithin (style : OffsetStyle) (depth : Nat) :
    Inverts style (readWithin depth) depth := by
  induction depth with
  | zero =>
    intro n _ _ hdepth
    have hpos : 0 < (render style n).height := by cases render style n <;> simp [Json.height]
    omega
  | succ depth ih => exact ih.readNode

/-- **Reading inverts rendering.** The document of a supported script, with offsets in either style,
is read as the script itself. -/
theorem read_render (style : OffsetStyle) {body : List Node} {span : Span}
    (h : (Node.program body span).isSupported = true) :
    read (render style (.program body span)) = .ok (.program body span) := by
  obtain ⟨⟨hspan, hparts⟩, hslots⟩ := (Node.isSupported_iff rfl).mp h
  have hread := inverts_readWithin style (render style (.program body span)).height
  rw [render] at hread ⊢
  have hbody := hread.parts (Nat.le_succ _) (by simp) hparts hslots
  simp [read, readProgram, readStatements, get, find?_nodeFields, find?_type, Json.find?,
    Json.isText, hbody, spanOf_nodeFields (show span.isKnown = true from hspan)]
  rfl

/-- `for (var k in o) { o.f = (x, y) => [k, , -x ?? y]; }` -/
def mixedScript : Node :=
  .program
    [.forEachStmt
      (.varDecl .varWord [.declarator ⟨"k", .of 9 10⟩ .absent (.of 9 10)] (.of 5 10))
      (.lookup ⟨"o", .of 14 15⟩)
      (.block
        [.exprStmt
          (.assign (.str "=")
            (.member (.lookup ⟨"o", .of 19 20⟩) (.literal (.json (.str "f")) (.of 21 22)) false
              (.of 19 22))
            (.function .expression none [⟨"x", .of 26 27⟩, ⟨"y", .of 29 30⟩]
              [.returnStmt
                (.arrayLit
                  [.lookup ⟨"k", .of 36 37⟩, .absent,
                    .logical (.str "??")
                      (.unary (.str "-") (.lookup ⟨"x", .of 42 43⟩) (.of 41 43))
                      (.lookup ⟨"y", .of 47 48⟩) (.of 41 48)]
                  (.of 35 49))
                (.of 35 49)]
              true (.of 25 49))
            (.of 19 49))
          (.of 19 50)]
        (.of 17 52))
      false (.of 0 52)]
    (.of 0 52)

theorem read_render_mixedScript :
    mixedScript.isSupported = true ∧ read (render .range mixedScript) = .ok mixedScript ∧
      read (render .ends mixedScript) = .ok mixedScript := by
  have hsupported : mixedScript.isSupported = true := by decide +kernel
  exact ⟨hsupported, read_render .range hsupported, read_render .ends hsupported⟩

end Document

end ScopeLowering

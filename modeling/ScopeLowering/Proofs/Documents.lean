import ScopeLowering.Proofs.Boundaries
import ScopeLowering.Syntax.Script

/-!
# Complete documents

A document is complete if every node in it has the fields that its type calls for
(`Document.isComplete`). Reading a complete document either gives a tree that lacks no part, or it
fails for one of the reasons that are reported: the document is no tree, or it uses a construct
outside the analyzed language (`Document.fares_readProgram`).

## The model

No more is asked of a node than that reading it finds its fields. What is in a field may be a node
of any type, and offsets may be missing or absurd.
-/

namespace ScopeLowering

/-- Is the failure one that is reported as an issue? -/
def ReadFault.isReported : ReadFault → Bool
  | unsupported .. | notTree _ => true
  | missingField _ | noFields | wrongType | refused | tooManyDigits => false

namespace Json

mutual

/-- Does each object in a value, at any depth, have fields of this kind? -/
def everyObject (p : List (String × Json) → Bool) : Json → Bool
  | arr items => everyObjectOf p items
  | obj fields => p fields && everyObjectIn p fields
  | _ => true

/-- Does each object in some values have fields of this kind? -/
def everyObjectOf (p : List (String × Json) → Bool) : List Json → Bool
  | [] => true
  | v :: rest => v.everyObject p && everyObjectOf p rest

/-- Does each object in the values of some fields have fields of this kind? -/
def everyObjectIn (p : List (String × Json) → Bool) : List (String × Json) → Bool
  | [] => true
  | (_, v) :: rest => v.everyObject p && everyObjectIn p rest

end

section

variable {p : List (String × Json) → Bool}

theorem everyObject_of_mem {items : List Json} (h : everyObjectOf p items = true) :
    ∀ v ∈ items, v.everyObject p = true := by
  induction items with
  | nil => exact List.forall_mem_nil _
  | cons v rest ih =>
    rw [everyObjectOf, Bool.and_eq_true] at h
    exact List.forall_mem_cons.mpr ⟨h.1, ih h.2⟩

theorem everyObject_of_find? {fields : List (String × Json)} (h : everyObjectIn p fields = true)
    {name : String} {v : Json} (hv : find? name fields = some v) : v.everyObject p = true := by
  induction fields with
  | nil => cases hv
  | cons field rest ih =>
    rw [everyObjectIn, Bool.and_eq_true] at h
    unfold find? at hv
    split at hv
    · cases hv
      exact h.1
    · exact ih h.2 hv

/-- What one meets going through a value is part of it, or a text. -/
theorem everyObject_of_members? {v : Json} (h : v.everyObject p = true) {items : List Json}
    (hv : v.members? = some items) : ∀ item ∈ items, item.everyObject p = true := by
  cases v with
  | arr =>
    cases hv
    exact everyObject_of_mem h
  | str =>
    cases hv
    simp [everyObject]
  | obj =>
    cases hv
    exact List.forall_mem_map.mpr fun _ _ => rfl
  | _ => cases hv

end

end Json

namespace Document

/-! ### What the types of nodes call for -/

section

variable (fields : List (String × Json)) (name : String)

/-- Is there such a field? -/
def has : Bool := (Json.find? name fields).isSome

/-- Is there an object in such a field? -/
def hasObject : Bool := (Json.find? name fields).any (·.fields?.isSome)

/-- Is there a text in such a field? -/
def hasText : Bool := (Json.find? name fields).any (·.text?.isSome)

/-- Can one go through the items of such a field, if it is there? -/
def hasList : Bool := (Json.find? name fields).all (·.members?.isSome)

end

/-- Is this an object with such a field, unless it is no object? -/
def isPartWith (name : String) : Json → Bool
  | .obj fields => has fields name
  | _ => true

/-- Is this a node of the type? -/
def isTyped (type : NodeType) : Json → Bool
  | .obj fields => (get fields "type").isText type.name
  | _ => false

/-- Is this one of the three logical operators? -/
def isLogicalOp (op : Json) : Bool := op.text?.any (["&&", "||", "??"].contains ·)

/-- Does a node have the fields that its type calls for? -/
def isFilledIn (type : NodeType) (fields : List (String × Json)) : Bool :=
  match type with
  | .emptyStatement | .debuggerStatement | .blockStatement | .forStatement | .returnStatement
  | .breakStatement | .continueStatement | .switchCase | .literal | .thisExpression => true
  | .expressionStatement => has fields "expression"
  | .throwStatement => has fields "argument"
  | .tryStatement => has fields "block"
  | .variableDeclarator => has fields "id"
  | .variableDeclaration =>
    -- the parts are read as declarators, whatever their types say
    hasList fields "declarations" &&
      ((get fields "declarations").members?.getD []).all (isPartWith "id")
  | .functionDeclaration =>
    (get fields "id").truthy && hasList fields "params" && hasObject fields "body"
  | .functionExpression | .arrowFunctionExpression =>
    hasList fields "params" && hasObject fields "body"
  | .ifStatement => has fields "test" && has fields "consequent"
  | .forInStatement | .forOfStatement =>
    hasObject fields "left" && hasObject fields "right" && has fields "body"
  | .whileStatement | .doWhileStatement => has fields "test" && has fields "body"
  | .catchClause => (Json.find? "body" fields).any (isTyped .blockStatement)
  | .switchStatement => hasList fields "cases" && has fields "discriminant"
  | .withStatement => has fields "object" && has fields "body"
  | .identifier => hasText fields "name"
  | .arrayExpression => hasList fields "elements"
  | .objectExpression => hasList fields "properties"
  | .sequenceExpression => hasList fields "expressions"
  | .property => hasObject fields "key" && has fields "value"
  | .memberExpression =>
    -- after a point there is a name, and in brackets any expression
    has fields "object" && has fields "property" &&
      ((get fields "computed").truthy ||
        ((get fields "property").fields?.any (has · "name")))
  | .assignmentExpression =>
    has fields "operator" && hasObject fields "left" && has fields "right"
  | .updateExpression => has fields "operator" && hasObject fields "argument"
  | .unaryExpression => has fields "operator" && has fields "argument"
  | .binaryExpression => has fields "operator" && has fields "left" && has fields "right"
  | .logicalExpression =>
    (Json.find? "operator" fields).any isLogicalOp && has fields "left" && has fields "right"
  | .conditionalExpression =>
    has fields "test" && has fields "consequent" && has fields "alternate"
  | .callExpression | .newExpression => has fields "callee" && hasList fields "arguments"

/-- Does an object, if it is a node, have the fields that its type calls for? -/
def isCompleteNode (fields : List (String × Json)) : Bool :=
  match Json.find? "type" fields with
  | none => true
  | some (.str type) => (NodeType.ofName? type).all (isFilledIn · fields)
  | some _ => false

/-- Do all nodes of a document have the fields that their types call for? -/
def isComplete (document : Json) : Bool := document.everyObject isCompleteNode

section

variable {fields : List (String × Json)} {name : String}

theorem has_iff : has fields name = true ↔ ∃ v, Json.find? name fields = some v :=
  Option.isSome_iff_exists

theorem hasText_iff :
    hasText fields name = true ↔ ∃ s, Json.find? name fields = some (.str s) := by
  unfold hasText
  cases Json.find? name fields with
  | none => simp
  | some v => cases v <;> simp [Json.text?]

theorem isCompleteNode_of_isComplete (h : isComplete (.obj fields) = true) :
    isCompleteNode fields = true := by
  rw [isComplete, Json.everyObject, Bool.and_eq_true] at h
  exact h.1

theorem isComplete_of_find? (h : isComplete (.obj fields) = true) {v : Json}
    (hv : Json.find? name fields = some v) : isComplete v = true := by
  rw [isComplete, Json.everyObject, Bool.and_eq_true] at h
  exact Json.everyObject_of_find? h.2 hv

theorem isComplete_get (h : isComplete (.obj fields) = true) (name : String) :
    isComplete (get fields name) = true := by
  unfold get
  cases hv : Json.find? name fields with
  | none => rfl
  | some v => exact isComplete_of_find? h hv

/-- A node of a type has the fields that the type calls for. -/
theorem isFilledIn_of_isTyped (h : isComplete (.obj fields) = true) {t : NodeType}
    (ht : (get fields "type").isText t.name = true) : isFilledIn t fields = true := by
  have hnode := isCompleteNode_of_isComplete h
  unfold get at ht
  unfold isCompleteNode at hnode
  cases hv : Json.find? "type" fields with
  | none =>
    rw [hv] at ht
    cases ht
  | some v =>
    rw [hv] at ht hnode
    cases v with
    | str s =>
      have hs : s = t.name := by simpa [Json.isText] using ht
      subst hs
      have hname : NodeType.ofName? t.name = some t := by cases t <;> decide
      simpa [hname] using hnode
    | _ => cases ht

example : ["name", "names"].map (fun field =>
    isComplete (.arr [.obj [("type", .str "Identifier"), (field, .str "x")]])) = [true, false] := by
  decide

end

/-! ### Readings that go well or fail for a reason -/

/-- The reading gives something of which `Q` is true, or fails in a way that is reported. -/
def Fares {α : Type} (Q : α → Prop) : Read α → Prop
  | .ok a => Q a
  | .error f => f.isReported = true

namespace Fares

variable {α β : Type} {Q : α → Prop} {R : β → Prop}

theorem pure {a : α} (h : Q a) : Fares Q (Pure.pure a) := h

theorem throw {f : ReadFault} (h : f.isReported = true) : Fares Q (throw f : Read α) := h

theorem bind {x : Read α} {g : α → Read β} (hx : Fares Q x) (hg : ∀ a, Q a → Fares R (g a)) :
    Fares R (x >>= g) := by
  cases x with
  | ok a => exact hg a hx
  | error f => exact hx

theorem imp {Q' : α → Prop} {x : Read α} (hx : Fares Q x) (h : ∀ a, Q a → Q' a) :
    Fares Q' x := by
  cases x with
  | ok a => exact h a hx
  | error f => exact hx

theorem and {Q' : α → Prop} {x : Read α} (hx : Fares Q x) (hx' : Fares Q' x) :
    Fares (fun a => Q a ∧ Q' a) x := by
  cases x with
  | ok a => exact ⟨hx, hx'⟩
  | error f => exact hx

theorem mapM {g : α → Read β} {xs : List α} (h : ∀ x ∈ xs, Fares R (g x)) :
    Fares (fun ys => ∀ y ∈ ys, R y) (xs.mapM g) := by
  induction xs with
  | nil => exact .pure (List.forall_mem_nil _)
  | cons x xs ih =>
    obtain ⟨hx, hxs⟩ := List.forall_mem_cons.mp h
    rw [List.mapM_cons]
    exact hx.bind fun y hy => (ih hxs).bind fun ys hys =>
      .pure (List.forall_mem_cons.mpr ⟨hy, hys⟩)

/-- A refusal ends the reading. -/
theorem refuse {f : ReadFault} {g : α → Read β} (h : f.isReported = true) :
    Fares R ((throwThe ReadFault f : Read α) >>= g) := h

end Fares

/-! ### Parts of nodes -/

/-- What a complete value is read as: a tree that lacks no part. Nothing reads as no node, and a
block reads as a block. -/
structure Reads (v : Json) (n : Node) : Prop where
  whole : n.isWhole = true
  present : v ≠ .null → n.isAbsent = false
  block : isTyped .blockStatement v = true → n.isBlock = true

/-- Complete values are read as such trees, unless they are refused. -/
def IsReader (read : Json → Read Node) : Prop :=
  ∀ v, isComplete v = true → Fares (Reads v) (read v)

@[simp]
theorem isWhole_ident (name : Ident) : (Node.ident name).isWhole = true := rfl

@[simp]
theorem isWhole_literal (c : Constant) (span : Span) : (Node.literal c span).isWhole = true := rfl

theorem isWhole_of {n : Node} (ha : n.isAbsent = false) (hparts : n.hasParts = true)
    (hslots : ∀ c ∈ n.slots, c.isWhole = true) : n.isWhole = true :=
  (Node.isWhole_iff ha).mpr ⟨hparts, hslots⟩

/-- A node that is there and lacks no part. -/
def IsBuilt (n : Node) : Prop := n.isWhole = true ∧ n.isAbsent = false

theorem isBuilt_of {n : Node} (ha : n.isAbsent = false) (hparts : n.hasParts = true)
    (hslots : ∀ c ∈ n.slots, c.isWhole = true) : IsBuilt n :=
  ⟨isWhole_of ha hparts hslots, ha⟩

theorem fares_spanOf (v : Json) : Fares (fun _ => True) (spanOf v) := by
  unfold spanOf
  dsimp only
  split
  · exact .pure trivial
  · exact .throw rfl

/-- Only objects have spans. -/
theorem fares_spanOf_bind {α : Type} {Q : α → Prop} (v : Json) {k : Span → Read α}
    (hk : ∀ fields, v = .obj fields → ∀ span, Fares Q (k span)) : Fares Q (spanOf v >>= k) := by
  cases v with
  | obj fields => exact (fares_spanOf _).bind fun span _ => hk fields rfl span
  | _ => exact rfl

section

variable {α : Type} {Q : α → Prop} {fields : List (String × Json)}
  (h : isComplete (.obj fields) = true)
include h

/-- The type of a complete node names the construct that it is. -/
theorem fares_constructOf (otherwise : Json) :
    Fares (fun _ => True) (constructOf (get fields "type") otherwise) := by
  have hnode := isCompleteNode_of_isComplete h
  unfold isCompleteNode at hnode
  unfold get
  cases hv : Json.find? "type" fields with
  | none => exact .pure trivial
  | some v =>
    rw [hv] at hnode
    cases v with
    | str s => exact .pure trivial
    | _ => cases hnode

theorem fares_need {name : String} (hn : has fields name = true) :
    Fares (fun v => Json.find? name fields = some v ∧ isComplete v = true) (need fields name) := by
  obtain ⟨v, hv⟩ := has_iff.mp hn
  unfold need
  rw [hv]
  exact .pure ⟨rfl, isComplete_of_find? h hv⟩

theorem fares_any {name : String} {p : Json → Bool}
    (hn : (Json.find? name fields).any p = true) {k : Json → Read α}
    (hk : ∀ v, isComplete v = true → p v = true → Fares Q (k v)) :
    Fares Q (need fields name >>= k) := by
  unfold need
  cases hv : Json.find? name fields with
  | none =>
    rw [hv] at hn
    cases hn
  | some v =>
    rw [hv] at hn
    exact hk v (isComplete_of_find? h hv) hn

/-- A field with an object in it is found. -/
theorem fares_object {name : String} (hn : hasObject fields name = true) {k : Json → Read α}
    (hk : ∀ inner, isComplete (.obj inner) = true → Fares Q (k (.obj inner))) :
    Fares Q (need fields name >>= k) := by
  refine fares_any h hn fun v hv hobject => ?_
  cases v with
  | obj inner => exact hk inner hv
  | _ => cases hobject

theorem fares_listOf {name : String} (hn : hasList fields name = true) :
    Fares (fun items => (∀ item ∈ items, isComplete item = true) ∧
      items = (get fields name).members?.getD []) (listOf fields name) := by
  unfold hasList at hn
  unfold listOf get
  cases hv : Json.find? name fields with
  | none => exact .pure ⟨List.forall_mem_nil _, rfl⟩
  | some v =>
    rw [hv] at hn
    obtain ⟨items, hitems⟩ := Option.isSome_iff_exists.mp hn
    dsimp only [Option.getD_some]
    rw [hitems]
    exact .pure ⟨Json.everyObject_of_members? (isComplete_of_find? h hv) hitems, rfl⟩

end

theorem fares_readIdent {v : Json} (h : isComplete v = true) :
    Fares (fun _ => True) (readIdent v) := by
  cases v with
  | obj fields =>
    simp only [readIdent]
    split
    · obtain ⟨s, hs⟩ := hasText_iff.mp (isFilledIn_of_isTyped (t := .identifier) h ‹_›)
      unfold need
      rw [hs]
      exact (fares_spanOf _).bind fun span _ => .pure trivial
    · exact (fares_constructOf h _).bind fun construct _ => (fares_spanOf _).bind fun span _ =>
        .throw rfl
  | _ => exact rfl

section

variable {α : Type} {Q : α → Prop} {read : Json → Read Node} (hread : IsReader read)
include hread

theorem fares_mapM {items : List Json} (h : ∀ item ∈ items, isComplete item = true) :
    Fares (fun ns => ∀ n ∈ ns, n.isWhole = true) (items.mapM read) :=
  .mapM fun item hitem => (hread item (h item hitem)).imp fun _ hn => hn.whole

theorem fares_readStatements {v : Json} (h : isComplete v = true) :
    Fares (fun ns => ∀ n ∈ ns, n.isWhole = true) (readStatements read v) := by
  cases v with
  | arr items => exact fares_mapM hread (Json.everyObject_of_mem h)
  | _ => exact .throw rfl

variable {fields : List (String × Json)} (h : isComplete (.obj fields) = true)
include h

theorem fares_readTarget : Fares (fun n => n.isWhole = true) (readTarget read (.obj fields)) := by
  change Fares _ (ite _ _ _)
  split
  · exact (fares_readIdent h).bind fun name _ => .pure rfl
  · split
    · exact (hread _ h).imp fun _ hn => hn.whole
    · exact (fares_constructOf h _).bind fun construct _ => (fares_spanOf _).bind fun span _ =>
        .throw rfl

theorem fares_readLoopHead :
    Fares (fun n => n.isWhole = true) (readLoopHead read (.obj fields)) := by
  change Fares _ (ite _ _ _)
  split
  · refine (hread _ h).bind fun head hhead => ?_
    split
    · exact .pure hhead.whole
    · exact (fares_spanOf _).bind fun span _ => .throw rfl
  · exact fares_readTarget hread h

/-- A field that is there is read. -/
theorem fares_needed {name : String} (hn : has fields name = true) {k : Node → Read α}
    (hk : ∀ n, n.isWhole = true → Fares Q (k n)) :
    Fares Q (need fields name >>= fun v => read v >>= k) :=
  (fares_need h hn).bind fun v hv => (hread v hv.2).bind fun n hn => hk n hn.whole

/-- A field that may be missing is read. -/
theorem fares_optional (name : String) {k : Node → Read α}
    (hk : ∀ n, n.isWhole = true → Fares Q (k n)) : Fares Q (read (get fields name) >>= k) :=
  (hread _ (isComplete_get h name)).bind fun n hn => hk n hn.whole

/-- The items of a field are read. -/
theorem fares_items {name : String} (hn : hasList fields name = true) {k : List Node → Read α}
    (hk : ∀ ns, (∀ n ∈ ns, n.isWhole = true) → Fares Q (k ns)) :
    Fares Q (listOf fields name >>= fun items => items.mapM read >>= k) :=
  (fares_listOf h hn).bind fun _ hitems => (fares_mapM hread hitems.1).bind hk

omit hread in
theorem fares_readOptionalIdent (name : String) :
    Fares (fun found => (get fields name).truthy = true → found.isSome = true)
      (readOptionalIdent fields name) := by
  simp only [readOptionalIdent]
  split
  · exact (fares_readIdent (isComplete_get h name)).bind fun _ _ => .pure fun _ => rfl
  · exact .pure fun ht => absurd ht ‹_›

theorem fares_readFunction (form : FunctionForm) (isArrow : Bool) (span : Span)
    (hname : form = .declaration → (get fields "id").truthy = true)
    (hparams : hasList fields "params" = true) (hbody : hasObject fields "body" = true) :
    Fares IsBuilt (readFunction read form isArrow fields span) := by
  simp only [readFunction]
  split
  · exact .refuse rfl
  split
  · exact .refuse rfl
  refine (fares_readOptionalIdent h "id").bind fun name hid => ?_
  refine (fares_listOf h hparams).bind fun items hitems => ?_
  refine (Fares.mapM fun v hv => fares_readIdent (hitems.1 v hv)).bind fun params _ => ?_
  have hbuilt : ∀ body, (∀ n ∈ body, n.isWhole = true) →
      IsBuilt (.function form name params body isArrow span) := by
    intro body hns
    have hnames : ∀ c ∈ name.toList.map Node.ident ++ params.map Node.ident, c.isWhole = true :=
      List.forall_mem_append.mpr
        ⟨List.forall_mem_map.mpr fun _ _ => rfl, List.forall_mem_map.mpr fun _ _ => rfl⟩
    refine isBuilt_of rfl ?_ (List.forall_mem_append.mpr ⟨hnames, hns⟩)
    cases form with
    | declaration => exact hid (hname rfl)
    | expression => rfl
  refine fares_object h hbody fun inner hcomplete => ?_
  change Fares _ (ite _ _ _)
  split
  · refine (fares_readStatements hread (isComplete_get hcomplete _)).bind fun ns hns => ?_
    exact .pure (hbuilt ns hns)
  · refine (hread _ hcomplete).bind fun n hn => .pure (hbuilt _ ?_)
    exact List.forall_mem_singleton.mpr (isWhole_of rfl rfl (by simp [hn.whole]))

theorem fares_readDeclarator (span : Span) (hid : has fields "id" = true) :
    Fares (fun n => n.isWhole = true ∧ n.isDeclarator = true)
      (readDeclarator read fields span) := by
  refine (fares_need h hid).bind fun v hv => (fares_readIdent hv.2).bind fun name _ => ?_
  refine fares_optional hread h _ fun n hn => .pure ⟨isWhole_of rfl rfl ?_, rfl⟩
  simp [hn]

theorem fares_readCase (span : Span) :
    Fares IsBuilt (readCase read fields span) := by
  refine fares_optional hread h _ fun n hn => ?_
  refine (fares_readStatements hread (isComplete_get h _)).bind fun ns hns => ?_
  exact .pure (isBuilt_of rfl rfl (List.forall_mem_cons.mpr ⟨hn, hns⟩))

theorem fares_readProperty (span : Span) :
    Fares IsBuilt (readProperty read fields span) := by
  simp only [readProperty]
  split
  · exact (fares_constructOf h _).bind fun construct _ => .refuse rfl
  rename_i htype
  rw [Bool.not_eq_true', Bool.not_eq_false] at htype
  have hfilled := isFilledIn_of_isTyped (t := .property) h htype
  simp only [isFilledIn, Bool.and_eq_true] at hfilled
  obtain ⟨hkey, hvalue⟩ := hfilled
  have hvalue : ∀ name, Fares IsBuilt (need fields "value" >>= fun v => read v >>= fun value =>
      pure (.property name value span)) := fun name =>
    fares_needed hread h hvalue fun n hn => .pure (isBuilt_of rfl rfl (by simp [hn]))
  have hnamed : Fares IsBuilt (do
      let key ← fieldsOf (← need fields "key")
      let name ← if (get key "type").isText "Identifier" then need key "name"
        else pure (.str (literalKey (get key "value")))
      return .property name (← read (← need fields "value")) span) := by
    refine fares_object h hkey fun key hkey => ?_
    change Fares _ (ite _ _ _)
    split
    · obtain ⟨s, hs⟩ := hasText_iff.mp (isFilledIn_of_isTyped (t := .identifier) hkey ‹_›)
      exact (fares_need hkey (has_iff.mpr ⟨_, hs⟩)).bind fun name _ => hvalue name
    · exact hvalue _
  split
  · split
    · exact .refuse rfl
    · split
      · exact .refuse rfl
      · exact hnamed
  · split
    · exact .refuse rfl
    · exact hnamed

omit hread h in
theorem fares_readParts {part : List (String × Json) → Span → Read Node} {Q : Node → Prop}
    {items : List Json} (hpart : ∀ fields span, .obj fields ∈ items → Fares Q (part fields span)) :
    Fares (fun ns => ∀ n ∈ ns, Q n) (readParts part items) := by
  refine .mapM fun item hitem => fares_spanOf_bind item fun fields hfields span => ?_
  subst hfields
  exact hpart fields span hitem

theorem fares_readDeclaration (span : Span) (hlist : hasList fields "declarations" = true)
    (hids : ((get fields "declarations").members?.getD []).all (isPartWith "id") = true) :
    Fares IsBuilt (readDeclaration read fields span) := by
  simp only [readDeclaration]
  split
  · exact .throw rfl
  refine (fares_listOf h hlist).bind fun items hitems => ?_
  have hparts : Fares (fun ns => ∀ n ∈ ns, n.isWhole = true ∧ n.isDeclarator = true)
      (readParts (readDeclarator read) items) := fares_readParts fun fields span hfields =>
    fares_readDeclarator hread (hitems.1 _ hfields) span
      (List.all_eq_true.mp hids (.obj fields) (hitems.2 ▸ hfields))
  refine hparts.bind fun ds hds => .pure (isBuilt_of rfl ?_ fun d hd => (hds d hd).1)
  exact List.all_eq_true.mpr fun d hd => (hds d hd).2

theorem fares_readForEach (isOf : Bool) (span : Span) (hleft : hasObject fields "left" = true)
    (hright : hasObject fields "right" = true) (hbody : has fields "body" = true) :
    Fares IsBuilt (readForEach read isOf fields span) := by
  refine fares_object h hleft fun left hl => ?_
  refine (fares_readLoopHead hread hl).bind fun head hhead => ?_
  refine fares_object h hright fun right hr => (hread _ hr).bind fun subject hsubject => ?_
  refine fares_needed hread h hbody fun body hbody => .pure (isBuilt_of rfl ?_ ?_)
  · rw [Node.hasParts, hsubject.present (by simp)]
    rfl
  · simp [hhead, hsubject.whole, hbody]

theorem fares_readMember (span : Span) (hobject : has fields "object" = true)
    (hproperty : has fields "property" = true) (hname : (get fields "computed").truthy = true ∨
      (get fields "property").fields?.any (has · "name") = true) :
    Fares IsBuilt (readMember read fields span) := by
  refine fares_needed hread h hobject fun n hn => ?_
  split
  · exact fares_needed hread h hproperty fun k hk => .pure (isBuilt_of rfl rfl (by simp [hn, hk]))
  · refine (fares_need h hproperty).bind fun v hv => ?_
    have hname := hname.resolve_left ‹_›
    rw [get, hv.1] at hname
    cases v with
    | obj inner =>
      refine (fares_need hv.2 hname).bind fun name _ => (fares_spanOf _).bind fun at_ _ => ?_
      exact .pure (isBuilt_of rfl rfl (by simp [hn]))
    | _ => cases hname

end

theorem fares_readJump {jump : Span → Node} (hjump : ∀ span, IsBuilt (jump span))
    (fields : List (String × Json)) (span : Span) : Fares IsBuilt (readJump jump fields span) := by
  unfold readJump
  split
  · exact .throw rfl
  · exact .pure (hjump span)

theorem fares_readLogicalOp {op : Json} (h : isLogicalOp op = true) :
    Fares (fun _ => True) (readLogicalOp op) := by
  cases op with
  | str s =>
    simp only [readLogicalOp]
    split
    · exact .pure trivial
    · exact absurd h ‹_›
  | _ => cases h

/-! ### Documents -/

section

variable {read : Json → Read Node} (hread : IsReader read) {fields : List (String × Json)}
  (h : isComplete (.obj fields) = true)
include hread h

/-- A node with the fields that its type calls for is read, unless it is refused. -/
theorem fares_readTyped {type : NodeType} (hfilled : isFilledIn type fields = true) (span : Span) :
    Fares IsBuilt (readTyped read type fields span) := by
  cases type <;> simp only [isFilledIn, Bool.and_eq_true, Bool.or_eq_true] at hfilled <;>
    rw [readTyped]
  case emptyStatement | debuggerStatement | thisExpression | literal =>
    exact .pure (isBuilt_of rfl rfl (List.forall_mem_nil _))
  case breakStatement | continueStatement =>
    exact fares_readJump (fun _ => isBuilt_of rfl rfl (List.forall_mem_nil _)) fields span
  case expressionStatement | throwStatement =>
    exact fares_needed hread h hfilled fun x hx => .pure (isBuilt_of rfl rfl (by simp [hx]))
  case returnStatement =>
    exact fares_optional hread h _ fun x hx => .pure (isBuilt_of rfl rfl (by simp [hx]))
  case blockStatement =>
    exact (fares_readStatements hread (isComplete_get h _)).bind fun xs hxs =>
      .pure (isBuilt_of rfl rfl hxs)
  case arrayExpression | sequenceExpression =>
    exact fares_items hread h hfilled fun xs hxs => .pure (isBuilt_of rfl rfl hxs)
  case objectExpression =>
    refine (fares_listOf h hfilled).bind fun items hitems => ?_
    exact (fares_readParts fun fields span hfields =>
      fares_readProperty hread (hitems.1 _ hfields) span).bind fun xs hxs =>
        .pure (isBuilt_of rfl rfl fun x hx => (hxs x hx).1)
  case property => exact fares_readProperty hread h span
  case switchCase => exact fares_readCase hread h span
  case variableDeclaration => exact fares_readDeclaration hread h span hfilled.1 hfilled.2
  case variableDeclarator =>
    refine (fares_readDeclarator hread h span hfilled).imp fun n hn => ⟨hn.1, ?_⟩
    cases n with
    | absent => cases hn.2
    | _ => rfl
  case functionDeclaration =>
    exact fares_readFunction hread h _ _ span (fun _ => hfilled.1.1) hfilled.1.2 hfilled.2
  case functionExpression | arrowFunctionExpression =>
    exact fares_readFunction hread h _ _ span (by simp) hfilled.1 hfilled.2
  case ifStatement =>
    exact fares_needed hread h hfilled.1 fun x hx => fares_needed hread h hfilled.2 fun y hy =>
      fares_optional hread h _ fun z hz => .pure (isBuilt_of rfl rfl (by simp [hx, hy, hz]))
  case forStatement =>
    exact fares_optional hread h _ fun x hx => fares_optional hread h _ fun y hy =>
      fares_optional hread h _ fun z hz => fares_optional hread h _ fun w hw =>
        .pure (isBuilt_of rfl rfl (by simp [hx, hy, hz, hw]))
  case forInStatement =>
    exact fares_readForEach hread h _ span hfilled.1.1 hfilled.1.2 hfilled.2
  case forOfStatement =>
    split
    · exact .refuse rfl
    · exact fares_readForEach hread h _ span hfilled.1.1 hfilled.1.2 hfilled.2
  case whileStatement | withStatement =>
    exact fares_needed hread h hfilled.1 fun x hx => fares_needed hread h hfilled.2 fun y hy =>
      .pure (isBuilt_of rfl rfl (by simp [hx, hy]))
  case doWhileStatement =>
    exact fares_needed hread h hfilled.2 fun x hx => fares_needed hread h hfilled.1 fun y hy =>
      .pure (isBuilt_of rfl rfl (by simp [hx, hy]))
  case tryStatement =>
    exact fares_needed hread h hfilled fun x hx => fares_optional hread h _ fun y hy =>
      fares_optional hread h _ fun z hz => .pure (isBuilt_of rfl rfl (by simp [hx, hy, hz]))
  case catchClause =>
    refine (fares_readOptionalIdent h "param").bind fun param _ => ?_
    refine fares_any h hfilled fun v hv htyped => (hread v hv).bind fun body hbody => ?_
    refine .pure (isBuilt_of rfl (hbody.block htyped) ?_)
    refine List.forall_mem_append.mpr
      ⟨List.forall_mem_map.mpr fun _ _ => rfl, List.forall_mem_singleton.mpr hbody.whole⟩
  case switchStatement =>
    refine (fares_listOf h hfilled.1).bind fun items hitems => ?_
    refine (fares_readParts fun fields span hfields =>
      fares_readCase hread (hitems.1 _ hfields) span).bind fun xs hxs => ?_
    refine fares_needed hread h hfilled.2 fun x hx => .pure (isBuilt_of rfl ?_ ?_)
    · simpa [Node.hasParts] using fun c hc => (hxs c hc).2
    · exact List.forall_mem_cons.mpr ⟨hx, fun c hc => (hxs c hc).1⟩
  case identifier => exact (fares_readIdent h).bind fun name _ => .pure ⟨rfl, rfl⟩
  case memberExpression =>
    exact fares_readMember hread h span hfilled.1.1 hfilled.1.2 hfilled.2
  case assignmentExpression =>
    refine (fares_need h hfilled.1.1).bind fun op _ => fares_object h hfilled.1.2 fun left hl => ?_
    exact (fares_readTarget hread hl).bind fun x hx => fares_needed hread h hfilled.2 fun y hy =>
      .pure (isBuilt_of rfl rfl (by simp [hx, hy]))
  case updateExpression =>
    refine (fares_need h hfilled.1).bind fun op _ => fares_object h hfilled.2 fun target ht => ?_
    exact (fares_readTarget hread ht).bind fun x hx => .pure (isBuilt_of rfl rfl (by simp [hx]))
  case unaryExpression =>
    exact (fares_need h hfilled.1).bind fun op _ => fares_needed hread h hfilled.2 fun x hx =>
      .pure (isBuilt_of rfl rfl (by simp [hx]))
  case binaryExpression =>
    exact (fares_need h hfilled.1.1).bind fun op _ => fares_needed hread h hfilled.1.2 fun x hx =>
      fares_needed hread h hfilled.2 fun y hy => .pure (isBuilt_of rfl rfl (by simp [hx, hy]))
  case logicalExpression =>
    refine fares_any h hfilled.1.1 fun v _ hv => (fares_readLogicalOp hv).bind fun op _ => ?_
    exact fares_needed hread h hfilled.1.2 fun x hx => fares_needed hread h hfilled.2 fun y hy =>
      .pure (isBuilt_of rfl rfl (by simp [hx, hy]))
  case conditionalExpression =>
    exact fares_needed hread h hfilled.1.1 fun x hx => fares_needed hread h hfilled.1.2 fun y hy =>
      fares_needed hread h hfilled.2 fun z hz => .pure (isBuilt_of rfl rfl (by simp [hx, hy, hz]))
  case callExpression =>
    split
    · exact .refuse rfl
    · exact fares_needed hread h hfilled.1 fun x hx => fares_items hread h hfilled.2 fun xs hxs =>
        .pure (isBuilt_of rfl rfl (List.forall_mem_cons.mpr ⟨hx, hxs⟩))
  case newExpression =>
    exact fares_needed hread h hfilled.1 fun x hx => fares_items hread h hfilled.2 fun xs hxs =>
      .pure (isBuilt_of rfl rfl (List.forall_mem_cons.mpr ⟨hx, hxs⟩))

omit h in
theorem IsReader.readNode : IsReader (readNode read) := by
  intro v hv
  cases v with
  | null => exact .pure ⟨rfl, fun hnull => absurd rfl hnull, nofun⟩
  | obj fields =>
    have hnode := isCompleteNode_of_isComplete hv
    unfold isCompleteNode at hnode
    simp only [Document.readNode]
    cases htype : Json.find? "type" fields with
    | none => exact .throw rfl
    | some w =>
      rw [htype] at hnode
      cases w with
      | str s =>
        refine (fares_spanOf _).bind fun span _ => ?_
        split
        · exact .throw rfl
        cases hname : NodeType.ofName? s with
        | none => exact .throw rfl
        | some type =>
          dsimp only at hnode ⊢
          rw [hname] at hnode
          have hbuilt := fares_readTyped hread hv hnode span
          -- only of blocks it is known what they are read as
          by_cases htyped : isTyped .blockStatement (.obj fields) = true
          · obtain rfl : s = "BlockStatement" := by
              simpa [isTyped, get, htype, Json.isText, NodeType.name] using htyped
            obtain rfl : .blockStatement = type := Option.some.inj hname
            have hblock : Fares (fun n => n.isBlock = true)
                (readTyped read .blockStatement fields span) :=
              (fares_readStatements hread (isComplete_get hv _)).bind fun xs _ => .pure rfl
            exact (hbuilt.and hblock).imp fun n hn => ⟨hn.1.1, fun _ => hn.1.2, fun _ => hn.2⟩
          · exact hbuilt.imp fun n hn => ⟨hn.1, fun _ => hn.2, fun ht => absurd ht htyped⟩
      | _ => cases hnode
  | _ => exact .throw rfl

end

theorem isReader_readWithin (levels : Nat) : IsReader (readWithin levels) := by
  induction levels with
  | zero => exact fun v _ => .throw rfl
  | succ levels ih => exact ih.readNode

/-- **Complete documents are read or refused.** -/
theorem fares_readProgram {fields : List (String × Json)} (h : isComplete (.obj fields) = true) :
    Fares (fun n => n.isWhole = true) (readProgram fields) := by
  simp only [readProgram]
  split
  · exact .refuse rfl
  split
  · exact (fares_spanOf _).bind fun span _ => .refuse rfl
  refine (fares_readStatements (isReader_readWithin _) (isComplete_get h _)).bind fun xs hxs => ?_
  exact (fares_spanOf _).bind fun span _ => .pure (isWhole_of rfl rfl hxs)

theorem fares_read {document : Json} (h : isComplete document = true) :
    Fares (fun n => n.isWhole = true) (read document) := by
  cases document with
  | obj fields => exact fares_readProgram h
  | _ => exact .throw rfl

end Document

theorem Script.isWhole_widen (text : String) {tree : Node} (h : tree.isWhole = true) :
    (widen text tree).isWhole = true := by
  cases tree with
  | program xs => exact (Node.isWhole_iff rfl).mpr ((Node.isWhole_iff rfl).mp h)
  | _ => exact h

end ScopeLowering

import ScopeLowering.Syntax.Basic

/-!
# The phrases of a script

A *phrase* is a node of a tree or a name in it. This module says which phrases stand directly inside
a node (`Node.slots`) and lists those of a tree, all of them (`Node.phrases`) or only up to the
border of some nodes (`Node.reach`). There are two ways to argue about them: a fact about all
phrases is one about the root and one about each of its slots (`forall_phrases`), and what passes
from the slots of a node to the node holds everywhere (`Node.bySlots`).

## The model

A tree may come from any parser, so any node may stand in any slot. A tree is *sorted* if every slot
holds a node of the sort that the language has there (`Node.isSorted`). Nothing more is asked: a
function declaration counts as an expression too, and spans may be anything.
-/

namespace ScopeLowering

namespace Node

/-! ### What stands in a node -/

/-- The phrases directly inside a node, in the order of the text. A slot may be empty. -/
@[simp] def slots : Node → List Node
  | absent | ident _ | literal .. | thisExpr _ | emptyStmt _ | breakStmt _ | continueStmt _ => []
  | lookup name => [ident name]
  | arrayLit xs _ | objectLit xs _ | sequence xs _ | varDecl _ xs _ | block xs _ | program xs _ =>
    xs
  | property _ x _ | update _ x _ _ | unary _ x _ | exprStmt x _ | returnStmt x _
  | throwStmt x _ => [x]
  | member x y _ _ | assign _ x y _ | binary _ x y _ | logical _ x y _ | whileStmt x y _
  | doWhileStmt x y _ | withStmt x y _ => [x, y]
  | conditional x y z _ | ifStmt x y z _ | tryStmt x y z _ | forEachStmt x y z _ _ => [x, y, z]
  | forStmt x y z w _ => [x, y, z, w]
  | call x xs _ | newCall x xs _ | caseClause x xs _ | switchStmt x xs _ => x :: xs
  | function _ name params body _ _ => name.toList.map ident ++ params.map ident ++ body
  | declarator name x _ => [ident name, x]
  | catchClause param x _ => param.toList.map ident ++ [x]

/-- Names have no slots. -/
theorem idents_bySlots {P : Node → Prop} (step : ∀ n, (∀ c ∈ n.slots, P c) → P n)
    (names : List Ident) : ∀ c ∈ names.map ident, P c := by
  intro c hc
  obtain ⟨name, _, rfl⟩ := List.mem_map.mp hc
  exact step _ nofun

mutual

/-- What passes from the slots of a node to the node holds of every node. -/
@[elab_as_elim] theorem bySlots {P : Node → Prop} (step : ∀ n, (∀ c ∈ n.slots, P c) → P n)
    (n : Node) : P n := by
  refine step n ?_
  cases n with
  | absent | ident | literal | thisExpr | emptyStmt | breakStmt | continueStmt => exact nofun
  | lookup name =>
    simp only [slots, List.forall_mem_cons]
    exact ⟨step _ nofun, nofun⟩
  | arrayLit xs | objectLit xs | sequence xs | varDecl _ xs | block xs | program xs =>
    exact bySlots_list step xs
  | property _ x | update _ x | unary _ x | exprStmt x | returnStmt x | throwStmt x =>
    simp only [slots, List.forall_mem_cons]
    exact ⟨bySlots step x, nofun⟩
  | member x y | assign _ x y | binary _ x y | logical _ x y | whileStmt x y | doWhileStmt x y
  | withStmt x y =>
    simp only [slots, List.forall_mem_cons]
    exact ⟨bySlots step x, bySlots step y, nofun⟩
  | conditional x y z | ifStmt x y z | tryStmt x y z | forEachStmt x y z =>
    simp only [slots, List.forall_mem_cons]
    exact ⟨bySlots step x, bySlots step y, bySlots step z, nofun⟩
  | forStmt x y z w =>
    simp only [slots, List.forall_mem_cons]
    exact ⟨bySlots step x, bySlots step y, bySlots step z, bySlots step w, nofun⟩
  | call x xs | newCall x xs | caseClause x xs | switchStmt x xs =>
    simp only [slots, List.forall_mem_cons]
    exact ⟨bySlots step x, bySlots_list step xs⟩
  | function _ name params body =>
    simp only [slots, List.forall_mem_append]
    exact ⟨⟨idents_bySlots step _, idents_bySlots step _⟩, bySlots_list step body⟩
  | declarator name x =>
    simp only [slots, List.forall_mem_cons]
    exact ⟨step _ nofun, bySlots step x, nofun⟩
  | catchClause param x =>
    simp only [slots, List.forall_mem_append, List.forall_mem_cons]
    exact ⟨idents_bySlots step _, bySlots step x, nofun⟩

theorem bySlots_list {P : Node → Prop} (step : ∀ n, (∀ c ∈ n.slots, P c) → P n)
    (xs : List Node) : ∀ c ∈ xs, P c := by
  cases xs with
  | nil => exact nofun
  | cons x xs =>
    rw [List.forall_mem_cons]
    exact ⟨bySlots step x, bySlots_list step xs⟩

end

/-- The same, where a slot with nothing in it is a case of its own. -/
@[elab_as_elim] theorem byPhrases {P : Node → Prop} (absent : P .absent)
    (step : ∀ n, n.isAbsent = false → (∀ c ∈ n.slots, P c) → P n) (n : Node) : P n := by
  induction n using bySlots with
  | step n ih =>
    cases n with
    | absent => exact absent
    | _ => exact step _ rfl ih

end Node

/-! ### All phrases of a tree -/

mutual

/-- The phrases of a tree, each before what stands in it, without what stands in a closed one. -/
def Node.reach (closed : Node → Bool) (n : Node) : List Node :=
  if closed n then [n]
  else
    match n with
    | .absent => []
    | .ident _ | .literal .. | .thisExpr _ | .emptyStmt _ | .breakStmt _ | .continueStmt _ => [n]
    | .lookup name => [n, .ident name]
    | .arrayLit xs _ | .objectLit xs _ | .sequence xs _ | .varDecl _ xs _ | .block xs _
    | .program xs _ => n :: reachAll closed xs
    | .property _ x _ | .update _ x _ _ | .unary _ x _ | .exprStmt x _ | .returnStmt x _
    | .throwStmt x _ => n :: x.reach closed
    | .member x y _ _ | .assign _ x y _ | .binary _ x y _ | .logical _ x y _ | .whileStmt x y _
    | .doWhileStmt x y _ | .withStmt x y _ => n :: (x.reach closed ++ y.reach closed)
    | .conditional x y z _ | .ifStmt x y z _ | .tryStmt x y z _ | .forEachStmt x y z _ _ =>
      n :: (x.reach closed ++ y.reach closed ++ z.reach closed)
    | .forStmt x y z w _ =>
      n :: (x.reach closed ++ y.reach closed ++ z.reach closed ++ w.reach closed)
    | .call x xs _ | .newCall x xs _ | .caseClause x xs _ | .switchStmt x xs _ =>
      n :: (x.reach closed ++ reachAll closed xs)
    | .function _ name params body _ _ =>
      n :: (name.toList.map .ident ++ params.map .ident ++ reachAll closed body)
    | .declarator name x _ => n :: .ident name :: x.reach closed
    | .catchClause param x _ => n :: (param.toList.map .ident ++ x.reach closed)

/-- The phrases of some trees, without what stands in a closed one. -/
def reachAll (closed : Node → Bool) (ns : List Node) : List Node :=
  match ns with
  | [] => []
  | n :: rest => n.reach closed ++ reachAll closed rest

end

theorem reachAll_eq (closed : Node → Bool) (ns : List Node) :
    reachAll closed ns = ns.flatMap (Node.reach closed) := by
  induction ns with
  | nil => rfl
  | cons n rest ih => rw [reachAll, ih, List.flatMap_cons]

namespace Node

theorem reach_ident (closed : Node → Bool) (name : Ident) :
    (ident name).reach closed = [ident name] := by
  unfold reach
  exact ite_self _

theorem flatMap_reach_ident (closed : Node → Bool) (names : List Ident) :
    (names.map ident).flatMap (reach closed) = names.map ident := by
  simp [List.flatMap_map, reach_ident, ← List.map_eq_flatMap]

/-- The root of a tree is in reach, and so is what is in reach from its slots, unless it is
closed. -/
theorem reach_eq (closed : Node → Bool) {n : Node} (h : n.isAbsent = false) :
    n.reach closed = n :: if closed n then [] else n.slots.flatMap (reach closed) := by
  cases hc : closed n with
  | true =>
    unfold reach
    rw [if_pos hc, if_pos rfl]
  | false =>
    cases n with
    | absent => cases h
    | _ => simp [reach, hc, slots, reachAll_eq, flatMap_reach_ident]

/-- All phrases of a tree, each before what stands in it. -/
def phrases (n : Node) : List Node := n.reach fun _ => false

/-- The phrases of a tree are its root and those of its slots. -/
theorem phrases_eq {n : Node} (h : n.isAbsent = false) :
    n.phrases = n :: n.slots.flatMap phrases := reach_eq _ h

/-- A fact about all phrases of a tree is one about its root and those of its slots. -/
theorem forall_phrases {P : Node → Prop} {n : Node} (h : n.isAbsent = false) :
    (∀ m ∈ n.phrases, P m) ↔ P n ∧ ∀ c ∈ n.slots, ∀ m ∈ c.phrases, P m := by
  simp only [phrases_eq h, List.forall_mem_cons, List.mem_flatMap, forall_exists_index, and_imp]
  refine and_congr_right fun _ => ?_
  constructor
  · exact fun hall c hc m hm => hall m c hc hm
  · exact fun hall m c hc hm => hall c hc m hm

/-! ### Sorts -/

/-- Is this an expression? -/
def isExpression : Node → Bool
  | literal .. | lookup _ | thisExpr _ | arrayLit .. | objectLit .. | member .. | assign ..
  | update .. | unary .. | binary .. | logical .. | conditional .. | call .. | newCall ..
  | sequence .. | function .. => true
  | _ => false

/-- Is this a statement? -/
def isStatement : Node → Bool
  | function .declaration .. | varDecl .. | exprStmt .. | block .. | emptyStmt _ | ifStmt ..
  | forStmt .. | forEachStmt .. | whileStmt .. | doWhileStmt .. | returnStmt .. | breakStmt _
  | continueStmt _ | throwStmt .. | tryStmt .. | switchStmt .. | withStmt .. => true
  | _ => false

/-- Can this be assigned to? -/
def isTarget : Node → Bool
  | lookup _ | member .. => true
  | _ => false

def isLiteral : Node → Bool
  | literal .. => true
  | _ => false

def isProperty : Node → Bool
  | property .. => true
  | _ => false

def isDeclarator : Node → Bool
  | declarator .. => true
  | _ => false

def isVarDecl : Node → Bool
  | varDecl .. => true
  | _ => false

def isBlock : Node → Bool
  | block .. => true
  | _ => false

def isCatchClause : Node → Bool
  | catchClause .. => true
  | _ => false

def isCaseClause : Node → Bool
  | caseClause .. => true
  | _ => false

/-- Is there nothing here, or something of the sort? -/
def isOptional (sort : Node → Bool) (n : Node) : Bool := n.isAbsent || sort n

/-- Does each slot of a node hold a node of the sort that belongs there? -/
def isFormed : Node → Bool
  | absent | ident _ | literal .. | lookup _ | thisExpr _ | emptyStmt _ | breakStmt _
  | continueStmt _ => true
  | arrayLit xs _ => xs.all (isOptional isExpression)
  | property _ x _ | unary _ x _ | exprStmt x _ | throwStmt x _ => x.isExpression
  | objectLit xs _ => xs.all isProperty
  -- a key without brackets is written as a literal
  | member x key computed _ =>
    x.isExpression && if computed then key.isExpression else key.isLiteral
  | assign _ x y _ => x.isTarget && y.isExpression
  | update _ x _ _ => x.isTarget
  | binary _ x y _ | logical _ x y _ => x.isExpression && y.isExpression
  | conditional x y z _ => x.isExpression && y.isExpression && z.isExpression
  | call x xs _ | newCall x xs _ => x.isExpression && xs.all isExpression
  | sequence xs _ => xs.all isExpression
  | function form name _ body _ _ => (form == .expression || name.isSome) && body.all isStatement
  | declarator _ x _ | returnStmt x _ => x.isOptional isExpression
  | varDecl _ ds _ => ds.all isDeclarator
  | block xs _ | program xs _ => xs.all isStatement
  | ifStmt x y z _ => x.isExpression && y.isStatement && z.isOptional isStatement
  | forStmt x y z w _ =>
    (x.isOptional isExpression || x.isVarDecl) && y.isOptional isExpression &&
      z.isOptional isExpression && w.isStatement
  | forEachStmt x y z _ _ => (x.isTarget || x.isVarDecl) && y.isExpression && z.isStatement
  | whileStmt x y _ | withStmt x y _ => x.isExpression && y.isStatement
  | doWhileStmt x y _ => x.isStatement && y.isExpression
  | catchClause _ x _ => x.isBlock
  | tryStmt x y z _ => x.isBlock && y.isOptional isCatchClause && z.isOptional isBlock
  | caseClause x xs _ => x.isOptional isExpression && xs.all isStatement
  | switchStmt x xs _ => x.isExpression && xs.all isCaseClause

/-- Does every slot of a tree hold a node of the sort that belongs there? -/
def isSorted (n : Node) : Bool := n.phrases.all isFormed

theorem isSorted_iff {n : Node} (h : n.isAbsent = false) :
    n.isSorted = true ↔ n.isFormed = true ∧ ∀ c ∈ n.slots, c.isSorted = true := by
  simp only [isSorted, List.all_eq_true]
  exact forall_phrases h

end Node

end ScopeLowering

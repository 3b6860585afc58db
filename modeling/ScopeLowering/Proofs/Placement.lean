import ScopeLowering.Proofs.EarlyErrors
import ScopeLowering.Proofs.Phrases

/-!
# Phrases in their places

A phrase is *in its place* if it has a sensible span within that of the node around it. A tree of
which this is true is *nested* (`Node.isNested`). Reading a tree does not look at every phrase:
`Node.checked` lists those that are held to the span of a node, and a tree is *checked* if they are
in their places (`Node.isChecked`). Three phrases are not held to the node around them: the parts of
a declarator, which are held to the statement; a key without brackets; and the own name of a
function expression, if the function hides it.

Whether a function hides its own name depends on what it declares. `Node.hoisted` and `Node.lexical`
read that off the tree.
-/

namespace ScopeLowering

/-! ### Names that a stretch declares -/

namespace Node

/-- The names that a node itself declares for the function around it. -/
@[simp] def hoistedHere : Node → List String
  | function form name .. => if form = .declaration then name.toList.map (·.text) else []
  | varDecl keyword ds _ => if keyword = .varWord then boundNames ds else []
  | _ => []

/-- The names that a node itself declares for the scope around it. -/
@[simp] def lexicalHere : Node → List String
  | varDecl keyword ds _ => if keyword = .varWord then [] else boundNames ds
  | _ => []

@[simp] def isFunction : Node → Bool
  | function .. => true
  | _ => false

/-- Does the node have a scope of its own? -/
@[simp] def isScope : Node → Bool
  | function .. | block .. | forStmt .. | forEachStmt .. | whileStmt .. | doWhileStmt ..
  | catchClause .. | switchStmt .. => true
  | _ => false

/-- The names that a tree declares for the function around it. -/
def hoisted (n : Node) : List String := (n.reach isFunction).flatMap hoistedHere

/-- The names that a tree declares for the scope around it. -/
def lexical (n : Node) : List String := (n.reach isScope).flatMap lexicalHere

/-- What the phrases in reach declare is what the root declares and what is declared in its slots,
unless it is closed. -/
theorem flatMap_reach {closed : Node → Bool} {here : Node → List String} (ha : here absent = [])
    (n : Node) :
    (n.reach closed).flatMap here = here n ++
      if closed n then [] else n.slots.flatMap fun c => (c.reach closed).flatMap here := by
  cases h : n.isAbsent with
  | true =>
    cases n with
    | absent => cases hc : closed absent <;> simp [reach, hc, ha]
    | _ => cases h
  | false =>
    rw [reach_eq _ h, List.flatMap_cons]
    split
    · rfl
    · rw [List.flatMap_assoc]

theorem hoisted_eq (n : Node) :
    n.hoisted = n.hoistedHere ++ if n.isFunction then [] else n.slots.flatMap hoisted :=
  flatMap_reach rfl n

theorem lexical_eq (n : Node) :
    n.lexical = n.lexicalHere ++ if n.isScope then [] else n.slots.flatMap lexical :=
  flatMap_reach rfl n

@[simp] theorem hoisted_ident (name : Ident) : (ident name).hoisted = [] := rfl

@[simp] theorem lexical_ident (name : Ident) : (ident name).lexical = [] := rfl

@[simp] theorem hoisted_literal (v : Constant) (s : Span) : (literal v s).hoisted = [] := rfl

@[simp] theorem lexical_literal (v : Constant) (s : Span) : (literal v s).lexical = [] := rfl

/-- Is this an expression or part of one, or nothing? -/
def isBare : Node → Bool
  | absent | ident _ | property .. => true
  | n => n.isExpression

theorem isBare_of_isExpression {n : Node} (h : n.isExpression = true) : n.isBare = true := by
  cases n with
  | absent | ident | property => rfl
  | _ => exact h

theorem isBare_of_isTarget {n : Node} (h : n.isTarget = true) : n.isBare = true := by
  cases n with
  | lookup | member => rfl
  | _ => cases h

/-- Expressions consist of expressions. -/
theorem isBare_slots {n : Node} (hf : n.isFormed = true) (hb : n.isBare = true)
    (hs : n.isScope = false) : ∀ c ∈ n.slots, c.isBare = true := by
  have hexpr := @isBare_of_isExpression
  have htarget := @isBare_of_isTarget
  cases n with
  | absent | ident | literal | thisExpr => simp
  | lookup name => simp [isBare]
  | arrayLit xs =>
    intro c hc
    rcases Bool.or_eq_true_iff.mp (List.all_eq_true.mp hf c hc) with ha | he
    · cases c with
      | absent => rfl
      | _ => cases ha
    · exact hexpr he
  | objectLit xs =>
    intro c hc
    have hp := List.all_eq_true.mp hf c hc
    cases c with
    | property => rfl
    | _ => cases hp
  | member x key computed =>
    simp only [isFormed, Bool.and_eq_true] at hf
    simp only [slots, List.forall_mem_cons]
    refine ⟨hexpr hf.1, ?_, by simp⟩
    cases computed with
    | true => exact hexpr hf.2
    | false =>
      cases key with
      | literal => rfl
      | _ => cases hf.2
  | function => cases hs
  | property | unary | assign | update | binary | logical | conditional | call | newCall
  | sequence => simp_all [isFormed]
  | _ => cases hb

theorem lexical_of_isBare {n : Node} (hs : n.isSorted = true) (hb : n.isBare = true) :
    n.lexical = [] := by
  induction n using Node.byPhrases with
  | absent => rfl
  | step n ha ih =>
    obtain ⟨hf, hss⟩ := (isSorted_iff ha).mp hs
    have hhere : n.lexicalHere = [] := by
      cases n with
      | varDecl => cases hb
      | _ => rfl
    rw [lexical_eq, hhere, List.nil_append]
    split
    · rfl
    · rename_i hscope
      exact List.flatMap_eq_nil_iff.mpr fun c hc =>
        ih c hc (hss c hc) (isBare_slots hf hb (Bool.eq_false_iff.mpr hscope) c hc)

/-! ### Places -/

/-- Does a phrase have a sensible span within that of another? One that is absent does. -/
def isPlacedIn (c m : Node) : Bool :=
  c.isAbsent || (c.span.isSensible && (m.isAbsent || c.span.isWithin m.span))

/-- Is this the name of a function expression that declares the name itself? -/
def isHidden (form : FunctionForm) (params : List Ident) (body : List Node) (name : Ident) : Bool :=
  form == .expression &&
    (params.map (·.text) ++ (body.flatMap hoisted ++ body.flatMap lexical)).contains name.text

/-- The phrases that are held to the span of a node. -/
@[simp] def checked (n : Node) : List Node :=
  match n with
  | member x key computed _ => if computed then [x, key] else [x]
  | declarator .. => []
  | varDecl _ ds _ => ds ++ ds.flatMap slots
  | function form name params body _ _ =>
    (if name.any (isHidden form params body) then [] else name.toList.map ident) ++
      params.map ident ++ body
  | _ => n.slots

/-- Are the phrases of a tree in their places, as far as they are held to any? -/
def isChecked (n : Node) : Bool := n.phrases.all fun m => m.checked.all (·.isPlacedIn m)

/-- Are the phrases of a tree in their places? -/
def isNested (n : Node) : Bool := n.phrases.all fun m => m.slots.all (·.isPlacedIn m)

theorem isChecked_iff {n : Node} (h : n.isAbsent = false) :
    n.isChecked = true ↔
      (∀ c ∈ n.checked, c.isPlacedIn n = true) ∧ ∀ c ∈ n.slots, c.isChecked = true := by
  simp only [isChecked, List.all_eq_true]
  exact forall_phrases h

theorem isNested_iff {n : Node} (h : n.isAbsent = false) :
    n.isNested = true ↔
      (∀ c ∈ n.slots, c.isPlacedIn n = true) ∧ ∀ c ∈ n.slots, c.isNested = true := by
  simp only [isNested, List.all_eq_true]
  exact forall_phrases h

theorem isPlacedIn_iff {c : Node} (h : c.isAbsent = false) (m : Node) :
    c.isPlacedIn m = true ↔
      c.span.isSensible = true ∧ (m.isAbsent = true ∨ c.span.isWithin m.span = true) := by
  simp [isPlacedIn, h]

/-- A lookup is no more than its name. -/
theorem isPlacedIn_lookup {name : Ident} {m : Node} (h : (lookup name).isPlacedIn m = true) :
    (ident name).isPlacedIn (lookup name) = true := by
  rw [isPlacedIn_iff rfl] at h ⊢
  exact ⟨h.1, .inr (by simp [Span.isWithin, span])⟩

@[simp] theorem isPlacedIn_absent (m : Node) : absent.isPlacedIn m = true := rfl

@[simp] theorem isChecked_absent : absent.isChecked = true := rfl

@[simp] theorem isChecked_literal (v : Constant) (s : Span) : (literal v s).isChecked = true := rfl

@[simp] theorem isChecked_ident (name : Ident) : (ident name).isChecked = true := rfl

theorem isPlacedIn_trans {c d m : Node} (hd : d.isAbsent = false) (h : c.isPlacedIn d = true)
    (h' : d.isPlacedIn m = true) : c.isPlacedIn m = true := by
  cases hc : c.isAbsent with
  | true => simp [isPlacedIn, hc]
  | false =>
    rw [isPlacedIn_iff hc] at h ⊢
    rw [isPlacedIn_iff hd] at h'
    refine ⟨h.1, h'.2.imp_right fun hdm => ?_⟩
    have hcd := h.2.resolve_left (by simp [hd])
    simp only [Span.isWithin, Bool.and_eq_true, decide_eq_true_eq] at hcd hdm ⊢
    omega

/-- A node is held to the slot that it is in, or to one further out. -/
theorem mem_checked {n c : Node} (h : c ∈ n.checked) :
    c ∈ n.slots ∨ ∃ d ∈ n.slots, c ∈ d.slots := by
  cases n with
  | varDecl k ds =>
    rcases List.mem_append.mp h with h | h
    · exact .inl h
    · exact .inr (List.mem_flatMap.mp h)
  | declarator => cases h
  | member x key computed => cases computed <;> simp_all
  | function form name params body =>
    left
    simp only [checked, slots, List.mem_append] at h ⊢
    refine h.imp_left (Or.imp_left fun h => ?_)
    split at h
    · cases h
    · exact h
  | _ => exact .inl h

/-- What is in its place is in the place that it is held to. -/
theorem isChecked_of_isNested {n : Node} (h : n.isNested = true) : n.isChecked = true := by
  induction n using Node.byPhrases with
  | absent => rfl
  | step n ha ih =>
    obtain ⟨hplaced, hnested⟩ := (isNested_iff ha).mp h
    refine (isChecked_iff ha).mpr ⟨fun c hc => ?_, fun c hc => ih c hc (hnested c hc)⟩
    rcases mem_checked hc with hc | ⟨d, hd, hc⟩
    · exact hplaced c hc
    · have hda : d.isAbsent = false := by
        cases d with
        | absent => cases hc
        | _ => rfl
      exact isPlacedIn_trans hda (((isNested_iff hda).mp (hnested d hd)).1 c hc) (hplaced d hd)

theorem isChecked_block (xs : List Node) (s : Span) :
    (block xs s).isChecked = true ↔
      (∀ c ∈ xs, c.isPlacedIn (block xs s) = true) ∧ ∀ c ∈ xs, c.isChecked = true :=
  isChecked_iff rfl

@[simp] theorem isChecked_declarator (name : Ident) (x : Node) (s : Span) :
    (declarator name x s).isChecked = true ↔ x.isChecked = true := by
  rw [isChecked_iff rfl]
  simp

/-! ### Nodes that are read -/

/-- Is there a node that is read by itself? -/
@[simp] def isReadable : Node → Bool
  | absent | ident _ | declarator .. => false
  | _ => true

theorem of_isOptional {sort : Node → Bool} {n : Node} (h : n.isOptional sort = true)
    (hn : n.isAbsent = false) : sort n = true := by simpa [isOptional, hn] using h

/-- What is of some sort other than absent nodes, names and declarators can be read. -/
theorem isReadable_of {sort : Node → Bool} (ha : sort absent = false)
    (hi : ∀ name, sort (ident name) = false)
    (hd : ∀ name init span, sort (declarator name init span) = false) {n : Node}
    (h : sort n = true) : n.isReadable = true := by
  cases n with
  | absent => exact absurd h (by simp [ha])
  | ident => exact absurd h (by simp [hi])
  | declarator => exact absurd h (by simp [hd])
  | _ => rfl

@[grind →] theorem isReadable_of_isExpression {n : Node} (h : n.isExpression = true) :
    n.isReadable = true := isReadable_of rfl (fun _ => rfl) (fun _ _ _ => rfl) h

@[grind →] theorem isReadable_of_isStatement {n : Node} (h : n.isStatement = true) :
    n.isReadable = true := isReadable_of rfl (fun _ => rfl) (fun _ _ _ => rfl) h

@[grind →] theorem isReadable_of_isTarget {n : Node} (h : n.isTarget = true) :
    n.isReadable = true := isReadable_of rfl (fun _ => rfl) (fun _ _ _ => rfl) h

@[grind →] theorem isReadable_of_isVarDecl {n : Node} (h : n.isVarDecl = true) :
    n.isReadable = true := isReadable_of rfl (fun _ => rfl) (fun _ _ _ => rfl) h

@[grind →] theorem isReadable_of_isCaseClause {n : Node} (h : n.isCaseClause = true) :
    n.isReadable = true := isReadable_of rfl (fun _ => rfl) (fun _ _ _ => rfl) h

@[grind →] theorem isReadable_of_isProperty {n : Node} (h : n.isProperty = true) :
    n.isReadable = true := isReadable_of rfl (fun _ => rfl) (fun _ _ _ => rfl) h

@[grind →] theorem isReadable_of_isBlock {n : Node} (h : n.isBlock = true) : n.isReadable = true :=
  isReadable_of rfl (fun _ => rfl) (fun _ _ _ => rfl) h

@[grind →] theorem isReadable_of_isCatchClause {n : Node} (h : n.isCatchClause = true) :
    n.isReadable = true := isReadable_of rfl (fun _ => rfl) (fun _ _ _ => rfl) h

@[grind →] theorem isAbsent_of_isReadable {n : Node} (h : n.isReadable = true) :
    n.isAbsent = false := by
  cases n with
  | absent => cases h
  | _ => rfl

def isProgram : Node → Bool
  | program .. => true
  | _ => false

end Node

end ScopeLowering

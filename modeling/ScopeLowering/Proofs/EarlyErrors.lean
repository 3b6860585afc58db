import ScopeLowering.Proofs.Rewriting

/-!
# Early errors

Some scripts are refused before any of them runs, for what they declare: a `let` in a scope that has
the name already, a `const` without a value, a `let` where a lone statement stands. This module says
which scripts obey the rules on declarations (`Node.isLegal`), and what becomes of that when some
`var`s of a script take other keywords (`Inventory.Becomes`). One rule stands apart from the others,
as it looks at nothing but the name: `let` and `const` do not declare the name `let`.

## The model

An `Inventory` is what a stretch of a script declares, as far as the scope around it has to know.
The names of `let`, `const` and functions belong to that scope, and those of `var` go on to the
function around it. Where a scope ends its rule is checked, and only the `var`s are left.

The rules count names: one that is declared by `let` or `const` is declared once, among all that its
scope declares or lets through. Functions of a sloppy script are as the language has them for the
sake of old scripts: a block may declare the same function twice, and a function under a lone `if`
is as good as one in a block.
-/

namespace ScopeLowering

/-! ### The rules -/

/-- How a statement stands in the one around it. -/
inductive Position where
  /-- Where any statement may stand. -/
  | listed
  /-- As the whole body of a statement, without braces. -/
  | sole
  /-- As the head of a loop over items. -/
  | head
  deriving DecidableEq

/-- The names that a stretch of a script declares. -/
structure Inventory where
  /-- By `let` and `const`. -/
  lexical : List String := []
  /-- By function declarations, or as parameters. -/
  functions : List String := []
  /-- By `var`, for the function around. -/
  vars : List String := []
  /-- Do the statements and the scopes inside obey the rules, but for the one on `let`? -/
  regular : Bool := true
  /-- Does no `let` or `const` declare the name `let`? -/
  sober : Bool := true

namespace Inventory

/-- One stretch after the other. -/
protected def append (s t : Inventory) : Inventory :=
  ⟨s.lexical ++ t.lexical, s.functions ++ t.functions, s.vars ++ t.vars, s.regular && t.regular,
    s.sober && t.sober⟩

instance : Append Inventory := ⟨Inventory.append⟩

/-- Is each of the names there once, and not among the others? -/
def areOnce (names others : List String) : Bool :=
  names.all fun x => (names ++ others).count x == 1

/-- A declaration statement. A `let` or `const` does not stand alone, and a `const` has values,
unless it takes them from a loop. -/
def ofStatement (pos : Position) (keyword : Keyword) (names : List String) (valued : Bool) :
    Inventory :=
  if keyword = .varWord then { vars := names }
  else
    { lexical := names
      regular := pos != .sole && (keyword != .constWord || pos == .head || valued)
      sober := !names.contains "let" }

/-- The whole body of a statement. -/
def sole (s : Inventory) : Inventory := { s with lexical := [], functions := [] }

/-- A block, the cases of a `switch`, or a `catch` clause with its parameter. A `var` may have the
name of the parameter. -/
def block (s : Inventory) (param : List String) : Inventory :=
  { vars := s.vars
    regular := s.regular && areOnce s.lexical (s.vars ++ (s.functions ++ param)) &&
      s.functions.all fun x => (s.vars ++ param).count x == 0
    sober := s.sober }

/-- A whole script, or a function with its parameters. -/
def closed (s : Inventory) : Inventory :=
  { regular := s.regular && areOnce s.lexical (s.vars ++ s.functions), sober := s.sober }

/-- A loop: what it declares at its head, and the rest. -/
def loop (head rest : Inventory) : Inventory :=
  { vars := head.vars ++ rest.vars
    regular := head.regular && rest.regular && areOnce head.lexical (head.vars ++ rest.vars)
    sober := head.sober && rest.sober }

end Inventory

/-- The names that declarators declare. -/
def boundNames (ds : List Node) : List String := ds.filterMap fun d => d.declared?.map (·.text)

/-- Does a declarator give its name a value? -/
def Node.isValued : Node → Bool
  | .declarator _ init _ => !init.isAbsent
  | _ => false

mutual

/-- What a node declares, and whether it obeys the rules. -/
def Node.inventory (pos : Position) : Node → Inventory
  | .absent | .ident _ | .literal .. | .lookup _ | .thisExpr _ | .emptyStmt _ | .breakStmt _
  | .continueStmt _ => {}
  | .arrayLit xs _ | .objectLit xs _ | .sequence xs _ => inventoryAll xs
  | .property _ x _ | .update _ x _ _ | .unary _ x _ | .exprStmt x _ | .returnStmt x _
  | .throwStmt x _ | .declarator _ x _ => x.inventory .listed
  | .member x key computed _ =>
    x.inventory .listed ++ if computed then key.inventory .listed else {}
  | .assign _ x y _ | .binary _ x y _ | .logical _ x y _ =>
    x.inventory .listed ++ y.inventory .listed
  | .conditional x y z _ | .tryStmt x y z _ =>
    x.inventory .listed ++ y.inventory .listed ++ z.inventory .listed
  -- a case has no scope of its own
  | .call x xs _ | .newCall x xs _ | .caseClause x xs _ => x.inventory .listed ++ inventoryAll xs
  | .function form name params body _ _ =>
    { functions := if form = .declaration then name.toList.map (·.text) else [] } ++
      (({ functions := params.map (·.text) } : Inventory) ++ inventoryAll body).closed
  | .varDecl keyword ds _ =>
    .ofStatement pos keyword (boundNames ds) (ds.all (·.isValued)) ++ inventoryAll ds
  | .block xs _ => (inventoryAll xs).block []
  | .ifStmt x y z _ =>
    x.inventory .listed ++ (y.inventory .sole).sole ++ (z.inventory .sole).sole
  | .whileStmt x y _ | .withStmt x y _ => x.inventory .listed ++ (y.inventory .sole).sole
  | .doWhileStmt x y _ => (x.inventory .sole).sole ++ y.inventory .listed
  | .forStmt x y z w _ =>
    .loop (x.inventory .listed)
      (y.inventory .listed ++ z.inventory .listed ++ (w.inventory .sole).sole)
  | .forEachStmt head x y _ _ =>
    .loop (head.inventory .head) (x.inventory .listed ++ (y.inventory .sole).sole)
  | .catchClause param (.block xs _) _ => (inventoryAll xs).block (param.toList.map (·.text))
  -- no script has another body here
  | .catchClause .. => { regular := false, sober := false }
  | .switchStmt x xs _ => x.inventory .listed ++ (inventoryAll xs).block []
  | .program xs _ => (inventoryAll xs).closed

/-- What some nodes declare, one after the other. -/
def inventoryAll : List Node → Inventory
  | [] => {}
  | n :: rest => n.inventory .listed ++ inventoryAll rest

end

/-- Does a script obey the rules on declarations, but for the one on the name `let`? -/
def Node.isRegular (script : Node) : Bool := (script.inventory .listed).regular

/-- Does a script obey the rules on declarations? -/
def Node.isLegal (script : Node) : Bool := script.isRegular && (script.inventory .listed).sober

/-! ### New keywords -/

namespace Inventory

theorem areOnce_iff {names others : List String} :
    areOnce names others = true ↔
      ∀ x, 0 < names.count x → names.count x + others.count x = 1 := by
  simp [areOnce, List.count_pos_iff]

/-- What a stretch of a script becomes when some of its `var`s take other keywords. Only names with
`movable` do, and they keep off the name `let` just if `bland` holds. -/
structure Becomes (movable : String → Prop) (bland : Prop) (s s' : Inventory) : Prop where
  functions : s'.functions = s.functions
  vars : ∀ x, s'.vars.count x ≤ s.vars.count x
  /-- No more names are declared for the scope than there were `var`s. -/
  total : ∀ x, s'.lexical.count x + s'.vars.count x ≤ s.lexical.count x + s.vars.count x
  moved : ∀ x, s'.vars.count x < s.vars.count x → movable x
  regular : s.regular = true → s'.regular = true
  sober : s.sober = true → (s'.sober = true ↔ bland)

namespace Becomes

variable {m m' : String → Prop} {p q : Prop} {s s' t t' : Inventory}

theorem refl (m : String → Prop) (s : Inventory) : Becomes m True s s := by
  refine ⟨rfl, fun _ => Nat.le_refl _, fun _ => Nat.le_refl _, fun x h => ?_, id, fun h => ?_⟩
  · exact absurd h (Nat.lt_irrefl _)
  · exact iff_of_true h trivial

theorem append (h : Becomes m p s s') (ht : Becomes m q t t') :
    Becomes m (p ∧ q) (s ++ t) (s' ++ t') := by
  have hv := h.vars
  have hvt := ht.vars
  constructor
  case functions =>
    show s'.functions ++ t'.functions = s.functions ++ t.functions
    rw [h.functions, ht.functions]
  case vars =>
    intro x
    show (s'.vars ++ t'.vars).count x ≤ (s.vars ++ t.vars).count x
    rw [List.count_append, List.count_append]
    exact Nat.add_le_add (hv x) (hvt x)
  case total =>
    intro x
    show (s'.lexical ++ t'.lexical).count x + (s'.vars ++ t'.vars).count x ≤
      (s.lexical ++ t.lexical).count x + (s.vars ++ t.vars).count x
    have := h.total x
    have := ht.total x
    simp only [List.count_append]
    omega
  case moved =>
    intro x hx
    change (s'.vars ++ t'.vars).count x < (s.vars ++ t.vars).count x at hx
    rw [List.count_append, List.count_append] at hx
    by_cases hs : s'.vars.count x < s.vars.count x
    · exact h.moved x hs
    · exact ht.moved x (by have := hv x; omega)
  case regular =>
    intro hr
    obtain ⟨hs, htr⟩ := Bool.and_eq_true_iff.mp hr
    exact Bool.and_eq_true_iff.mpr ⟨h.regular hs, ht.regular htr⟩
  case sober =>
    intro hr
    obtain ⟨hs, hts⟩ := Bool.and_eq_true_iff.mp hr
    show (s'.sober && t'.sober) = true ↔ p ∧ q
    rw [Bool.and_eq_true, h.sober hs, ht.sober hts]

theorem weaken (h : Becomes m p s s') (hm : ∀ x, m x → m' x) (hp : p ↔ q) :
    Becomes m' q s s' :=
  { h with moved := fun x hx => hm x (h.moved x hx), sober := fun hs => (h.sober hs).trans hp }

theorem sole (h : Becomes m p s s') : Becomes m p s.sole s'.sole :=
  ⟨rfl, h.vars, fun x => Nat.add_le_add_left (h.vars x) 0, h.moved, h.regular, h.sober⟩

/-- Names that were declared once still are, if none that moves is declared elsewhere. -/
theorem areOnce (h : Becomes m p s s') {others others' : List String}
    (hle : ∀ x, others'.count x ≤ others.count x)
    (hm : ∀ x, m x → s.vars.count x + others.count x ≤ 1)
    (hc : Inventory.areOnce s.lexical (s.vars ++ others) = true) :
    Inventory.areOnce s'.lexical (s'.vars ++ others') = true := by
  rw [areOnce_iff] at hc ⊢
  intro x hx
  have hcx := hc x
  have hv := h.vars x
  have ht := h.total x
  have hlex := hle x
  rw [List.count_append] at hcx ⊢
  -- a new name has left the `var`s, and there was one `var` of it
  by_cases hnew : s'.vars.count x < s.vars.count x
  · have := hm x (h.moved x hnew)
    omega
  · omega

theorem block (h : Becomes m p s s') {param : List String}
    (hm : ∀ x, m x → s.vars.count x + (s.functions ++ param).count x ≤ 1) :
    Becomes m p (s.block param) (s'.block param) := by
  refine ⟨rfl, h.vars, fun x => Nat.add_le_add_left (h.vars x) 0, h.moved, fun hr => ?_, h.sober⟩
  simp only [Inventory.block, Bool.and_eq_true] at hr ⊢
  obtain ⟨⟨hs, hc⟩, hf⟩ := hr
  have hc' := h.areOnce (fun _ => Nat.le_refl _) hm hc
  rw [h.functions]
  refine ⟨⟨h.regular hs, hc'⟩, List.all_eq_true.mpr fun x hx => ?_⟩
  have hx := eq_of_beq (List.all_eq_true.mp hf x hx)
  have hv := h.vars x
  rw [List.count_append] at hx
  rw [beq_iff_eq, List.count_append]
  omega

theorem closed (h : Becomes m p s s')
    (hm : ∀ x, m x → s.vars.count x + s.functions.count x ≤ 1) :
    Becomes m' p s.closed s'.closed := by
  refine ⟨rfl, fun _ => Nat.le_refl _, fun _ => Nat.le_refl _, fun x hx => ?_, fun hr => ?_,
    h.sober⟩
  · exact absurd hx (Nat.lt_irrefl _)
  · simp only [Inventory.closed, Bool.and_eq_true] at hr ⊢
    rw [h.functions]
    exact ⟨h.regular hr.1, h.areOnce (fun _ => Nat.le_refl _) hm hr.2⟩

theorem loop (h : Becomes m p s s') (ht : Becomes m q t t')
    (hm : ∀ x, m x → s.vars.count x + t.vars.count x ≤ 1) :
    Becomes m (p ∧ q) (s.loop t) (s'.loop t') := by
  have hall := h.append ht
  refine ⟨rfl, hall.vars, fun x => Nat.add_le_add_left (hall.vars x) 0, hall.moved, fun hr => ?_,
    hall.sober⟩
  simp only [Inventory.loop, Bool.and_eq_true] at hr ⊢
  exact ⟨⟨h.regular hr.1.1, ht.regular hr.1.2⟩, h.areOnce ht.vars hm hr.2⟩

/-- A `var` statement takes another keyword. -/
theorem statement {pos : Position} {k : Keyword} {names : List String} {valued : Bool}
    (hk : k ≠ .varWord → (∀ x ∈ names, m x) ∧ pos ≠ .sole ∧
      (k = .constWord → pos = .head ∨ valued = true))
    (hp : p ↔ (k ≠ .varWord → "let" ∉ names)) :
    Becomes m p (ofStatement pos .varWord names valued) (ofStatement pos k names valued) := by
  by_cases hv : k = .varWord
  · subst hv
    exact (refl m _).weaken (fun _ h => h) (by simp [hp])
  · obtain ⟨hmove, hpos, hconst⟩ := hk hv
    rw [ofStatement, ofStatement, if_pos rfl, if_neg hv]
    refine ⟨rfl, fun x => Nat.zero_le _, fun x => by simp, fun x hx => hmove x ?_, fun _ => ?_,
      fun _ => by simp [hp, hv]⟩
    · exact List.count_pos_iff.mp hx
    · by_cases hkc : k = .constWord
      · rcases hconst hkc with hh | hh <;> simp [hpos, hh]
      · simp [hpos, hkc]

end Becomes

end Inventory

end ScopeLowering

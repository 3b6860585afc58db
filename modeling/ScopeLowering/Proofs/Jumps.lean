import ScopeLowering.Machine.Action
import ScopeLowering.Proofs.Placement

/-!
# Jumps and where they land

A `return`, a `break` or a `continue` is a jump, and some node around it is where it lands: a
function, a loop, or a switch. In a tree, `Node.lets` says which jumps get out of a node. A script
has its jumps in place (`Node.landsJumps`) if none gets out of it, and no `break` or `continue` gets
out of a function.
-/

namespace ScopeLowering

/-- A way to leave a statement for a place further out. -/
inductive Jump where
  | returning
  | breaking
  | continuing
  deriving Repr, DecidableEq, Inhabited

/-- The jump that a signal stands for. -/
def Signal.jump? : Signal → Option Jump
  | returned _ => some .returning
  | broke => some .breaking
  | continued => some .continuing
  | thrown _ | exhausted | tooDeep | fault _ => none

/-- The jump that an action ends with. -/
def Ending.jump? {α : Type} : Ending α → Option Jump
  | ok .. => none
  | error s _ => s.jump?

namespace Node

/-- The jump that a statement is. -/
def jump? : Node → Option Jump
  | returnStmt .. => some .returning
  | breakStmt _ => some .breaking
  | continueStmt _ => some .continuing
  | _ => none

def isLoop : Node → Bool
  | whileStmt .. | doWhileStmt .. | forStmt .. | forEachStmt .. => true
  | _ => false

def isSwitch : Node → Bool
  | switchStmt .. => true
  | _ => false

end Node

/-- Does a jump from inside this node go no further? -/
def Jump.stopsAt : Jump → Node → Bool
  | returning, n => n.isFunction
  | breaking, n => n.isFunction || n.isLoop || n.isSwitch
  | continuing, n => n.isFunction || n.isLoop

namespace Node

/-- Does the node let such a jump out? -/
def lets (n : Node) (j : Jump) : Bool := (n.reach j.stopsAt).any (·.jump? == some j)

/-- Does no such jump get out of what stands in the node? -/
def confines (n : Node) (j : Jump) : Bool := n.slots.all fun c => !c.lets j

/-- Does each `break` and `continue` in a function of the tree stay in it? -/
def keepsJumps (n : Node) : Bool :=
  n.phrases.all fun f => !f.isFunction || (f.confines .breaking && f.confines .continuing)

/-- Is each `return` of a script in a function, each `break` in a loop or switch of its own function
or of the script, and each `continue` in such a loop? -/
def landsJumps (script : Node) : Bool :=
  script.keepsJumps && script.confines .returning && script.confines .breaking &&
    script.confines .continuing

/-! ### What nodes let out -/

/-- A node lets out the jump that it is, and what its slots let out, unless that stops here. -/
theorem lets_eq (n : Node) (j : Jump) :
    n.lets j = (n.jump? == some j || !j.stopsAt n && n.slots.any (·.lets j)) := by
  cases h : n.isAbsent with
  | true =>
    cases n with
    | absent => cases j <;> rfl
    | _ => cases h
  | false =>
    rw [lets, reach_eq _ h, List.any_cons]
    cases j.stopsAt n with
    | true => rfl
    | false => exact congrArg _ List.any_flatMap

/-- A node lets out the jump that it is. -/
theorem lets_of_jump? {n : Node} {j : Jump} (h : n.jump? = some j) : n.lets j = true := by
  rw [lets_eq, h, beq_self_eq_true, Bool.true_or]

/-- What a slot lets out the node lets out, unless it stops here. -/
theorem lets_of_slot {n c : Node} {j : Jump} (hstop : j.stopsAt n = false) (hc : c ∈ n.slots)
    (h : c.lets j = true) : n.lets j = true := by
  rw [lets_eq, hstop, List.any_eq_true.mpr ⟨c, hc, h⟩, Bool.not_false, Bool.true_and, Bool.or_true]

/-- Jumps stop at functions, loops and switches only. -/
theorem stopsAt_eq_false {n : Node} (hfunction : n.isFunction = false) (hloop : n.isLoop = false)
    (hswitch : n.isSwitch = false) (j : Jump) : j.stopsAt n = false := by
  cases j with
  | returning => exact hfunction
  | breaking => rw [Jump.stopsAt, hfunction, hloop, hswitch, Bool.or_self, Bool.or_self]
  | continuing => rw [Jump.stopsAt, hfunction, hloop, Bool.or_self]

/-- What stops at a node does not get out of it. -/
theorem stopsAt_of_lets {n : Node} {j : Jump} (h : n.lets j = true) : j.stopsAt n = false := by
  rw [lets_eq, Bool.or_eq_true_iff, beq_iff_eq, Bool.and_eq_true_iff] at h
  rcases h with hjump | ⟨hstop, _⟩
  · cases n with
    | returnStmt | breakStmt | continueStmt =>
      cases hjump
      rfl
    | _ => cases hjump
  · simpa using hstop

theorem lets_eq_false {n c : Node} {j : Jump} (h : n.confines j = true) (hc : c ∈ n.slots) :
    c.lets j = false := by
  simpa using List.all_eq_true.mp h c hc

/-! ### Trees that keep their jumps -/

/-- Is the tree sorted, and does each `break` and `continue` in a function of it stay there? -/
structure KeepsJumps (n : Node) : Prop where
  sorted : n.isSorted = true
  kept : n.keepsJumps = true

theorem KeepsJumps.slot {n c : Node} (h : n.KeepsJumps) (hc : c ∈ n.slots) : c.KeepsJumps := by
  have ha : n.isAbsent = false := by
    cases n with
    | absent => simp at hc
    | _ => rfl
  refine ⟨((isSorted_iff ha).mp h.sorted).2 c hc, List.all_eq_true.mpr ?_⟩
  exact ((forall_phrases ha).mp (List.all_eq_true.mp h.kept)).2 c hc

/-- All phrases of a tree that keeps its jumps do. -/
theorem KeepsJumps.phrase {n : Node} (h : n.KeepsJumps) : ∀ c ∈ n.phrases, c.KeepsJumps := by
  induction n using byPhrases with
  | absent => exact fun c hc => nomatch hc
  | step n ha ih => exact (forall_phrases ha).mpr ⟨h, fun c hc => ih c hc (h.slot hc)⟩

end Node

/-- Does the code of a function keep its jumps? -/
def Code.KeepsJumps (code : Code) : Prop :=
  ∀ c ∈ code.body, c.KeepsJumps ∧ c.lets .breaking = false ∧ c.lets .continuing = false

/-- A function that stands in a tree that keeps its jumps. -/
theorem Node.KeepsJumps.code {form : FunctionForm} {name : Option Ident} {params : List Ident}
    {body : List Node} {isArrow : Bool} {span : Span}
    (h : (Node.function form name params body isArrow span).KeepsJumps) :
    Code.KeepsJumps ⟨name, params, body, isArrow⟩ := by
  intro c hc
  have hslot : c ∈ (Node.function form name params body isArrow span).slots :=
    List.mem_append_right _ hc
  have hroot := ((forall_phrases rfl).mp (List.all_eq_true.mp h.kept)).1
  simp only [isFunction, Bool.not_true, Bool.false_or, Bool.and_eq_true] at hroot
  exact ⟨h.slot hslot, lets_eq_false hroot.1 hslot, lets_eq_false hroot.2 hslot⟩

end ScopeLowering

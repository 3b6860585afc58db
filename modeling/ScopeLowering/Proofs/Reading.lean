import ScopeLowering.Proofs.Layout

/-!
# Statements and their events

Reading a tree opens its declaration statements, each no more often than it is there, and declares
names for them with their keywords. Nothing else about a statement shows in the events. So whatever
is picked from the events, if it is not picked from any that is ordinary in this sense, is picked no
more often than from the statements of the tree (`count_picked`).
-/

namespace ScopeLowering

/-! ### Statements and their events -/

/-- The declaration statement that a node is. -/
@[simp] def Node.statement? : Node → Option Statement
  | varDecl keyword ds span => some (Event.statementOf keyword ds span)
  | _ => none

/-- What is picked from the declaration statements of a tree. -/
def Node.gather {α : Type} (f : Statement → Option α) (n : Node) : List α :=
  n.phrases.filterMap fun m => m.statement?.bind f

theorem Node.gather_eq {α : Type} (f : Statement → Option α) (n : Node) :
    n.gather f = (n.statement?.bind f).toList ++ n.slots.flatMap (gather f) := by
  cases h : n.isAbsent with
  | true =>
    cases n with
    | absent => rfl
    | _ => cases h
  | false =>
    unfold gather
    rw [phrases_eq h, List.filterMap_cons, List.filterMap_flatMap]
    cases n.statement?.bind f <;> rfl

@[simp] theorem Node.gather_ident {α : Type} (f : Statement → Option α) (name : Ident) :
    (ident name).gather f = [] := rfl

namespace Event

/-- Does the event open no statement and, if it declares a name in one, have the statement's
keyword? -/
@[simp, reducible] def isOrdinary : Event → Bool
  | openStatement _ => false
  | declare kind _ (some s) .. => kind == .declared s.keyword
  | declare _ _ none .. | enter .. | leave | closeStatement | callee .. | refer .. | evalCall _
  | dynamic | thisUse | fault _ => true

section Picked

variable {α : Type} (pick : Event → Option α)

/-- What is picked from some events. -/
def picked (es : List Event) : List α := es.filterMap pick

@[simp] theorem picked_nil : picked pick [] = [] := rfl

@[simp] theorem picked_append (es fs : List Event) :
    picked pick (es ++ fs) = picked pick es ++ picked pick fs := List.filterMap_append

@[simp] theorem picked_cons (e : Event) (es : List Event) :
    picked pick (e :: es) = (pick e).toList ++ picked pick es := by
  cases h : pick e <;> simp [picked, h]

variable {pick} (hpick : ∀ e, e.isOrdinary = true → pick e = none)

include hpick

theorem picked_eq_nil {es : List Event} (h : ∀ e ∈ es, e.isOrdinary = true) :
    picked pick es = [] := List.filterMap_eq_nil_iff.mpr fun e he => hpick e (h e he)

theorem picked_check (n outer : Node) : picked pick (check n outer) = [] :=
  picked_eq_nil hpick (by simp [check])

theorem picked_declareName (kind : BindingKind) (name : Ident) (ready : Offset) (outer : Node) :
    picked pick (declareName kind name ready outer) = [] := by
  simp [declareName, picked_check hpick, hpick]

theorem picked_params (params : List Ident) (ready : Offset) (outer : Node) :
    picked pick (params.flatMap fun i => declareName .param i ready outer) = [] := by
  induction params with
  | nil => rfl
  | cons i params ih =>
    rw [List.flatMap_cons, picked_append, picked_declareName hpick, ih, List.append_nil]

theorem picked_evalCalls (fn : Node) : picked pick (evalCalls fn) = [] :=
  picked_eq_nil hpick (by unfold evalCalls; split <;> (try split) <;> simp)

theorem picked_faultIf (c : Prop) [Decidable c] (f : ScopeFault) :
    picked pick (if c then [fault f] else []) = [] := by
  split <;> simp [hpick]

end Picked

section Counts

variable {α : Type} [BEq α] (pick : Event → Option α) (a : α)

/-- Is it picked from the events of the node no more often than from its declaration statements? -/
def Counts (n : Node) : Prop :=
  ∀ p role, (picked pick (ofNode p role n)).count a ≤
    (n.gather fun s => pick (openStatement s)).count a

variable {pick} {a}

theorem Counts.optional {n : Node} (h : Counts pick a n) (p : Place) (role : Role) :
    (picked pick (if n.isAbsent then [] else ofNode p role n)).count a ≤
      (n.gather fun s => pick (openStatement s)).count a := by
  split
  · simp
  · exact h p role

theorem Counts.parts {ns : List Node} (h : ∀ n ∈ ns, Counts pick a n) (p : Place) :
    (picked pick (ofNodes p ns)).count a ≤
      (ns.flatMap (Node.gather fun s => pick (openStatement s))).count a := by
  induction ns with
  | nil => simp [ofNodes]
  | cons n ns ih =>
    obtain ⟨hn, hns⟩ := List.forall_mem_cons.mp h
    simp [ofNodes, Nat.add_le_add, hn.optional, ih hns]

variable (hpick : ∀ e, e.isOrdinary = true → pick e = none)

include hpick

theorem Counts.declarators {ds : List Node} (h : ∀ d ∈ ds, ∀ x ∈ d.slots, Counts pick a x)
    (p : Place) (st : Statement) (unbraced : Bool) (each : Option Offset) :
    (picked pick (ofDeclarators p st unbraced each ds)).count a ≤
      (ds.flatMap (Node.gather fun s => pick (openStatement s))).count a := by
  have hcheck := picked_check hpick
  induction ds with
  | nil => simp [ofDeclarators]
  | cons d ds ih =>
    obtain ⟨hd, hds⟩ := List.forall_mem_cons.mp h
    cases d with
    | declarator name x t =>
      have hx : Counts pick a x := hd x (by simp)
      simp [ofDeclarators, hcheck, hpick, Node.gather_eq _ (.declarator ..), Nat.add_le_add,
        hx.optional, ih hds]
    | _ => simp [ofDeclarators, hcheck, hpick, Nat.le_add_left_of_le, ih hds]

/-- Nothing is picked from the events of a tree more often than from its declaration statements. -/
theorem count_picked (a : α) (n : Node) (p : Place) (role : Role) :
    (picked pick (ofNode p role n)).count a ≤
      (n.gather fun s => pick (openStatement s)).count a := by
  have hcheck := picked_check hpick
  induction n using Node.byParts generalizing p role with | step n ih ih' =>
  rw [ofNode_eq_layout, n.gather_eq]
  cases n with
  | absent | ident =>
    change (picked pick [fault _]).count a ≤ _
    simp [hpick]
  | arrayLit xs | objectLit xs | sequence xs | program xs | block xs =>
    have hxs : ∀ x ∈ xs, Counts pick a x := ih
    simp [layout, hcheck, hpick, Counts.parts hxs]
  | call x xs | newCall x xs | caseClause x xs | switchStmt x xs =>
    obtain ⟨hx, hxs⟩ : Counts pick a x ∧ ∀ y ∈ xs, Counts pick a y :=
      List.forall_mem_cons.mp ih
    simp [layout, hcheck, hpick, picked_evalCalls hpick, picked_faultIf hpick, Nat.add_le_add,
      hx _ _, hx.optional, Counts.parts hxs]
  | function form name params xs =>
    have hxs : ∀ x ∈ xs, Counts pick a x := fun x hx => ih x (by simp [hx])
    cases form <;> cases name <;>
      simp [layout, hcheck, hpick, picked_declareName hpick, picked_params hpick, List.flatMap_map,
        Nat.le_add_left_of_le, Counts.parts hxs]
  | varDecl k ds =>
    have hds : ∀ d ∈ ds, ∀ x ∈ d.slots, Counts pick a x := ih'
    simp [layout, hcheck, hpick, picked_faultIf hpick, Counts.declarators hpick hds]
  | catchClause param x =>
    have hx : ∀ y ∈ x.slots, Counts pick a y := ih' x (by simp)
    cases x with
    | block xs | program xs | function _ _ _ xs | caseClause _ xs =>
      have hxs : ∀ y ∈ xs, Counts pick a y := fun y hy => hx y (by simp [hy])
      cases param <;>
        simp [layout, hcheck, hpick, picked_declareName hpick, Node.gather_eq _ (.block ..),
          Node.gather_eq _ (.program ..), Node.gather_eq _ (.caseClause ..),
          Node.gather_eq _ (.function ..), Nat.le_add_left_of_le, Counts.parts hxs]
    | _ => cases param <;> simp [layout, hcheck, hpick, picked_declareName hpick]
  | member x y computed =>
    have hx : Counts pick a x := ih x (by simp)
    have hy : Counts pick a y := ih y (by simp)
    cases computed
    · simp [layout, hcheck, Nat.le_add_right_of_le, hx _ _]
    · simp [layout, hcheck, Nat.add_le_add, hx _ _, hy _ _]
  | declarator _ x | returnStmt x =>
    have hx : Counts pick a x := ih x (by simp)
    simp [layout, hcheck, hx.optional _ _]
  | ifStmt x y z | tryStmt x y z =>
    have hx : Counts pick a x := ih x (by simp)
    have hy : Counts pick a y := ih y (by simp)
    have hz : Counts pick a z := ih z (by simp)
    simp [layout, hcheck, Nat.add_le_add, hx _ _, hy _ _, hy.optional _ _, hz.optional _ _]
  | forStmt x y z w =>
    have hx : Counts pick a x := ih x (by simp)
    have hy : Counts pick a y := ih y (by simp)
    have hz : Counts pick a z := ih z (by simp)
    have hw : Counts pick a w := ih w (by simp)
    have hrest := fun p => Nat.add_le_add (hz.optional p .plain) (hw p .soleBody)
    simp [layout, hcheck, hpick, Nat.add_le_add, hx.optional _ _, hy.optional _ _, hrest _]
  | _ =>
    simp only [Node.slots, List.forall_mem_cons] at ih
    simp [layout, hcheck, hpick, Nat.add_le_add, ih]

end Counts

end Event

end ScopeLowering

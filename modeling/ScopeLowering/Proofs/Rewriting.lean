import ScopeLowering.Analysis
import ScopeLowering.Proofs.Layout

/-!
# Rewritten scripts

A plan changes the keywords of `var` statements and nothing else. This module defines the tree that
a plan leads to, `Analysis.rewrite`, and says what reading it from top to bottom meets: the events
of the old tree, with other keywords in the events of the statements that are edited
(`ofScript_rekeyed`).

## The model

Two statements may cover the same stretch of text in a tree that some parser made, so a statement is
known by its number in the table and not by its place. The table lists a `var` statement when its
first name is declared, which is after the value of that name has been read. So `withKeywords`,
which hands out the keywords, gives a statement its number at that point: the statements inside the
first value come before it, all others inside it come after.
-/

namespace ScopeLowering

/-! ### The tree with other keywords -/

/-- The statement with another keyword. -/
def Statement.withKeyword (s : Statement) (k : Keyword) : Statement := { s with keyword := k }

mutual

/-- The node with the keyword `key i` for the `var` statement with number `i`. The state is the
number that the next statement gets. -/
def Node.withKeywords (key : Nat → Keyword) (n : Node) : StateM Nat Node := do
  match n with
  | .absent | .ident _ | .literal .. | .lookup _ | .thisExpr _ | .emptyStmt _ | .breakStmt _
  | .continueStmt _ => return n
  | .arrayLit xs s => return .arrayLit (← withKeywordsAll key xs) s
  | .property k x s => return .property k (← x.withKeywords key) s
  | .objectLit xs s => return .objectLit (← withKeywordsAll key xs) s
  | .member target k computed s =>
    let target ← target.withKeywords key
    -- a key without brackets is no part of the script that is read
    if computed then return .member target (← k.withKeywords key) computed s
    else return .member target k computed s
  | .assign op x y s => return .assign op (← x.withKeywords key) (← y.withKeywords key) s
  | .update op x before s => return .update op (← x.withKeywords key) before s
  | .unary op x s => return .unary op (← x.withKeywords key) s
  | .binary op x y s => return .binary op (← x.withKeywords key) (← y.withKeywords key) s
  | .logical op x y s => return .logical op (← x.withKeywords key) (← y.withKeywords key) s
  | .conditional x y z s =>
    return .conditional (← x.withKeywords key) (← y.withKeywords key) (← z.withKeywords key) s
  | .call fn args s => return .call (← fn.withKeywords key) (← withKeywordsAll key args) s
  | .newCall fn args s => return .newCall (← fn.withKeywords key) (← withKeywordsAll key args) s
  | .sequence xs s => return .sequence (← withKeywordsAll key xs) s
  | .function form name params body isArrow s =>
    return .function form name params (← withKeywordsAll key body) isArrow s
  | .declarator name init s => return .declarator name (← init.withKeywords key) s
  | .varDecl .varWord (d :: rest) s =>
    let d ← d.withKeywords key
    let i ← modifyGet fun i => (i, i + 1)
    return .varDecl (key i) (d :: (← withKeywordsAll key rest)) s
  | .varDecl keyword ds s => return .varDecl keyword (← withKeywordsAll key ds) s
  | .exprStmt x s => return .exprStmt (← x.withKeywords key) s
  | .block xs s => return .block (← withKeywordsAll key xs) s
  | .ifStmt x y z s =>
    return .ifStmt (← x.withKeywords key) (← y.withKeywords key) (← z.withKeywords key) s
  | .forStmt init test update body s =>
    return .forStmt (← init.withKeywords key) (← test.withKeywords key) (← update.withKeywords key)
      (← body.withKeywords key) s
  | .forEachStmt head subject body isOf s =>
    return .forEachStmt (← head.withKeywords key) (← subject.withKeywords key)
      (← body.withKeywords key) isOf s
  | .whileStmt x y s => return .whileStmt (← x.withKeywords key) (← y.withKeywords key) s
  | .doWhileStmt x y s => return .doWhileStmt (← x.withKeywords key) (← y.withKeywords key) s
  | .returnStmt x s => return .returnStmt (← x.withKeywords key) s
  | .throwStmt x s => return .throwStmt (← x.withKeywords key) s
  | .catchClause param body s =>
    -- only the statements of the body are read, whatever else the body holds
    match body with
    | .block xs t => return .catchClause param (.block (← withKeywordsAll key xs) t) s
    | .program xs t => return .catchClause param (.program (← withKeywordsAll key xs) t) s
    | .function f i ps xs a t =>
      return .catchClause param (.function f i ps (← withKeywordsAll key xs) a t) s
    | .caseClause x xs t => return .catchClause param (.caseClause x (← withKeywordsAll key xs) t) s
    | _ => return .catchClause param body s
  | .tryStmt x y z s =>
    return .tryStmt (← x.withKeywords key) (← y.withKeywords key) (← z.withKeywords key) s
  | .caseClause x xs s => return .caseClause (← x.withKeywords key) (← withKeywordsAll key xs) s
  | .switchStmt x xs s => return .switchStmt (← x.withKeywords key) (← withKeywordsAll key xs) s
  | .withStmt x y s => return .withStmt (← x.withKeywords key) (← y.withKeywords key) s
  | .program xs s => return .program (← withKeywordsAll key xs) s

/-- Some nodes one after the other with other keywords. -/
def withKeywordsAll (key : Nat → Keyword) (ns : List Node) : StateM Nat (List Node) := do
  match ns with
  | [] => return []
  | n :: rest => return (← n.withKeywords key) :: (← withKeywordsAll key rest)

end

/-- The keyword of the statement with a number, once its edit is made. -/
def Analysis.keywordAt (a : Analysis) (i : Nat) : Keyword :=
  match a.table.statements[i]? with
  | none => .varWord
  | some e =>
    match statementEdit a.table a.decisions e with
    | .ok (some edit) => (Keyword.ofText? edit.new).getD e.statement.keyword
    | _ => e.statement.keyword

/-- The script with the keyword of every edited statement replaced by the new one. -/
def Analysis.rewrite (a : Analysis) (script : Node) : Node :=
  (script.withKeywords a.keywordAt 0).1

/-! ### What stays the same in a node -/

namespace Node

variable (key : Nat → Keyword)

/-- What the node is for the one around it does not depend on keywords. -/
theorem withKeywords_face (n : Node) (i : Nat) :
    (n.withKeywords key i).1.span = n.span ∧ (n.withKeywords key i).1.isAbsent = n.isAbsent ∧
    (n.withKeywords key i).1.declared? = n.declared? ∧
    Event.evalCalls (n.withKeywords key i).1 = Event.evalCalls n ∧
    ∀ op, Event.valueRole op (n.withKeywords key i).1 = Event.valueRole op n := by
  cases n with
  | member _ _ computed => cases computed <;> exact ⟨rfl, rfl, rfl, rfl, fun _ => rfl⟩
  | varDecl keyword ds => cases keyword <;> cases ds <;> exact ⟨rfl, rfl, rfl, rfl, fun _ => rfl⟩
  | catchClause _ body => cases body <;> exact ⟨rfl, rfl, rfl, rfl, fun _ => rfl⟩
  | _ => exact ⟨rfl, rfl, rfl, rfl, fun _ => rfl⟩

theorem withKeywords_span (n : Node) (i : Nat) : (n.withKeywords key i).1.span = n.span :=
  (n.withKeywords_face key i).1

theorem withKeywords_isAbsent (n : Node) (i : Nat) :
    (n.withKeywords key i).1.isAbsent = n.isAbsent := (n.withKeywords_face key i).2.1

theorem withKeywords_declared? (n : Node) (i : Nat) :
    (n.withKeywords key i).1.declared? = n.declared? := (n.withKeywords_face key i).2.2.1

theorem eq_absent {n : Node} (h : n.isAbsent = true) : n = .absent := by
  cases n <;> first | rfl | cases h

end Node

theorem withKeywordsAll_declared? (key : Nat → Keyword) (ns : List Node) (i : Nat) :
    (withKeywordsAll key ns i).1.filterMap (fun d => d.declared?.map (·.text)) =
      ns.filterMap fun d => d.declared?.map (·.text) := by
  induction ns generalizing i with
  | nil => rfl
  | cons n rest ih =>
    show List.filterMap _ ((n.withKeywords key i).1 :: _) = _
    simp only [List.filterMap_cons, Node.withKeywords_declared?, ih]

theorem withKeywordsAll_spans (key : Nat → Keyword) (ns : List Node) (i : Nat) :
    (withKeywordsAll key ns i).1.map (·.span) = ns.map (·.span) := by
  induction ns generalizing i with
  | nil => rfl
  | cons n rest ih =>
    show List.map _ ((n.withKeywords key i).1 :: _) = _
    simp only [List.map_cons, Node.withKeywords_span, ih]

theorem withKeywordsAll_any_isAbsent (key : Nat → Keyword) (ns : List Node) (i : Nat) :
    (withKeywordsAll key ns i).1.any (·.isAbsent) = ns.any (·.isAbsent) := by
  induction ns generalizing i with
  | nil => rfl
  | cons n rest ih =>
    show List.any ((n.withKeywords key i).1 :: _) _ = _
    simp only [List.any_cons, Node.withKeywords_isAbsent, ih]

/-! ### Events with other keywords -/

namespace Event

/-- Does the event neither belong to a `var` statement nor end the reading? -/
def isPlain : Event → Bool
  | openStatement _ | closeStatement | fault _ | declare (.declared .varWord) .. => false
  | _ => true

theorem isPlain_declare {kind : BindingKind} (hk : kind ≠ .declared .varWord) {name : Ident}
    {st : Option Statement} {hasInit unbraced each : Bool} {ready : Offset} :
    (declare kind name st hasInit ready unbraced each).isPlain = true := by
  cases kind with
  | declared k =>
    cases k with
    | varWord => exact absurd rfl hk
    | letWord | constWord => rfl
  | _ => rfl

/-- No event ends the reading. -/
def Calm (es : List Event) : Prop := ∀ f, fault f ∉ es

theorem calm_append {es fs : List Event} : Calm (es ++ fs) ↔ Calm es ∧ Calm fs := by
  simp only [Calm, List.mem_append, not_or, forall_and]

theorem calm_cons {e : Event} {es : List Event} :
    Calm (e :: es) ↔ (∀ f, fault f ≠ e) ∧ Calm es := by
  simp only [Calm, List.mem_cons, not_or, forall_and]

theorem not_calm_fault {f : ScopeFault} {es : List Event} : ¬ Calm (fault f :: es) :=
  fun h => h f List.mem_cons_self

/-- A declaration statement that is being read. -/
structure Opened where
  statement : Statement
  /-- The new keyword. -/
  keyword : Keyword
  /-- The number, once there is one. -/
  number : Option Nat

/-- How far the numbering of the statements has come. -/
structure Tally where
  /-- The number that the next statement gets. -/
  next : Nat
  /-- The open statements, innermost first. -/
  opened : List Opened

/-- The second list of events is the first one, with the keyword `key i` for the `var` statement
with number `i`. The keyword stands at the start of a statement, and the number that it goes with is
known when the first name is declared. -/
inductive Rekeyed (key : Nat → Keyword) : Tally → List Event → List Event → Tally → Prop where
  /-- Nothing more is met. -/
  | nil {t : Tally} : Rekeyed key t [] [] t
  /-- An event outside of `var` statements stays. -/
  | same {t t' : Tally} {e : Event} {es es' : List Event} (h : e.isPlain = true) :
      Rekeyed key t es es' t' → Rekeyed key t (e :: es) (e :: es') t'
  /-- A statement begins. -/
  | opened {n : Nat} {os : List Opened} {t' : Tally} {es es' : List Event} (s : Statement)
      (k : Keyword) :
      Rekeyed key ⟨n, ⟨s, k, none⟩ :: os⟩ es es' t' →
      Rekeyed key ⟨n, os⟩ (openStatement s :: es) (openStatement (s.withKeyword k) :: es') t'
  /-- A statement ends. -/
  | closed {n : Nat} {o : Opened} {os : List Opened} {t' : Tally} {es es' : List Event} :
      Rekeyed key ⟨n, os⟩ es es' t' →
      Rekeyed key ⟨n, o :: os⟩ (closeStatement :: es) (closeStatement :: es') t'
  /-- The first name of a `var` statement is declared: the statement gets its number. -/
  | first {n : Nat} {os : List Opened} {t' : Tally} {es es' : List Event} {name : Ident}
      {s : Statement} {hasInit : Bool} {ready : Offset} {unbraced forEach : Bool}
      (hs : s.keyword = .varWord) :
      Rekeyed key ⟨n + 1, ⟨s, key n, some n⟩ :: os⟩ es es' t' →
      Rekeyed key ⟨n, ⟨s, key n, none⟩ :: os⟩
        (declare (.declared .varWord) name (some s) hasInit ready unbraced forEach :: es)
        (declare (.declared (key n)) name (some (s.withKeyword (key n))) hasInit ready unbraced
          forEach :: es') t'
  /-- A later name of a `var` statement is declared. -/
  | later {n i : Nat} {os : List Opened} {t' : Tally} {es es' : List Event} {name : Ident}
      {s : Statement} {hasInit : Bool} {ready : Offset} {unbraced forEach : Bool}
      (hs : s.keyword = .varWord) :
      Rekeyed key ⟨n, ⟨s, key i, some i⟩ :: os⟩ es es' t' →
      Rekeyed key ⟨n, ⟨s, key i, some i⟩ :: os⟩
        (declare (.declared .varWord) name (some s) hasInit ready unbraced forEach :: es)
        (declare (.declared (key i)) name (some (s.withKeyword (key i))) hasInit ready unbraced
          forEach :: es') t'

namespace Rekeyed

variable {key : Nat → Keyword}

theorem append {t₁ t₂ t₃ : Tally} {es es' fs fs' : List Event} (h : Rekeyed key t₁ es es' t₂)
    (hf : Rekeyed key t₂ fs fs' t₃) : Rekeyed key t₁ (es ++ fs) (es' ++ fs') t₃ := by
  induction h with
  | nil => exact hf
  | same h _ ih => exact .same h (ih hf)
  | opened s k _ ih => exact .opened s k (ih hf)
  | closed _ ih => exact .closed (ih hf)
  | first hs _ ih => exact .first hs (ih hf)
  | later hs _ ih => exact .later hs (ih hf)

theorem plain {t : Tally} {es : List Event} (h : ∀ e ∈ es, e.isPlain = true) :
    Rekeyed key t es es t := by
  induction es with
  | nil => exact .nil
  | cons e es ih =>
    exact .same (h e List.mem_cons_self) (ih fun e he => h e (List.mem_cons_of_mem _ he))

end Rekeyed

/-! ### Reading a node with other keywords -/

/-- The second list of events is the first one with other keywords, and leaves the open statements
as they are. -/
def Follows (key : Nat → Keyword) (i : Nat) (es es' : List Event) (j : Nat) : Prop :=
  ∀ os, Rekeyed key ⟨i, os⟩ es es' ⟨j, os⟩

/-- The places of a node and of the one with other keywords. -/
structure SamePlace (p p' : Place) : Prop where
  span : p'.outer.span = p.outer.span
  absent : p'.outer.isAbsent = p.outer.isAbsent
  start : p'.scopeStart = p.scopeStart

namespace Follows

variable {key : Nat → Keyword} {i j k : Nat} {es es' fs fs' : List Event}

theorem nil : Follows key i [] [] i := fun _ => .nil

theorem append (h : Follows key i es es' j) (hf : Follows key j fs fs' k) :
    Follows key i (es ++ fs) (es' ++ fs') k := fun os => (h os).append (hf os)

/-- What is met in turn, as long as no fault is. -/
theorem seq (h : Calm es → Follows key i es es' j) (hf : Calm fs → Follows key j fs fs' k)
    (hc : Calm (es ++ fs)) : Follows key i (es ++ fs) (es' ++ fs') k :=
  (h (calm_append.mp hc).1).append (hf (calm_append.mp hc).2)

theorem plain (h : ∀ e ∈ es, e.isPlain = true) : Follows key i es es i := fun _ => .plain h

theorem one {e : Event} (h : e.isPlain = true) : Follows key i [e] [e] i :=
  fun _ => .same h .nil

end Follows

/-- Whether a node is misplaced depends on where it and the one around it stand. -/
theorem misplaced?_eq_none {n n' o o' : Node} (hn : n'.span = n.span) (ho : o'.span = o.span)
    (ha : o'.isAbsent = o.isAbsent) (h : misplaced? n o = none) : misplaced? n' o' = none := by
  unfold misplaced? at h ⊢
  rw [hn, ho, ha]
  split at h
  · cases h
  · split at h
    · cases h
    · rw [if_neg ‹_›, if_neg ‹_›]

theorem misplaced?_of_calm {n o : Node} (h : Calm (check n o)) : misplaced? n o = none := by
  cases hm : misplaced? n o with
  | none => rfl
  | some f => exact absurd (by simp [check, hm]) (h f)

theorem check_eq_nil {n o : Node} (h : misplaced? n o = none) : check n o = [] := by
  rw [check, h]; rfl

/-- A node in its place, and the same node with other keywords in its own. -/
theorem Follows.check {key : Nat → Keyword} {i : Nat} {n n' o o' : Node} (hn : n'.span = n.span)
    (ho : o'.span = o.span) (ha : o'.isAbsent = o.isAbsent) (h : Calm (Event.check n o)) :
    Follows key i (Event.check n o) (Event.check n' o') i := by
  have hm := misplaced?_of_calm h
  rw [check_eq_nil hm, check_eq_nil (misplaced?_eq_none hn ho ha hm)]
  exact .nil

theorem SamePlace.check {key : Nat → Keyword} {i : Nat} {p p' : Place} (hp : SamePlace p p')
    {n n' : Node} (hn : n'.span = n.span) (h : Calm (Event.check n p.outer)) :
    Follows key i (Event.check n p.outer) (Event.check n' p'.outer) i :=
  .check hn hp.span hp.absent h

theorem Follows.declareName {key : Nat → Keyword} {i : Nat} {kind : BindingKind} {name : Ident}
    {ready : Offset} {o o' : Node} (hk : kind ≠ .declared .varWord) (ho : o'.span = o.span)
    (ha : o'.isAbsent = o.isAbsent) (h : Calm (Event.declareName kind name ready o)) :
    Follows key i (Event.declareName kind name ready o)
      (Event.declareName kind name ready o') i := by
  exact .append (.check rfl ho ha (calm_append.mp h).1) (.one (isPlain_declare hk))

theorem Follows.params {key : Nat → Keyword} {i : Nat} {params : List Ident} {ready : Offset}
    {o o' : Node} (ho : o'.span = o.span) (ha : o'.isAbsent = o.isAbsent)
    (h : Calm (params.flatMap fun x => Event.declareName .param x ready o)) :
    Follows key i (params.flatMap fun x => Event.declareName .param x ready o)
      (params.flatMap fun x => Event.declareName .param x ready o') i := by
  induction params with
  | nil => exact .nil
  | cons x rest ih =>
    rw [List.flatMap_cons, calm_append] at h
    exact .append (.declareName (by decide) ho ha h.1) (ih h.2)

theorem Follows.catchParam {key : Nat → Keyword} {i : Nat} {param : Option Ident} {ready : Offset}
    {o o' : Node} (ho : o'.span = o.span) (ha : o'.isAbsent = o.isAbsent)
    (h : Calm (ofParam param ready o)) :
    Follows key i (ofParam param ready o) (ofParam param ready o') i := by
  cases param with
  | none => exact .nil
  | some x => exact .declareName (by decide) ho ha h

/-- A clause reads its parameter, and then the statements that its body lists. -/
theorem Follows.catchClause {key : Nat → Keyword} {i j : Nat} {param : Option Ident} {s : Span}
    {p p' : Place} {n n' body body' : Node} {es es' : List Event} (hp : SamePlace p p')
    (hn : n'.span = n.span) (ha : n'.isAbsent = n.isAbsent) (hb : body'.span = body.span)
    (hes : Calm es → Follows key i es es' j) :
    Calm (Event.check n p.outer ++ [enter .catchClause s none []] ++ ofParam param s.start n ++
      (Event.check body n ++ es) ++ [leave]) →
    Follows key i
      (Event.check n p.outer ++ [enter .catchClause s none []] ++ ofParam param s.start n ++
        (Event.check body n ++ es) ++ [leave])
      (Event.check n' p'.outer ++ [enter .catchClause s none []] ++ ofParam param s.start n' ++
        (Event.check body' n' ++ es') ++ [leave]) j :=
  .seq (.seq (.seq (.seq (hp.check hn) fun _ => .one rfl) (.catchParam hn ha))
    (.seq (.check hb hn ha) hes)) fun _ => .one rfl

theorem Follows.unless {key : Nat → Keyword} {i : Nat} {c : Bool} {f : ScopeFault}
    (h : Calm (if c then [fault f] else [])) :
    Follows key i (if c then [fault f] else []) (if c then [fault f] else []) i := by
  cases c with
  | false => exact .nil
  | true => exact absurd h not_calm_fault

variable (key : Nat → Keyword)

theorem subjectEnd_withKeywords (n : Node) (i : Nat) :
    subjectEnd (n.withKeywords key i).1 = subjectEnd n := by
  rw [subjectEnd, subjectEnd, Node.withKeywords_isAbsent, Node.withKeywords_span]

theorem statementOf_withKeywords (k k' : Keyword) (ds : List Node) (i : Nat) (s : Span) :
    statementOf k' (withKeywordsAll key ds i).1 s = (statementOf k ds s).withKeyword k' := by
  rw [statementOf, withKeywordsAll_declared?]
  rfl

theorem statementOf_cons_withKeywords (k k' : Keyword) (d : Node) (ds : List Node) (i j : Nat)
    (s : Span) :
    statementOf k' ((d.withKeywords key i).1 :: (withKeywordsAll key ds j).1) s =
      (statementOf k (d :: ds) s).withKeyword k' := by
  rw [statementOf, List.filterMap_cons, withKeywordsAll_declared?, Node.withKeywords_declared?]
  rfl

theorem evalCalls_isPlain (n : Node) : ∀ e ∈ evalCalls n, e.isPlain = true := by
  intro e he
  unfold evalCalls at he
  split at he
  · split at he
    · rw [List.mem_singleton.mp he]; rfl
    · cases he
  · cases he

/-- The place inside a node. -/
theorem SamePlace.inside {p p' : Place} (hp : SamePlace p p') (n : Node) (i : Nat) :
    SamePlace { p with outer := n } { p' with outer := (n.withKeywords key i).1 } :=
  ⟨n.withKeywords_span key i, n.withKeywords_isAbsent key i, hp.start⟩

/-- The place inside a node that opens a scope. -/
theorem SamePlace.within (n : Node) (i : Nat) (start : Offset) :
    SamePlace ⟨n, start⟩ ⟨(n.withKeywords key i).1, start⟩ :=
  ⟨n.withKeywords_span key i, n.withKeywords_isAbsent key i, rfl⟩

/-- A part that may be missing. -/
theorem Follows.optional {n : Node} {i : Nat} {p p' : Place} {role : Role}
    (ih : Calm (ofNode p role n) →
      Follows key i (ofNode p role n) (ofNode p' role (n.withKeywords key i).1)
        (n.withKeywords key i).2)
    (h : Calm (if n.isAbsent then [] else ofNode p role n)) :
    Follows key i (if n.isAbsent then [] else ofNode p role n)
      (if (n.withKeywords key i).1.isAbsent then [] else ofNode p' role (n.withKeywords key i).1)
      (n.withKeywords key i).2 := by
  rw [Node.withKeywords_isAbsent]
  by_cases ha : n.isAbsent = true
  · rw [if_pos ha, if_pos ha, Node.eq_absent ha]
    exact .nil
  · rw [if_neg ha] at h ⊢
    rw [if_neg ha]
    exact ih h

theorem Follows.role {i j : Nat} {es : List Event} {p : Place} {r r' : Role} {n : Node}
    (hr : r' = r) (h : Calm es → Follows key i es (ofNode p r n) j) :
    Calm es → Follows key i es (ofNode p r' n) j := hr ▸ h

/-- One declarator, given what becomes of the declaration of its name. -/
theorem Rekeyed.declarator {name : Ident} {init : Node} {s : Span} {i k : Nat} {p p' : Place}
    (st st' : Statement) {unbraced : Bool} {each : Option Offset} (os : List Opened)
    {os' : List Opened} (hp : SamePlace p p')
    (ih : Calm (ofNode p (.stored name) init) →
      Follows key i (ofNode p (.stored name) init)
        (ofNode p' (.stored name) (init.withKeywords key i).1) (init.withKeywords key i).2)
    (hd : ∀ hasInit ready,
      Rekeyed key ⟨(init.withKeywords key i).2, os⟩
        [declare (.declared st.keyword) name (some st) hasInit ready unbraced each.isSome]
        [declare (.declared st'.keyword) name (some st') hasInit ready unbraced each.isSome]
        ⟨k, os'⟩)
    (h : Calm (Event.check (.declarator name init s) p.outer ++
      (if init.isAbsent then [] else ofNode p (.stored name) init) ++
      Event.check (.ident name) p.outer ++
      [declare (.declared st.keyword) name (some st) (!init.isAbsent) (each.getD s.stop) unbraced
        each.isSome])) :
    Rekeyed key ⟨i, os⟩
      (Event.check (.declarator name init s) p.outer ++
        (if init.isAbsent then [] else ofNode p (.stored name) init) ++
        Event.check (.ident name) p.outer ++
        [declare (.declared st.keyword) name (some st) (!init.isAbsent) (each.getD s.stop) unbraced
          each.isSome])
      (Event.check (.declarator name (init.withKeywords key i).1 s) p'.outer ++
        (if (init.withKeywords key i).1.isAbsent then []
          else ofNode p' (.stored name) (init.withKeywords key i).1) ++
        Event.check (.ident name) p'.outer ++
        [declare (.declared st'.keyword) name (some st') (!(init.withKeywords key i).1.isAbsent)
          (each.getD s.stop) unbraced each.isSome])
      ⟨k, os'⟩ := by
  obtain ⟨h, _⟩ := calm_append.mp h
  obtain ⟨h, hn⟩ := calm_append.mp h
  obtain ⟨h, hi⟩ := calm_append.mp h
  have hinit := Follows.optional key ih hi
  have hone := hd (!init.isAbsent) (each.getD s.stop)
  rw [Node.withKeywords_isAbsent] at hinit ⊢
  exact (((Follows.check rfl hp.span hp.absent h).append hinit).append
    (.check rfl hp.span hp.absent hn) os).append hone

theorem display_function (form : FunctionForm) (name : Option Ident)
    (params : List Ident) (body body' : List Node) (isArrow : Bool) (s : Span) :
    (Node.function form name params body' isArrow s).display =
      (Node.function form name params body isArrow s).display := by
  cases form <;> cases name <;> simp only [Node.display, Node.sort]

theorem misplaced?_function (x : Ident) (form : FunctionForm) (name : Option Ident)
    (params : List Ident) (body body' : List Node) (isArrow : Bool) (s : Span) :
    misplaced? (.ident x) (.function form name params body' isArrow s) =
      misplaced? (.ident x) (.function form name params body isArrow s) := by
  unfold misplaced?
  rw [display_function form name params body body']
  rfl

mutual

/-- Reading a node with other keywords meets the same events, with other keywords in those of its
statements. -/
theorem ofNode_follows (n : Node) (i : Nat) (p p' : Place) (role : Role) (hp : SamePlace p p') :
    Calm (ofNode p role n) →
    Follows key i (ofNode p role n) (ofNode p' role (n.withKeywords key i).1)
      (n.withKeywords key i).2 := by
  have hin := hp.inside key n i
  have hwithin := SamePlace.within key n i n.span.start
  cases n with
  | absent | ident => exact fun h => absurd h not_calm_fault
  | literal | emptyStmt | breakStmt | continueStmt => exact hp.check rfl
  | lookup | thisExpr => exact .seq (hp.check rfl) fun _ => .one rfl
  | arrayLit xs | objectLit xs | sequence xs | program xs =>
    exact .seq (hp.check rfl) (ofNodes_follows xs i _ _ hin)
  | property _ x | update _ x | unary _ x | exprStmt x | throwStmt x =>
    exact .seq (hp.check rfl) (ofNode_follows x i _ _ _ hin)
  | declarator _ x | returnStmt x =>
    exact .seq (hp.check rfl) (.optional key (ofNode_follows x i _ _ _ hin))
  | binary _ x y | logical _ x y =>
    exact .seq (.seq (hp.check rfl) (ofNode_follows x _ _ _ _ hin)) (ofNode_follows y _ _ _ _ hin)
  | member x y computed =>
    cases computed with
    | true =>
      exact .seq (.seq (hp.check rfl) (ofNode_follows x _ _ _ _ hin))
        (ofNode_follows y _ _ _ _ hin)
    | false =>
      exact .seq (.seq (hp.check rfl) (ofNode_follows x _ _ _ _ hin)) fun _ => .nil
  | assign op x y =>
    exact .seq (.seq (hp.check rfl) (ofNode_follows x _ _ _ _ hin))
      (.role key ((x.withKeywords_face key i).2.2.2.2 op) (ofNode_follows y _ _ _ _ hin))
  | conditional x y z =>
    exact .seq (.seq (.seq (hp.check rfl) (ofNode_follows x _ _ _ _ hin))
      (ofNode_follows y _ _ _ _ hin)) (ofNode_follows z _ _ _ _ hin)
  | call fn args =>
    have he : Follows key i (evalCalls fn) (evalCalls (fn.withKeywords key i).1) i := by
      rw [(fn.withKeywords_face key i).2.2.2.1]
      exact .plain (evalCalls_isPlain fn)
    exact .seq (.seq (.seq (hp.check rfl) fun _ => he) (ofNode_follows fn _ _ _ _ hin))
      (ofNodes_follows args _ _ _ hin)
  | newCall fn args =>
    exact .seq (.seq (hp.check rfl) (ofNode_follows fn _ _ _ _ hin))
      (ofNodes_follows args _ _ _ hin)
  | function form name params body isArrow s =>
    refine .seq (.seq (.seq (.seq (.seq (.seq (hp.check rfl) ?_) fun _ => .one rfl)
      (.params rfl rfl)) (ofNodes_follows body i _ _ hwithin)) ?_) fun _ => .one rfl
    · -- a declaration is declared under its own name
      cases form with
      | expression => exact fun _ => .nil
      | declaration =>
        cases name with
        | none => exact fun h => absurd h not_calm_fault
        | some x =>
          rw [hp.start]
          exact .declareName (by decide) rfl rfl
    · -- an expression sees itself under its own name
      cases form with
      | declaration => exact fun _ => .nil
      | expression =>
        cases name with
        | none => exact fun _ => .nil
        | some x =>
          intro _
          show Follows key _ [callee x s.start (misplaced? (.ident x) _)]
            [callee x s.start (misplaced? (.ident x) _)] _
          rw [misplaced?_function x .expression (some x) params body]
          exact .one rfl
  | varDecl keyword ds s =>
    intro h
    obtain ⟨h, _⟩ := calm_append.mp h
    obtain ⟨h, hd⟩ := calm_append.mp h
    obtain ⟨h, _⟩ := calm_append.mp h
    obtain ⟨h, he⟩ := calm_append.mp h
    have hn : Follows key i _ _ i := (Follows.check
      (Node.withKeywords_span key (.varDecl keyword ds s) i) hp.span hp.absent h).append
      (.unless he)
    intro os
    by_cases hk : keyword = .varWord
    · subst hk
      cases ds with
      | nil =>
        have hopen := (hn os).append (.opened (statementOf .varWord [] s) .varWord .nil)
        exact (hopen.append .nil).append (.closed .nil)
      | cons d rest =>
        cases d with
        | declarator name init t =>
          obtain ⟨hd, hr⟩ := calm_append.mp hd
          have hst := statementOf_cons_withKeywords key .varWord (key (init.withKeywords key i).2)
            (.declarator name init t) rest i ((init.withKeywords key i).2 + 1) s
          have hfirst := Rekeyed.declarator key (statementOf .varWord _ s) (.withKeyword _ _)
            (_ :: os) hin (ofNode_follows init i _ _ _ hin) (fun _ _ => .first rfl .nil) hd
          have hrest := ofDeclarators_rekeyed rest ((init.withKeywords key i).2 + 1) _ _
            (statementOf .varWord _ s) (.withKeyword _ _) _ _
            (⟨_, _, some (init.withKeywords key i).2⟩ :: os) hin (fun _ _ _ _ => .later rfl .nil) hr
          have hopen := (hn os).append (.opened
            (statementOf .varWord (.declarator name init t :: rest) s)
            (key (init.withKeywords key i).2) .nil)
          have hall := (hopen.append (hfirst.append hrest)).append (.closed .nil)
          rw [← hst] at hall
          exact hall
        | absent => exact absurd (calm_append.mp hd).1 not_calm_fault
        | _ => exact absurd (calm_append.mp (calm_append.mp hd).1).2 not_calm_fault
    · have hdecl : BindingKind.declared keyword ≠ .declared .varWord :=
        fun h => hk (BindingKind.declared.inj h)
      have hst := statementOf_withKeywords key keyword keyword ds i s
      have hds := ofDeclarators_rekeyed ds i _ _ (statementOf keyword ds s)
        ((statementOf keyword ds s).withKeyword keyword) _ _
        (⟨statementOf keyword ds s, keyword, none⟩ :: os) hin
        (fun _ _ _ _ => .same (isPlain_declare hdecl) .nil) hd
      have hopen := (hn os).append (.opened (statementOf keyword ds s) keyword .nil)
      have hall := (hopen.append hds).append (.closed .nil)
      rw [← hst] at hall
      cases keyword with
      | varWord => exact absurd rfl hk
      | letWord | constWord => exact hall
  | block xs =>
    exact .seq (.seq (.seq (hp.check rfl) fun _ => .one rfl) (ofNodes_follows xs _ _ _ hwithin))
      fun _ => .one rfl
  | ifStmt x y z =>
    exact .seq (.seq (.seq (hp.check rfl) (ofNode_follows x _ _ _ _ hin))
      (ofNode_follows y _ _ _ _ hin)) (.optional key (ofNode_follows z _ _ _ _ hin))
  | forStmt x y z w =>
    exact .seq (.seq (.seq (.seq (.seq (.seq (hp.check rfl) fun _ => .one rfl)
      (.optional key (ofNode_follows x _ _ _ _ hwithin)))
      (.optional key (ofNode_follows y _ _ _ _ hwithin)))
      (.optional key (ofNode_follows z _ _ _ _ hwithin))) (ofNode_follows w _ _ _ _ hwithin))
      fun _ => .one rfl
  | forEachStmt x y z =>
    have hr : Role.eachHead (subjectEnd (y.withKeywords key (x.withKeywords key i).2).1) =
        .eachHead (subjectEnd y) := by rw [subjectEnd_withKeywords]
    exact .seq (.seq (.seq (.seq (.seq (hp.check rfl) fun _ => .one rfl)
      (.role key hr (ofNode_follows x _ _ _ _ hwithin))) (ofNode_follows y _ _ _ _ hwithin))
      (ofNode_follows z _ _ _ _ hwithin)) fun _ => .one rfl
  | whileStmt x y | doWhileStmt x y =>
    exact .seq (.seq (.seq (.seq (hp.check rfl) fun _ => .one rfl)
      (ofNode_follows x _ _ _ _ hwithin)) (ofNode_follows y _ _ _ _ hwithin)) fun _ => .one rfl
  | catchClause param body =>
    -- the clause reads the statements of its body, for the sorts of nodes that have a list of them
    cases body with
    | block xs | program xs | function _ _ _ xs | caseClause _ xs =>
      exact .catchClause hp rfl rfl rfl (ofNodes_follows xs i _ _ ⟨rfl, rfl, rfl⟩)
    | absent => exact fun h => absurd (calm_append.mp (calm_append.mp h).1).2 not_calm_fault
    | _ =>
      intro h
      exact absurd (calm_append.mp (calm_append.mp (calm_append.mp h).1).2).2 not_calm_fault
  | tryStmt x y z =>
    exact .seq (.seq (.seq (hp.check rfl) (ofNode_follows x _ _ _ _ hin))
      (.optional key (ofNode_follows y _ _ _ _ hin)))
      (.optional key (ofNode_follows z _ _ _ _ hin))
  | caseClause x xs =>
    exact .seq (.seq (hp.check rfl) (.optional key (ofNode_follows x _ _ _ _ hin)))
      (ofNodes_follows xs _ _ _ hin)
  | switchStmt x xs s =>
    have henter : Follows key (x.withKeywords key i).2 [enter .block s none (xs.map (·.span))]
        [enter .block s none ((withKeywordsAll key xs (x.withKeywords key i).2).1.map (·.span))]
        (x.withKeywords key i).2 := by
      rw [withKeywordsAll_spans]
      exact .one rfl
    refine .seq (.seq (.seq (.seq (.seq (hp.check rfl) (ofNode_follows x _ _ _ _ hin)) ?_)
      fun _ => henter) (ofNodes_follows xs _ _ _ hwithin)) fun _ => .one rfl
    rw [withKeywordsAll_any_isAbsent]
    exact .unless
  | withStmt x y =>
    exact .seq (.seq (.seq (hp.check rfl) fun _ => .one rfl) (ofNode_follows x _ _ _ _ hin))
      (ofNode_follows y _ _ _ _ hin)

theorem ofNodes_follows (ns : List Node) (i : Nat) (p p' : Place) (hp : SamePlace p p') :
    Calm (ofNodes p ns) →
    Follows key i (ofNodes p ns) (ofNodes p' (withKeywordsAll key ns i).1)
      (withKeywordsAll key ns i).2 := by
  cases ns with
  | nil => exact fun _ => .nil
  | cons n rest =>
    exact .seq (.optional key (ofNode_follows n i p p' .plain hp))
      (ofNodes_follows rest _ p p' hp)

/-- The declarators of a statement, given what becomes of the declaration of one name. -/
theorem ofDeclarators_rekeyed (ds : List Node) (i : Nat) (p p' : Place) (st st' : Statement)
    (unbraced : Bool) (each : Option Offset) (os : List Opened)
    (hp : SamePlace p p')
    (hd : ∀ j name hasInit ready,
      Rekeyed key ⟨j, os⟩
        [declare (.declared st.keyword) name (some st) hasInit ready unbraced each.isSome]
        [declare (.declared st'.keyword) name (some st') hasInit ready unbraced each.isSome]
        ⟨j, os⟩)
    (h : Calm (ofDeclarators p st unbraced each ds)) :
    Rekeyed key ⟨i, os⟩ (ofDeclarators p st unbraced each ds)
      (ofDeclarators p' st' unbraced each (withKeywordsAll key ds i).1)
      ⟨(withKeywordsAll key ds i).2, os⟩ := by
  cases ds with
  | nil => exact .nil
  | cons d rest =>
    cases d with
    | declarator name init s =>
      obtain ⟨h, hr⟩ := calm_append.mp h
      exact (Rekeyed.declarator key st st' os hp (ofNode_follows init i p p' (.stored name) hp)
        (fun hasInit ready => hd _ name hasInit ready) h).append
        (ofDeclarators_rekeyed rest _ p p' st st' unbraced each os hp hd hr)
    | absent => exact absurd (calm_append.mp h).1 not_calm_fault
    | _ => exact absurd (calm_append.mp (calm_append.mp h).1).2 not_calm_fault

end

/-- What is met in a script, after its start. -/
def ofBody (script : Node) : List Event := ofNode ⟨.absent, script.span.start⟩ .plain script

theorem ofScript_eq (script : Node) :
    ofScript script = enter .program script.span none [] :: ofBody script := rfl

/-- Reading the script with other keywords. -/
theorem ofScript_rekeyed (script : Node) (h : Calm (ofBody script)) :
    ofScript (script.withKeywords key 0).1 =
        enter .program script.span none [] :: ofBody (script.withKeywords key 0).1 ∧
      Rekeyed key ⟨0, []⟩ (ofBody script) (ofBody (script.withKeywords key 0).1)
        ⟨(script.withKeywords key 0).2, []⟩ := by
  rw [ofScript_eq, ofBody, ofBody, Node.withKeywords_span]
  exact ⟨rfl, ofNode_follows key script 0 _ _ _ ⟨rfl, rfl, rfl⟩ h []⟩

end Event

end ScopeLowering

import Mathlib.Data.List.Forall2
import ScopeLowering.Proofs.Rivals

/-!
# Statements and their entries

Every `var` statement of a script that has a declarator has one entry in the table, and the entry
lists the bindings of its declarators in order (`lists_ofScript`). There are no other entries.

## The model

A statement gets its entry when its first name is declared, and the initial value of that name is
read before: statements that stand in it have their entries by then. So the entries come in another
order than the statements, and `Table.Lists` is up to order. What a stretch of events does to the
entries is `Files`. It adds some at the end and leaves those there are alone, unless the stretch
stands in an open statement, whose entry it may extend (`Extends`).
-/

namespace ScopeLowering

/-! ### The statements of a tree -/

/-- A `var` statement with the place it has in its tree. -/
structure VarStatement where
  declarators : List Node
  span : Span
  /-- Is it the head of a loop over items? -/
  isHead : Bool

namespace VarStatement

/-- The statement as a node. -/
def node (v : VarStatement) : Node := .varDecl .varWord v.declarators v.span

/-- The statement as the scopes know it. -/
def statement (v : VarStatement) : Statement := Event.statementOf .varWord v.declarators v.span

end VarStatement

mutual

/-- The `var` statements with a declarator that are read in a tree. The tree is `isHead` if it is
the head of a loop over items. -/
def Node.varDecls (isHead : Bool) (n : Node) : List VarStatement :=
  match n with
  | .absent | .ident _ | .literal .. | .lookup _ | .thisExpr _ | .emptyStmt _ | .breakStmt _
  | .continueStmt _ => []
  | .varDecl keyword ds span =>
    (if keyword = .varWord ∧ ds ≠ [] then [⟨ds, span, isHead⟩] else []) ++ varDeclsAll ds
  | .arrayLit xs _ | .objectLit xs _ | .sequence xs _ | .block xs _ | .program xs _
  | .function _ _ _ xs _ _ => varDeclsAll xs
  | .property _ x _ | .update _ x _ _ | .unary _ x _ | .exprStmt x _ | .returnStmt x _
  | .throwStmt x _ | .declarator _ x _ => x.varDecls false
  -- a key without brackets is not read
  | .member x key computed _ =>
    x.varDecls false ++ if computed then key.varDecls false else []
  | .assign _ x y _ | .binary _ x y _ | .logical _ x y _ | .whileStmt x y _ | .doWhileStmt x y _
  | .withStmt x y _ => x.varDecls false ++ y.varDecls false
  | .conditional x y z _ | .ifStmt x y z _ | .tryStmt x y z _ =>
    x.varDecls false ++ y.varDecls false ++ z.varDecls false
  | .forEachStmt x y z _ _ => x.varDecls true ++ y.varDecls false ++ z.varDecls false
  | .forStmt x y z w _ =>
    x.varDecls false ++ y.varDecls false ++ z.varDecls false ++ w.varDecls false
  | .call x xs _ | .newCall x xs _ | .caseClause x xs _ | .switchStmt x xs _ =>
    x.varDecls false ++ varDeclsAll xs
  -- of the body of a clause only the statements are read
  | .catchClause _ body _ =>
    match body with
    | .block xs _ | .program xs _ | .function _ _ _ xs _ _ | .caseClause _ xs _ => varDeclsAll xs
    | _ => []

/-- The `var` statements with a declarator that are read in some trees. -/
def varDeclsAll (ns : List Node) : List VarStatement :=
  match ns with
  | [] => []
  | n :: rest => n.varDecls false ++ varDeclsAll rest

end

/-- Is this a `var` statement with a declarator? -/
def Node.isVarStatement : Node → Bool
  | .varDecl keyword ds _ => keyword == .varWord && !ds.isEmpty
  | _ => false

/-! ### Entries -/

namespace Table

/-- A declarator of a statement is among the declarations of a binding. -/
def Declares (t : Table) (v : VarStatement) (n : Node) (i : BindingId) : Prop :=
  ∃ name init span b, ∃ site : Site, n = .declarator name init span ∧
    t.Feeds site v.statement i b ∧ site.name = name ∧ site.hasInit = !init.isAbsent ∧
    site.forEach = v.isHead

/-- The entry has the bindings of the statement's declarators. -/
structure IsEntryOf (t : Table) (v : VarStatement) (e : StatementEntry) : Prop where
  statement : e.statement = v.statement
  members : List.Forall₂ (t.Declares v) v.declarators e.members

/-- The entries are those of the statements, in some order. -/
def Lists (t : Table) (vs : List VarStatement) (es : List StatementEntry) : Prop :=
  ∃ fs : List StatementEntry, fs.Perm es ∧ List.Forall₂ t.IsEntryOf vs fs

end Table

/-- Does the event have nothing to do with `var` statements? -/
@[simp] def Event.isQuiet : Event → Bool
  | openStatement _ | closeStatement | declare (.declared .varWord) .. => false
  | _ => true

theorem Event.isPlain_of_isQuiet {e : Event} (h : e.isQuiet = true) (hf : ∀ f, e ≠ fault f) :
    e.isPlain = true := by
  cases e with
  | openStatement | closeStatement => cases h
  | fault f => exact absurd rfl (hf f)
  | declare => exact isPlain_declare (by rintro rfl; cases h)
  | _ => rfl

namespace Draft

variable {d d' : Draft}

theorem declares_grows (hg : d.Grows d') {v : VarStatement} {n : Node} {i : BindingId}
    (h : d.table.Declares v n i) : d'.table.Declares v n i := by
  obtain ⟨name, init, span, b, site, hn, hfeeds, hrest⟩ := h
  obtain ⟨b', hb', hgb⟩ := hg.binding hfeeds.binding
  exact ⟨name, init, span, b', site, hn,
    { hfeeds with binding := hb', listed := hgb.sites hfeeds.listed }, hrest⟩

theorem lists_grows (hg : d.Grows d') {vs : List VarStatement} {es : List StatementEntry}
    (h : d.table.Lists vs es) : d'.table.Lists vs es := by
  obtain ⟨fs, hp, hfs⟩ := h
  exact ⟨fs, hp, hfs.imp fun _ _ he =>
    ⟨he.statement, he.members.imp fun _ _ => declares_grows hg⟩⟩

theorem lists_append {t : Table} {vs ws : List VarStatement} {es fs : List StatementEntry}
    (h : t.Lists vs es) (h' : t.Lists ws fs) : t.Lists (vs ++ ws) (es ++ fs) := by
  obtain ⟨xs, hp, hxs⟩ := h
  obtain ⟨ys, hp', hys⟩ := h'
  exact ⟨xs ++ ys, hp.append hp', List.rel_append hxs hys⟩

/-! ### Filing -/

theorem steps_fault (es : List Event) (f : ScopeFault) (fs : List Event) :
    d.steps (es ++ [.fault f] ++ fs) ≠ .ok d' :=
  fun h => fault_not_mem_steps h f (by simp)

/-- The events add entries for the statements, and no statement stays open. -/
def Files (vs : List VarStatement) (es : List Event) : Prop :=
  ∀ d d' : Draft, d.Sound → d.steps es = .ok d' → d'.statements = d.statements ∧
    ∃ new, d'.table.statements = d.table.statements ++ new ∧ d'.table.Lists vs new

namespace Files

variable {vs ws : List VarStatement} {es fs : List Event}

theorem nil : Files [] [] := by
  intro d d' _ h
  cases h
  exact ⟨rfl, [], (List.append_nil _).symm, [], .nil, .nil⟩

theorem append (h : Files vs es) (h' : Files ws fs) : Files (vs ++ ws) (es ++ fs) := by
  intro d d' hd hs
  obtain ⟨m, hm, hs⟩ := steps_append_ok.mp hs
  obtain ⟨hstack, new, hnew, hlists⟩ := h d m hd hm
  obtain ⟨hstack', new', hnew', hlists'⟩ := h' m d' (hd.steps hm) hs
  refine ⟨hstack'.trans hstack, new ++ new', ?_, ?_⟩
  · rw [hnew', hnew, List.append_assoc]
  · exact lists_append (lists_grows (grows_steps hs) hlists) hlists'

/-- Events that open and close no statement, and declare no `var`, file nothing. -/
theorem quiet (h : es.all Event.isQuiet = true) : Files [] es := by
  induction es with
  | nil => exact nil
  | cons e es ih =>
    rw [List.all_cons, Bool.and_eq_true] at h
    intro d d' hd hs
    obtain ⟨m, hm, hs⟩ := steps_cons_ok.mp hs
    have hplain : e.isPlain = true := Event.isPlain_of_isQuiet h.1 (by rintro f rfl; cases hm)
    obtain ⟨htable, hstack⟩ := step_statements hplain hm
    obtain ⟨hstack', new, hnew, hlists⟩ := ih h.2 m d' (hd.step hm) hs
    exact ⟨hstack'.trans hstack, new, htable ▸ hnew, hlists⟩

/-- What goes wrong files nothing. -/
theorem never (es : List Event) (f : ScopeFault) (fs : List Event) :
    Files vs (es ++ [.fault f] ++ fs) := fun _ _ _ h => absurd h (steps_fault es f fs)

theorem broken (es : List Event) (f : ScopeFault) : Files vs (es ++ [.fault f]) := by
  simpa only [List.append_nil] using never es f []

/-- A statement that gets no entry opens and closes around the events. -/
theorem bracketed (h : Files vs es) (st : Statement) :
    Files vs ([.openStatement st] ++ es ++ [.closeStatement]) := by
  intro d d' hd hs
  obtain ⟨m, hm, hclose⟩ := steps_append_ok.mp hs
  obtain ⟨m₀, hopen, hm⟩ := steps_append_ok.mp hm
  have hd₀ := hd.steps hopen
  cases hopen
  cases hclose
  obtain ⟨hstack, new, hnew, hlists⟩ := h _ m hd₀ hm
  exact ⟨congrArg List.tail hstack, new, hnew, hlists⟩

/-- Quiet events come first. -/
theorem after (h : Files vs fs) (hq : es.all Event.isQuiet = true) : Files vs (es ++ fs) :=
  (quiet hq).append h

/-- Quiet events come before a statement. -/
theorem placed {a b : Event} (h : Files vs ([a] ++ es ++ [b])) (hq : fs.all Event.isQuiet = true) :
    Files vs (fs ++ [a] ++ es ++ [b]) := by
  simpa only [List.append_assoc] using h.after hq

/-- Quiet events come last. -/
theorem before (h : Files vs es) (hq : fs.all Event.isQuiet = true) : Files vs (es ++ fs) := by
  have hboth := h.append (quiet hq)
  rwa [List.append_nil] at hboth

end Files

/-! ### Declarators -/

section Declare

variable {v : VarStatement} {rest : List (Statement × Option Nat)} {name : Ident} {init : Node}
  {ready : Offset} {unbraced each : Bool}

/-- A name that a statement declares is declared by a binding. -/
theorem declares_declareVariable (hd : d.Sound) (hh : each = v.isHead) (span : Span)
    (current : ScopeId) :
    (d.declareVariable (.declared .varWord) ⟨name, some v.statement, current, !init.isAbsent, ready,
      unbraced, each⟩).table.Declares v (.declarator name init span)
      (d.declare (.declared .varWord) ⟨name, some v.statement, current, !init.isAbsent, ready,
        unbraced, each⟩).2 := by
  obtain ⟨b, hb, hsite, _⟩ := hd.declare_site (.declared .varWord)
    ⟨name, some v.statement, current, !init.isAbsent, ready, unbraced, each⟩
  obtain ⟨b₁, hb₁, hg₁⟩ := (grows_mark _ _ _).binding hb
  obtain ⟨b₂, hb₂, hg₂⟩ := (grows_record _ (.declared .varWord) _ _).binding hb₁
  exact ⟨name, init, span, b₂, _, rfl, ⟨hb₂, hg₂.sites (hg₁.sites hsite), rfl, rfl⟩, rfl, rfl, hh⟩

/-- The first name of a statement files it. -/
theorem step_first (hd : d.Sound) (hs : d.statements = (v.statement, none) :: rest)
    (hh : each = v.isHead) (span : Span)
    (h : d.step (.declare (.declared .varWord) name (some v.statement) (!init.isAbsent) ready
      unbraced each) = .ok d') :
    ∃ i, d'.statements = (v.statement, some d.table.statements.length) :: rest ∧
      d'.table.statements = d.table.statements ++ [⟨v.statement, [i]⟩] ∧
      d'.table.Declares v (.declarator name init span) i := by
  cases h
  refine ⟨_, ?_, ?_, declares_declareVariable hd hh span d.current⟩ <;>
    rw [declareVariable_eq, record_new ((d.notes_marked ..).2.1.trans hs),
      (d.notes_marked ..).1]

theorem modify_append_cons {α : Type} (as bs : List α) (x : α) (f : α → α) :
    (as ++ x :: bs).modify as.length f = as ++ f x :: bs := by
  induction as with
  | nil => rfl
  | cons a as ih => simp [ih]

/-- A later name joins the entry of its statement. -/
theorem step_later {as bs : List StatementEntry} {ms : List BindingId} (hd : d.Sound)
    (hs : d.statements = (v.statement, some as.length) :: rest)
    (ht : d.table.statements = as ++ ⟨v.statement, ms⟩ :: bs) (hh : each = v.isHead) (span : Span)
    (h : d.step (.declare (.declared .varWord) name (some v.statement) (!init.isAbsent) ready
      unbraced each) = .ok d') :
    ∃ i, d'.statements = d.statements ∧
      d'.table.statements = as ++ ⟨v.statement, ms ++ [i]⟩ :: bs ∧
      d'.table.Declares v (.declarator name init span) i := by
  cases h
  refine ⟨_, ?_, ?_, declares_declareVariable hd hh span d.current⟩ <;>
    rw [declareVariable_eq, record_old ((d.notes_marked ..).2.1.trans hs)]
  · exact (d.notes_marked ..).2.1
  · show List.modify _ _ _ = _
    rw [(d.notes_marked ..).1, ht, modify_append_cons]

end Declare

/-- The events go through declarators of an open statement that has its entry. -/
def Extends (v : VarStatement) (ds : List Node) (es : List Event) : Prop :=
  ∀ (d d' : Draft) (rest : List (Statement × Option Nat)) (as bs : List StatementEntry)
    (ms : List BindingId), d.Sound → d.statements = (v.statement, some as.length) :: rest →
    d.table.statements = as ++ ⟨v.statement, ms⟩ :: bs → d.steps es = .ok d' →
    d'.statements = d.statements ∧ ∃ ids new,
      d'.table.statements = as ++ ⟨v.statement, ms ++ ids⟩ :: (bs ++ new) ∧
      List.Forall₂ (d'.table.Declares v) ds ids ∧ d'.table.Lists (varDeclsAll ds) new

section Declarators

variable {v : VarStatement} {name : Ident} {init : Node} {span : Span} {ds : List Node}
  {pre es : List Event} {ready : Offset} {unbraced each : Bool}

theorem Extends.nil : Extends v [] [] := by
  intro d d' rest as bs ms _ _ ht h
  cases h
  exact ⟨rfl, [], [], by rw [List.append_nil, List.append_nil, ht], .nil, [], .nil, .nil⟩

/-- One more declarator, after its initial value. -/
theorem Extends.cons (hpre : Files (init.varDecls false) pre) (hes : Extends v ds es)
    (hh : each = v.isHead) (span : Span) :
    Extends v (.declarator name init span :: ds)
      (pre ++ [.declare (.declared .varWord) name (some v.statement) (!init.isAbsent) ready
        unbraced each] ++ es) := by
  intro d d' rest as bs ms hd hs ht h
  obtain ⟨m₂, hm₂, h⟩ := steps_append_ok.mp h
  obtain ⟨m₁, hm₁, hdeclare⟩ := steps_append_ok.mp hm₂
  obtain ⟨_, hstep, hnil⟩ := steps_cons_ok.mp hdeclare
  cases hnil
  have hd₁ := hd.steps hm₁
  obtain ⟨hs₁, new₁, ht₁, hlists₁⟩ := hpre d m₁ hd hm₁
  rw [ht, List.append_assoc, List.cons_append] at ht₁
  obtain ⟨i, hs₂, ht₂, hi⟩ := step_later hd₁ (hs₁.trans hs) ht₁ hh span hstep
  obtain ⟨hs₃, ids, new, ht₃, hids, hlists⟩ :=
    hes m₂ d' rest as (bs ++ new₁) (ms ++ [i]) (hd.steps hm₂) (hs₂.trans (hs₁.trans hs)) ht₂ h
  have hg₂ := grows_step hstep
  have hg₃ := grows_steps h
  refine ⟨hs₃.trans (hs₂.trans hs₁), i :: ids, new₁ ++ new, ?_, ?_, ?_⟩
  · rw [ht₃, List.append_assoc, List.append_assoc]
    rfl
  · exact .cons (declares_grows hg₃ hi) hids
  · exact lists_append (lists_grows (hg₂.trans hg₃) hlists₁) hlists

/-- A statement with a first declarator and some more gets an entry. -/
theorem Files.statement (hv : v.declarators = .declarator name init span :: ds)
    (hpre : Files (init.varDecls false) pre) (hes : Extends v ds es) (hh : each = v.isHead) :
    Files (v :: varDeclsAll v.declarators)
      ([.openStatement v.statement] ++ (pre ++ [.declare (.declared .varWord) name
        (some v.statement) (!init.isAbsent) ready unbraced each] ++ es) ++ [.closeStatement]) := by
  intro d d' hd h
  obtain ⟨m₃, hm₃, hclose⟩ := steps_append_ok.mp h
  obtain ⟨m₀, hopen, hinside⟩ := steps_append_ok.mp hm₃
  obtain ⟨m₂, hm₂, hrest⟩ := steps_append_ok.mp hinside
  obtain ⟨m₁, hm₁, hdeclare⟩ := steps_append_ok.mp hm₂
  obtain ⟨_, hstep, hnil⟩ := steps_cons_ok.mp hdeclare
  have hd₀ := hd.steps hopen
  cases hnil
  cases hopen
  cases hclose
  obtain ⟨hs₁, new₁, ht₁, hlists₁⟩ := hpre _ m₁ hd₀ hm₁
  obtain ⟨i, hs₂, ht₂, hi⟩ := step_first (hd₀.steps hm₁) hs₁ hh span hstep
  obtain ⟨hs₃, ids, new, ht₃, hids, hlists⟩ :=
    hes m₂ m₃ _ m₁.table.statements [] [i] (hd₀.steps hm₂) hs₂ ht₂ hrest
  have hg₂ := grows_step hstep
  have hg₃ := grows_steps hrest
  refine ⟨by rw [hs₃, hs₂]; rfl, new₁ ++ ⟨v.statement, i :: ids⟩ :: new, ?_, ?_⟩
  · show m₃.table.statements = _
    rw [ht₃, ht₁, List.append_assoc]
    rfl
  · -- the statement comes before those in its values, its entry after those in the first one
    obtain ⟨fs, hp, hfs⟩ := lists_append (lists_grows (hg₂.trans hg₃) hlists₁) hlists
    refine ⟨⟨v.statement, i :: ids⟩ :: fs, (hp.cons _).trans List.perm_middle.symm, ?_⟩
    rw [hv]
    exact .cons ⟨rfl, hv ▸ .cons (declares_grows hg₃ hi) hids⟩ hfs

end Declarators

end Draft

/-! ### Reading a tree -/

/-- Is this the role of a loop's head? -/
@[simp, reducible] def Role.isHead : Role → Bool
  | eachHead _ => true
  | _ => false

namespace Event

open Draft

@[simp] theorem quiet_check (n o : Node) : (check n o).all isQuiet = true := by
  unfold check
  cases misplaced? n o <;> rfl

theorem quiet_enter (n o : Node) (kind : ScopeKind) (span : Span) :
    (check n o ++ [enter kind span none []]).all isQuiet = true := by simp

@[simp] theorem quiet_declareName {kind : BindingKind} (hk : kind ≠ .declared .varWord)
    (name : Ident) (ready : Offset) (o : Node) :
    (declareName kind name ready o).all isQuiet = true := by
  rw [declareName, List.all_append, quiet_check]
  cases kind with
  | declared k =>
    cases k with
    | varWord => exact absurd rfl hk
    | letWord | constWord => rfl
  | _ => rfl

@[simp] theorem quiet_evalCalls (fn : Node) : (evalCalls fn).all isQuiet = true := by
  unfold evalCalls
  split
  · split <;> rfl
  · rfl

@[simp] theorem quiet_faultIf (c : Prop) [Decidable c] (f : ScopeFault) :
    (if c then [fault f] else []).all isQuiet = true := by
  split <;> rfl

@[simp] theorem isHead_valueRole (op : Json) (x : Node) : (valueRole op x).isHead = false := by
  unfold valueRole
  split
  · split <;> rfl
  · rfl

/-- Reading the node files its statements. -/
def IsFiled (n : Node) : Prop := ∀ p role, Files (n.varDecls role.isHead) (ofNode p role n)

theorem IsFiled.part {n : Node} (h : IsFiled n) (p : Place) {role : Role} {b : Bool}
    (hb : role.isHead = b) : Files (n.varDecls b) (ofNode p role n) := hb ▸ h p role

theorem IsFiled.optional {n : Node} (h : IsFiled n) (p : Place) {role : Role} {b : Bool}
    (hb : role.isHead = b) :
    Files (n.varDecls b) (if n.isAbsent then [] else ofNode p role n) := by
  cases n with
  | absent => exact .nil
  | _ => exact h.part p hb

theorem files_ofNodes {ns : List Node} (h : ∀ n ∈ ns, IsFiled n) (p : Place) :
    Files (varDeclsAll ns) (ofNodes p ns) := by
  induction ns with
  | nil => exact .nil
  | cons n ns ih =>
    rw [List.forall_mem_cons] at h
    exact (h.1.optional p rfl).append (ih h.2)

/-- The events of a declarator before the name is declared. -/
theorem files_declarator {init : Node} (h : IsFiled init) (name : Ident) (p : Place) (n : Node) :
    Files (init.varDecls false)
      (check n p.outer ++ (if init.isAbsent then [] else ofNode p (.stored name) init) ++
        check (.ident name) p.outer) :=
  ((h.optional p rfl).after (quiet_check _ _)).before (quiet_check _ _)

section Declarators

variable {ds : List Node} (h : ∀ name init span, .declarator name init span ∈ ds → IsFiled init)
include h

/-- Declarators of a statement that has its entry extend it. -/
theorem extends_ofDeclarators {v : VarStatement} (p : Place) (unbraced : Bool)
    {each : Option Offset} (hh : each.isSome = v.isHead) :
    Extends v ds (ofDeclarators p v.statement unbraced each ds) := by
  induction ds with
  | nil => exact .nil
  | cons d ds ih =>
    have hrest := ih fun name init span hd => h name init span (List.mem_cons_of_mem _ hd)
    cases d with
    | declarator name init span =>
      exact .cons (files_declarator (h name init span List.mem_cons_self) name p _) hrest hh span
    | absent => exact fun _ _ _ _ _ _ _ _ _ hs => absurd hs (steps_fault [] _ _)
    | _ => exact fun _ _ _ _ _ _ _ _ _ hs => absurd hs (steps_fault _ _ _)

/-- Declarators of `let` and `const` file the statements in their initial values. -/
theorem files_ofDeclarators {st : Statement} (hk : st.keyword ≠ .varWord) (p : Place)
    (unbraced : Bool) (each : Option Offset) :
    Files (varDeclsAll ds) (ofDeclarators p st unbraced each ds) := by
  induction ds with
  | nil => exact .nil
  | cons d ds ih =>
    have hrest := ih fun name init span hd => h name init span (List.mem_cons_of_mem _ hd)
    cases d with
    | declarator name init span =>
      refine ((files_declarator (h name init span List.mem_cons_self) name p _).before ?_).append
        hrest
      cases hst : st.keyword with
      | varWord => exact absurd hst hk
      | letWord | constWord => rfl
    | absent => exact .never [] _ _
    | _ => exact .never _ _ _

/-- A declaration statement files itself and the statements in its initial values. -/
theorem isFiled_varDecl (k : Keyword) (s : Span) : IsFiled (.varDecl k ds s) := by
  intro p role
  have hall : ∀ unbraced each, each.isSome = role.isHead →
      Files ((Node.varDecl k ds s).varDecls role.isHead) ([openStatement (statementOf k ds s)] ++
        ofDeclarators { p with outer := .varDecl k ds s } (statementOf k ds s) unbraced each ds ++
        [closeStatement]) := by
    intro unbraced each hh
    by_cases hk : k = .varWord
    · subst hk
      cases ds with
      | nil => exact Files.nil.bracketed _
      | cons d ds =>
        cases d with
        | declarator name init span =>
          have hinit := h name init span List.mem_cons_self
          have hrest := extends_ofDeclarators (fun name init span hd =>
            h name init span (List.mem_cons_of_mem _ hd))
            { p with outer := .varDecl .varWord (.declarator name init span :: ds) s } unbraced
            (show each.isSome = (VarStatement.mk (.declarator name init span :: ds) s
              role.isHead).isHead from hh)
          exact Files.statement rfl (files_declarator hinit name _ _) hrest hh
        | absent => exact (Files.never [] _ _).bracketed _
        | _ => exact (Files.never _ _ _).bracketed _
    · have hnone : (Node.varDecl k ds s).varDecls role.isHead = varDeclsAll ds := by
        rw [Node.varDecls, if_neg fun hv => hk hv.1, List.nil_append]
      rw [hnone]
      exact (files_ofDeclarators h hk _ unbraced each).bracketed _
  cases role with
  | eachHead stop =>
    cases stop with
    | none =>
      change Files _ (check _ _ ++ [fault .noPart] ++ [openStatement _] ++
        ofDeclarators _ _ _ _ ds ++ [closeStatement])
      rw [List.append_assoc, List.append_assoc]
      exact .never _ _ _
    | some o => exact (hall false (some o) rfl).placed (by simp)
  | soleBody => exact (hall true none rfl).placed (by simp)
  | plain | target | stored => exact (hall false none rfl).placed (by simp)

end Declarators

/-- The statements that a piece files. -/
@[simp] def Piece.varDecls : Piece → List VarStatement
  | own _ | declarators .. => []
  | part _ role c | optional _ role c => c.varDecls role.isHead
  | parts _ cs => varDeclsAll cs

theorem files_pieces {ps : List Piece} {vs : List VarStatement}
    (h : ∀ x ∈ ps, Files x.varDecls x.events) (hvs : ps.flatMap Piece.varDecls = vs) :
    Files vs (ps.flatMap Piece.events) := by
  subst hvs
  induction ps with
  | nil => exact .nil
  | cons x ps ih =>
    obtain ⟨hx, hps⟩ := List.forall_mem_cons.mp h
    exact hx.append (ih hps)

/-- The body of a `catch` clause files the statements of the clause. -/
theorem files_clauseBody {body : Node} (h : ∀ x ∈ body.slots, IsFiled x) (param : Option Ident)
    (s : Span) (isHead : Bool) (ready : Offset) (o : Node) :
    Files ((Node.catchClause param body s).varDecls isHead)
      ((clauseBody body ready o).flatMap Piece.events) := by
  cases body with
  | block xs | program xs | function _ _ _ xs | caseClause _ xs =>
    have hxs : ∀ x ∈ xs, IsFiled x := fun x hx => h x (by simp [hx])
    exact ((files_ofNodes hxs _).before rfl).after (quiet_check _ _)
  | absent => exact .never [] _ []
  | _ => exact (Files.broken _ _).before rfl

/-- Reading a node files its statements. -/
theorem isFiled (n : Node) : IsFiled n := by
  induction n using Node.byParts with | step n ih ih' =>
  intro p role
  rw [ofNode_eq_layout]
  cases n with
  | absent | ident => exact .never [] _ []
  | varDecl k ds s =>
    rw [← ofNode_eq_layout]
    exact isFiled_varDecl (fun _ init _ hd => ih' _ hd init (by simp)) k s p role
  | arrayLit xs | objectLit xs | sequence xs | program xs | block xs =>
    have hxs : ∀ x ∈ xs, IsFiled x := ih
    refine files_pieces ?_ ?_ <;> simp [layout, Node.varDecls, Files.quiet, files_ofNodes hxs]
  | call x xs | newCall x xs | caseClause x xs | switchStmt x xs =>
    obtain ⟨hx, hxs⟩ : IsFiled x ∧ ∀ y ∈ xs, IsFiled y := List.forall_mem_cons.mp ih
    refine files_pieces ?_ ?_ <;>
      simp [layout, Node.varDecls, Files.quiet, hx.part, hx.optional, files_ofNodes hxs]
  | function form name params xs =>
    have hxs : ∀ x ∈ xs, IsFiled x := fun x hx => ih x (by simp [hx])
    refine files_pieces ?_ ?_ <;> cases form <;> cases name <;>
      simp [layout, Node.varDecls, Files.nil, Files.quiet, files_ofNodes hxs]
  | catchClause param x s =>
    have hparam : (ofParam param s.start (.catchClause param x s)).all isQuiet = true := by
      cases param <;> simp
    have hbody := files_clauseBody (ih' x (by simp)) param s role.isHead s.start
      (.catchClause param x s)
    have hleave : [leave].all isQuiet = true := rfl
    simpa [-ofParam, -clauseBody, layout] using
      ((hbody.after hparam).before hleave).after (quiet_enter _ p.outer .catchClause s)
  | member x y computed =>
    simp only [Node.slots, List.forall_mem_cons] at ih
    refine files_pieces ?_ ?_ <;> cases computed <;>
      simp [layout, Node.varDecls, Files.nil, Files.quiet, IsFiled.part, ih]
  | _ =>
    simp only [Node.slots, List.forall_mem_cons] at ih
    refine files_pieces ?_ ?_ <;>
      simp [layout, Node.varDecls, Files.quiet, IsFiled.part, IsFiled.optional, ih]

end Event

/-! ### The entries of a script -/

namespace Draft

variable {d : Draft} {script : Node}

/-- The entries of a draft are those of the script's statements. -/
theorem lists_steps (h : Draft.steps {} (Event.ofScript script) = .ok d) :
    d.table.Lists (script.varDecls false) d.table.statements := by
  obtain ⟨m, hm, hbody⟩ := steps_cons_ok.mp h
  cases hm
  obtain ⟨_, new, hnew, hlists⟩ :=
    Event.isFiled script _ .plain _ d (Sound.start script.span) hbody
  rwa [hnew]

/-- What a draft declares, the table of the script does. -/
theorem declares_isTable {t : Table} (ht : d.finish.IsTable t) {v : VarStatement} {n : Node}
    {i : BindingId} (h : d.table.Declares v n i) : t.Declares v n i := by
  obtain ⟨name, init, span, b, site, hn, hfeeds, hrest⟩ := h
  obtain ⟨hazards, hb, _⟩ := finish_binding hfeeds.binding
  obtain ⟨b', hb'⟩ := ht.exists_binding ⟨_, hb⟩
  obtain ⟨b₀, hbecomes⟩ := becomes_of_isTable ht hb'
  have hsame : some b₀ = some b := hbecomes.binding.symm.trans hfeeds.binding
  cases hsame
  exact ⟨name, init, span, b', site, hn,
    { hfeeds with binding := hb', listed := hbecomes.sites ▸ hfeeds.listed }, hrest⟩

end Draft

/-- **The entries of a table are those of the script's `var` statements.** -/
theorem Scoping.lists_ofScript {script : Node} {s : Scoping} (h : Scoping.ofScript script = .ok s)
    {t : Table} (ht : s.IsTable t) : t.Lists (script.varDecls false) t.statements := by
  obtain ⟨d, hd, rfl⟩ := Scoping.ofScript_ok h
  obtain ⟨fs, hp, hfs⟩ := Draft.lists_steps hd
  rw [ht.statements, d.finish_statements]
  exact ⟨fs, hp, hfs.imp fun _ _ he =>
    ⟨he.statement, he.members.imp fun _ _ => Draft.declares_isTable ht⟩⟩

namespace Node

theorem map_varDeclsAll {xs : List Node}
    (h : ∀ c ∈ xs, (c.varDecls false).map VarStatement.node = c.phrases.filter isVarStatement) :
    (varDeclsAll xs).map VarStatement.node =
      xs.flatMap fun c => c.phrases.filter isVarStatement := by
  induction xs with
  | nil => rfl
  | cons x xs ih =>
    rw [List.forall_mem_cons] at h
    rw [varDeclsAll, List.map_append, h.1, ih h.2, List.flatMap_cons]

theorem filter_idents (names : List Ident) :
    (names.map ident).flatMap (fun c => c.phrases.filter isVarStatement) = [] := by
  induction names with
  | nil => rfl
  | cons name names ih => exact ih

/-- In a sorted tree every `var` statement is read. -/
theorem map_varDecls {n : Node} (hs : n.isSorted = true) (isHead : Bool) :
    (n.varDecls isHead).map VarStatement.node = n.phrases.filter isVarStatement := by
  induction n using Node.byPhrases generalizing isHead with
  | absent => rfl
  | step n ha ih =>
    obtain ⟨hf, hss⟩ := (isSorted_iff ha).mp hs
    have hread : ∀ c ∈ n.slots, ∀ isHead, (c.varDecls isHead).map VarStatement.node =
        c.phrases.filter isVarStatement := fun c hc => ih c hc (hss c hc)
    rw [phrases_eq ha, List.filter_cons, List.filter_flatMap]
    cases n with
    | absent => cases ha
    | ident | literal | lookup | thisExpr | emptyStmt | breakStmt | continueStmt => rfl
    | arrayLit xs | objectLit xs | sequence xs | block xs | program xs =>
      exact map_varDeclsAll fun c hc => hread c hc false
    | property | update | unary | exprStmt | returnStmt | throwStmt | assign | binary | logical
    | whileStmt | doWhileStmt | withStmt | conditional | ifStmt | tryStmt | forEachStmt
    | forStmt =>
      simp only [slots, List.forall_mem_cons] at hread
      simp [varDecls, isVarStatement, hread]
    | call x xs | newCall x xs | caseClause x xs | switchStmt x xs =>
      simp only [slots, List.forall_mem_cons] at hread
      have hxs := map_varDeclsAll fun c hc => hread.2 c hc false
      simp [varDecls, isVarStatement, hread.1, hxs]
    | declarator name x =>
      have hname : (ident name).phrases.filter isVarStatement = [] := rfl
      simp [varDecls, isVarStatement, hread x (by simp), hname]
    | function form name params xs =>
      have hxs := map_varDeclsAll fun c hc => hread c (List.mem_append_right _ hc) false
      simp only [slots, List.flatMap_append, filter_idents]
      exact hxs
    | varDecl k ds s =>
      have hds := map_varDeclsAll fun c hc => hread c hc false
      simp only [slots] at hds
      by_cases hv : k = .varWord ∧ ds ≠ []
      · simp [varDecls, isVarStatement, VarStatement.node, hv, hds]
      · have hnone : isVarStatement (varDecl k ds s) = false := by
          simpa [isVarStatement] using hv
        simp [varDecls, hv, hds, hnone]
    | catchClause param x =>
      -- the body is a block, and reading it is reading its statements
      have hx := hread x (by simp) false
      simp only [slots, List.flatMap_append, filter_idents]
      cases x with
      | block xs => simpa [varDecls, isVarStatement] using hx
      | _ => cases hf
    | member x key computed =>
      simp only [slots, List.forall_mem_cons] at hread
      cases computed with
      | true => simp [varDecls, isVarStatement, hread]
      | false =>
        have hkey : key.phrases.filter isVarStatement = [] := by
          simp only [isFormed, Bool.and_eq_true] at hf
          cases key with
          | literal => rfl
          | _ => cases hf.2
        simp [varDecls, isVarStatement, hread.1, hkey]

end Node

end ScopeLowering

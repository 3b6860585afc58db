import Mathlib.Data.List.Basic
import ScopeLowering.Proofs.Layout
import ScopeLowering.Proofs.Placement

/-!
# Judgements about what is read

Going through a sorted tree makes events, and there is more than one thing to say about them: that
they go through, which names they declare and for which scope. This module goes through the tree
once for all such statements. A *judgement* (`Event.Judgement`) comes with a rule for each way to
put events together, and it then holds of the events of every sorted tree (`Judgement.reads`), with
the names that the tree hoists, those of its scope, and the nodes in it that open scopes.

## The model

`Node.openers` lists the nodes of a tree that open a scope, in the order in which they do. The block
of a `catch` clause is not among them, since it shares the scope of the clause, and the subject of a
`switch` is read before the scope opens. `Node.inside` is what stands directly in the scope that a
node opens.
-/

namespace ScopeLowering

/-! ### Nodes that open scopes -/

namespace Node

/-- The kind of scope that a node opens, if it opens one. -/
def scopeKind : Node → ScopeKind
  | function .. => .function
  | program .. => .program
  | catchClause .. => .catchClause
  | forStmt .. | forEachStmt .. | whileStmt .. | doWhileStmt .. => .loop
  | _ => .block

/-- What stands directly in the scope that a node opens. -/
def inside : Node → List Node
  | function _ _ _ body _ _ => body
  | program xs _ | block xs _ | switchStmt _ xs _ | catchClause _ (block xs _) _ => xs
  | n => n.slots

mutual

/-- The nodes of a tree that open a scope, in the order in which they do. -/
@[simp] def openers (n : Node) : List Node :=
  match n with
  | absent | ident _ | literal .. | lookup _ | thisExpr _ | emptyStmt _ | breakStmt _
  | continueStmt _ => []
  | arrayLit xs _ | objectLit xs _ | sequence xs _ | varDecl _ xs _ | program xs _ => openersAll xs
  | property _ x _ | update _ x _ _ | unary _ x _ | exprStmt x _ | returnStmt x _ | throwStmt x _
  | declarator _ x _ => x.openers
  | member x y _ _ | assign _ x y _ | binary _ x y _ | logical _ x y _ | withStmt x y _ =>
    x.openers ++ y.openers
  | conditional x y z _ | ifStmt x y z _ | tryStmt x y z _ => x.openers ++ y.openers ++ z.openers
  | call x xs _ | newCall x xs _ | caseClause x xs _ => x.openers ++ openersAll xs
  | function _ _ _ xs _ _ | block xs _ | catchClause _ (block xs _) _ => n :: openersAll xs
  | catchClause _ x _ => n :: x.openers
  | whileStmt x y _ | doWhileStmt x y _ => n :: (x.openers ++ y.openers)
  | forEachStmt x y z _ _ => n :: (x.openers ++ y.openers ++ z.openers)
  | forStmt x y z w _ => n :: (x.openers ++ y.openers ++ z.openers ++ w.openers)
  | switchStmt x xs _ => x.openers ++ n :: openersAll xs

/-- The nodes of some trees that open a scope. -/
def openersAll (ns : List Node) : List Node :=
  match ns with
  | [] => []
  | n :: rest => n.openers ++ openersAll rest

end

@[simp] theorem openersAll_eq (ns : List Node) : openersAll ns = ns.flatMap openers := by
  induction ns with
  | nil => rfl
  | cons n rest ih => rw [openersAll, ih, List.flatMap_cons]

theorem mem_openers_self {n : Node} (h : n.isScope = true) : n ∈ n.openers := by
  cases n with
  | catchClause param x =>
    cases x with
    | block => simp
    | _ => exact List.mem_cons_self
  | function | block | forStmt | forEachStmt | whileStmt | doWhileStmt | switchStmt => simp
  | _ => cases h

/-- What opens a scope in a slot does so in the node, but for the block of a `catch` clause, which
shares the scope of the clause. -/
theorem mem_openers_of_slot {n c o : Node} (hc : c ∈ n.slots) (ho : o ∈ c.openers) :
    o ∈ n.openers ∨ (n.isCatchClause = true ∧ o.isBlock = true ∧ o.inside = n.inside) := by
  cases n with
  | catchClause param x =>
    simp only [slots, List.mem_append, List.mem_map, List.mem_singleton] at hc
    rcases hc with ⟨i, _, rfl⟩ | rfl
    · cases ho
    · cases c with
      | block xs =>
        simp only [openers, List.mem_cons] at ho ⊢
        rcases ho with rfl | ho
        · exact .inr ⟨rfl, rfl, rfl⟩
        · exact .inl (.inr ho)
      | _ => exact .inl (List.mem_cons_of_mem _ ho)
  | function form name params body =>
    simp only [slots, List.mem_append, List.mem_map] at hc
    rcases hc with (⟨i, _, rfl⟩ | ⟨i, _, rfl⟩) | hc
    · cases ho
    · cases ho
    · refine .inl (List.mem_cons_of_mem _ ?_)
      rw [openersAll_eq]
      exact List.mem_flatMap.mpr ⟨c, hc, ho⟩
  | absent | ident | literal | thisExpr | emptyStmt | breakStmt | continueStmt => cases hc
  | lookup name =>
    cases List.mem_singleton.mp hc
    cases ho
  | declarator name x =>
    simp only [slots, List.mem_cons, List.not_mem_nil, or_false] at hc
    rcases hc with rfl | rfl
    · cases ho
    · exact .inl ho
  | _ =>
    left
    simp only [slots, List.mem_cons, List.not_mem_nil, or_false] at hc
    simp only [openers, openersAll_eq, List.mem_append, List.mem_cons, List.mem_flatMap]
    grind

/-- A node that opens a scope in a tree is the root or stands in a slot. -/
theorem mem_openers {n o : Node} (h : o ∈ n.openers) : o = n ∨ ∃ c ∈ n.slots, o ∈ c.openers := by
  cases n with
  | catchClause param x =>
    cases x with
    | block xs s =>
      simp only [openers, List.mem_cons] at h
      exact h.imp_right fun h => ⟨.block xs s, by simp, List.mem_cons_of_mem _ h⟩
    | _ => exact (List.mem_cons.mp h).imp_right fun h => ⟨_, by simp, h⟩
  | _ =>
    simp only [openers, openersAll_eq, List.mem_append, List.mem_cons, List.mem_flatMap] at h
    simp only [slots, List.mem_append, List.mem_cons, List.not_mem_nil, or_false]
    grind

theorem isSorted_of_mem_openers {n o : Node} (hs : n.isSorted = true) (ho : o ∈ n.openers) :
    o.isSorted = true := by
  induction n using Node.bySlots with
  | step n ih =>
    rcases mem_openers ho with rfl | ⟨c, hc, ho⟩
    · exact hs
    · have ha : n.isAbsent = false := by
        cases n with
        | absent => cases hc
        | _ => rfl
      exact ih c hc (((isSorted_iff ha).mp hs).2 c hc) ho

/-- Every scope of a tree is the scope of a node that opens one, and a function opens its own. -/
theorem exists_opener {n m : Node} (hm : m ∈ n.phrases) (h : m.isScope = true) :
    ∃ o ∈ n.openers, o.inside = m.inside ∧ (m.isFunction = true → o = m) := by
  induction n using Node.byPhrases with
  | absent => cases hm
  | step n ha ih =>
    rw [phrases_eq ha, List.mem_cons] at hm
    rcases hm with rfl | hm
    · exact ⟨m, mem_openers_self h, rfl, fun _ => rfl⟩
    · obtain ⟨c, hc, hm⟩ := List.mem_flatMap.mp hm
      obtain ⟨o, ho, hin, hfun⟩ := ih c hc hm
      rcases mem_openers_of_slot hc ho with ho | ⟨hcatch, hblock, hsame⟩
      · exact ⟨o, ho, hin, hfun⟩
      · refine ⟨n, mem_openers_self ?_, hsame.symm.trans hin, fun hf => ?_⟩
        · cases n with
          | catchClause => rfl
          | _ => cases hcatch
        · cases hfun hf
          cases m with
          | block => cases hf
          | _ => cases hblock

end Node

/-- Is this the head of a loop over nothing? -/
def Role.isHeadless : Role → Bool
  | eachHead none => true
  | _ => false

namespace Event

open Node (of_isOptional isReadable_of_isExpression isReadable_of_isStatement
  isReadable_of_isTarget isReadable_of_isCaseClause isAbsent_of_isReadable)

/-! ### Judgements -/

/-- Does the event change neither the scopes nor the names in them? -/
def isMute : Event → Bool
  | openStatement _ | closeStatement | refer .. | evalCall _ | dynamic | thisUse => true
  | _ => false

/-- A function expression that ends looks at its own name, if it has one. -/
def calleeOf (self : Option Ident) (o : Node) : List Event :=
  self.toList.map fun i => callee i o.span.start (misplaced? (.ident i) o)

/-- Something that can be said of events: on which condition they go through, which names they
declare for the function around and which for the scope around, and which nodes open scopes. There
is a rule for each way to put events together. -/
structure Judgement where
  Holds : List Event → Prop → List String → List String → List Node → Prop
  nil : Holds [] True [] [] []
  append {es fs : List Event} {p q : Prop} {xs xs' ys ys' : List String} {os os' : List Node} :
    Holds es p xs ys os → Holds fs q xs' ys' os' →
      Holds (es ++ fs) (p ∧ q) (xs ++ xs') (ys ++ ys') (os ++ os')
  congr {es : List Event} {p q : Prop} {xs xs' ys ys' : List String} {os os' : List Node} :
    Holds es p xs ys os → (p ↔ q) → xs.Perm xs' → ys.Perm ys' → os = os' → Holds es q xs' ys' os'
  check {n : Node} : n.isAbsent = false → ∀ o, Holds (check n o) (n.isPlacedIn o = true) [] [] []
  mute {e : Event} : e.isMute = true → Holds [e] True [] [] []
  declarator (k : Keyword) (name : Ident) (st : Option Statement) (hasInit : Bool) (ready : Offset)
    (unbraced forEach : Bool) :
    Holds [declare (.declared k) name st hasInit ready unbraced forEach] True
      (if k = .varWord then [name.text] else []) (if k = .varWord then [] else [name.text]) []
  functionName (name : Ident) (ready : Offset) :
    Holds [declare .function name none true ready false false] True [name.text] [] []
  /-- A scope that is no function's: what is hoisted in it goes on to the function around. -/
  enclosed {es : List Event} {p : Prop} {os : List Node} (o : Node) (param : Option Ident)
    (cases : List Span) : o.scopeKind.isFunctionLevel = false →
    Holds es p (o.inside.flatMap Node.hoisted) (o.inside.flatMap Node.lexical) os →
    Holds ([enter o.scopeKind o.span none cases] ++
        (param.toList.flatMap (fun i => declareName .catchParam i o.span.start o) ++ es) ++ [leave])
      ((∀ c ∈ param.toList.map Node.ident, c.isPlacedIn o = true) ∧ p)
      (o.inside.flatMap Node.hoisted) [] (o :: os)
  /-- The scope of a function, which may have a name of its own. -/
  called {es : List Event} {p : Prop} {os : List Node} (o : Node) (params : List Ident)
    (self : Option Ident) (callable : Callable) : o.isFunction = true →
    Holds es p (o.inside.flatMap Node.hoisted) (o.inside.flatMap Node.lexical) os →
    Holds ([enter .function o.span (some callable) []] ++
        (params.flatMap (fun i => declareName .param i o.span.start o) ++ es ++ calleeOf self o) ++
        [leave])
      (((∀ c ∈ params.map Node.ident, c.isPlacedIn o = true) ∧ p) ∧
        ∀ i ∈ self, i.text ∈ params.map (·.text) ++
            (o.inside.flatMap Node.hoisted ++ o.inside.flatMap Node.lexical) ∨
          (Node.ident i).isPlacedIn o = true)
      [] [] (o :: os)

namespace Judgement

variable {J : Judgement}

theorem Holds.append {es fs : List Event} {p q : Prop} {xs xs' ys ys' : List String}
    {os os' : List Node} (h : J.Holds es p xs ys os) (h' : J.Holds fs q xs' ys' os') :
    J.Holds (es ++ fs) (p ∧ q) (xs ++ xs') (ys ++ ys') (os ++ os') := J.append h h'

theorem Holds.congr {es : List Event} {p q : Prop} {xs xs' ys ys' : List String}
    {os os' : List Node} (h : J.Holds es p xs ys os) (hp : p ↔ q) (hx : xs.Perm xs')
    (hy : ys.Perm ys') (ho : os = os') : J.Holds es q xs' ys' os' := J.congr h hp hx hy ho

theorem Holds.enclosed {es : List Event} {p : Prop} {xs ys : List String} {os : List Node}
    (h : J.Holds es p xs ys os) (o : Node) (cases : List Span)
    (ho : o.scopeKind.isFunctionLevel = false) (hx : xs = o.inside.flatMap Node.hoisted)
    (hy : ys = o.inside.flatMap Node.lexical) :
    J.Holds ([enter o.scopeKind o.span none cases] ++ es ++ [leave]) p xs [] (o :: os) := by
  subst hx hy
  exact (J.enclosed o none cases ho h).congr (by simp) .rfl .rfl rfl

/-! ### Reading a sorted tree -/

/-- Reading the node comes to what its phrases say. -/
def Reads (J : Judgement) (n : Node) : Prop :=
  ∀ p role, role.isHeadless = false →
    J.Holds (ofNode p role n) (n.isPlacedIn p.outer = true ∧ n.isChecked = true) n.hoisted n.lexical
      n.openers

theorem reads_optional {n : Node} (h : n.isAbsent = false → J.Reads n) (p : Place) (role : Role)
    (hr : role.isHeadless = false) :
    J.Holds (if n.isAbsent then [] else ofNode p role n)
      (n.isPlacedIn p.outer = true ∧ n.isChecked = true) n.hoisted n.lexical n.openers := by
  cases hn : n.isAbsent with
  | true =>
    cases n with
    | absent => exact J.nil.congr (by simp) .rfl .rfl rfl
    | _ => cases hn
  | false => exact h hn p role hr

theorem reads_list {ns : List Node} (h : ∀ c ∈ ns, c.isAbsent = false → J.Reads c) (p : Place) :
    J.Holds (ofNodes p ns) (∀ c ∈ ns, c.isPlacedIn p.outer = true ∧ c.isChecked = true)
      (ns.flatMap Node.hoisted) (ns.flatMap Node.lexical) (ns.flatMap Node.openers) := by
  induction ns with
  | nil => exact J.nil.congr (by simp) .rfl .rfl rfl
  | cons n ns ih =>
    rw [List.forall_mem_cons] at h
    rw [ofNodes]
    exact ((reads_optional h.1 p .plain rfl).append (ih h.2)).congr (by simp) .rfl .rfl rfl

/-- What is read before a name may as well be read after it and what comes with it. -/
theorem perm_behind (x : String) (xs ys zs : List String) :
    (xs ++ x :: (ys ++ zs)).Perm (x :: (ys ++ (xs ++ zs))) :=
  List.perm_middle.trans (.cons x (List.perm_append_comm_assoc xs ys zs))

/-- The parts of a declarator are held to the statement. -/
theorem reads_declarators {ds : List Node} (hds : ∀ d ∈ ds, d.isDeclarator = true)
    (h : ∀ name init span, .declarator name init span ∈ ds → init.isAbsent = false → J.Reads init)
    (p : Place) (st : Statement) (unbraced : Bool) (each : Option Offset) :
    J.Holds (ofDeclarators p st unbraced each ds)
      (∀ d ∈ ds, d.isPlacedIn p.outer = true ∧ (∀ c ∈ d.slots, c.isPlacedIn p.outer = true) ∧
        d.isChecked = true)
      ((if st.keyword = .varWord then boundNames ds else []) ++ ds.flatMap Node.hoisted)
      ((if st.keyword = .varWord then [] else boundNames ds) ++ ds.flatMap Node.lexical)
      (ds.flatMap Node.openers) := by
  induction ds with
  | nil => exact J.nil.congr (by simp) (by simp [boundNames]) (by simp [boundNames]) rfl
  | cons d ds ih =>
    rw [List.forall_mem_cons] at hds
    obtain ⟨hd, hds⟩ := hds
    have hrest := ih hds fun name init span hm => h name init span (List.mem_cons_of_mem _ hm)
    cases d with
    | declarator name x span =>
      have hx := reads_optional (h name x span List.mem_cons_self) p (.stored name) rfl
      have hd := J.check (n := .declarator name x span) rfl p.outer
      have hname := J.check (n := .ident name) rfl p.outer
      have hdeclare := J.declarator st.keyword name (some st) (!x.isAbsent) (each.getD span.stop)
        unbraced each.isSome
      change J.Holds ((Event.check _ _ ++ (if x.isAbsent then [] else ofNode _ _ x) ++
        Event.check (.ident name) _ ++ [.declare ..]) ++ ofDeclarators _ _ _ _ ds) _ _ _ _
      refine ((((hd.append hx).append hname).append hdeclare).append hrest).congr ?_ ?_ ?_
        (by simp)
      · rw [List.forall_mem_cons, Node.isChecked_declarator]
        simp only [Node.slots, List.forall_mem_cons]
        grind
      · have hnames : boundNames (.declarator name x span :: ds) = name.text :: boundNames ds := rfl
        rw [hnames, List.flatMap_cons, Node.hoisted_eq (.declarator ..)]
        split
        · simpa using perm_behind name.text x.hoisted (boundNames ds) (ds.flatMap Node.hoisted)
        · simp
      · have hnames : boundNames (.declarator name x span :: ds) = name.text :: boundNames ds := rfl
        rw [hnames, List.flatMap_cons, Node.lexical_eq (.declarator ..)]
        split
        · simp
        · simpa using perm_behind name.text x.lexical (boundNames ds) (ds.flatMap Node.lexical)
    | _ => cases hd

theorem isHeadless_valueRole (op : Json) (target : Node) :
    (valueRole op target).isHeadless = false := by
  unfold valueRole
  split
  · split <;> rfl
  · rfl

theorem reads_evalCalls (fn : Node) : J.Holds (evalCalls fn) True [] [] [] := by
  unfold evalCalls
  split
  · split
    · exact J.mute rfl
    · exact J.nil
  · exact J.nil

/-- What reading a node comes to, in terms of its slots. -/
theorem reads_of_slots {n : Node} (hn : n.isAbsent = false)
    (h : ∀ p role, role.isHeadless = false →
      J.Holds (Event.check n p.outer) (n.isPlacedIn p.outer = true) [] [] [] →
      J.Holds (ofNode p role n)
        (n.isPlacedIn p.outer = true ∧ (∀ c ∈ n.checked, c.isPlacedIn n = true) ∧
          ∀ c ∈ n.slots, c.isChecked = true)
        (n.hoistedHere ++ if n.isFunction then [] else n.slots.flatMap Node.hoisted)
        (n.lexicalHere ++ if n.isScope then [] else n.slots.flatMap Node.lexical) n.openers) :
    J.Reads n := by
  intro p role hr
  rw [Node.isChecked_iff hn, n.hoisted_eq, n.lexical_eq]
  exact h p role hr (J.check hn p.outer)

/-- Only the head of a loop over nothing makes a declaration statement faulty. -/
theorem ofNode_varDecl (p : Place) {role : Role} (hr : role.isHeadless = false) (k : Keyword)
    (ds : List Node) (span : Span) :
    ∃ unbraced each, ofNode p role (.varDecl k ds span) =
      Event.check (.varDecl k ds span) p.outer ++ [] ++ [openStatement (statementOf k ds span)] ++
        ofDeclarators { p with outer := .varDecl k ds span } (statementOf k ds span) unbraced each
          ds ++ [closeStatement] := by
  cases role with
  | eachHead stop =>
    cases stop with
    | none => cases hr
    | some stop => exact ⟨false, some stop, rfl⟩
  | soleBody => exact ⟨true, none, rfl⟩
  | _ => exact ⟨false, none, rfl⟩

theorem reads_varDecl (k : Keyword) {ds : List Node} (span : Span)
    (hds : ∀ d ∈ ds, d.isDeclarator = true)
    (h : ∀ name init span, .declarator name init span ∈ ds → init.isAbsent = false → J.Reads init) :
    J.Reads (.varDecl k ds span) := by
  refine reads_of_slots rfl fun p role hr hc => ?_
  obtain ⟨unbraced, each, he⟩ := ofNode_varDecl p hr k ds span
  have hdecls := reads_declarators hds h { p with outer := .varDecl k ds span }
    (statementOf k ds span) unbraced each
  rw [he]
  refine ((((hc.append J.nil).append (J.mute rfl)).append hdecls).append (J.mute rfl)).congr ?_
    (by cases k <;> simp [statementOf]) (by cases k <;> simp [statementOf]) (by simp)
  show _ ↔ _ ∧ (∀ c ∈ ds ++ ds.flatMap Node.slots, _) ∧ ∀ c ∈ ds, _
  simp only [List.forall_mem_append, List.mem_flatMap]
  grind

theorem reads_catchClause (param : Option Ident) {xs : List Node} (s span : Span)
    (h : ∀ c ∈ xs, c.isAbsent = false → J.Reads c) :
    J.Reads (.catchClause param (.block xs s) span) := by
  refine reads_of_slots rfl fun p role hr hc => ?_
  have hblock := (J.check (n := .block xs s) rfl (.catchClause param (.block xs s) span)).append
    (reads_list h ⟨.block xs s, span.start⟩)
  have hclause := J.enclosed (.catchClause param (.block xs s) span) param [] rfl hblock
  have hevents : ofNode p role (.catchClause param (.block xs s) span) =
      Event.check (.catchClause param (.block xs s) span) p.outer ++
        ([enter .catchClause span none []] ++ (param.toList.flatMap (fun i =>
            declareName .catchParam i span.start (.catchClause param (.block xs s) span)) ++
          (Event.check (.block xs s) (.catchClause param (.block xs s) span) ++
            ofNodes ⟨.block xs s, span.start⟩ xs)) ++ [leave]) := by
    cases param with
    | none =>
      change Event.check _ _ ++ [enter .catchClause _ _ _] ++ [] ++
        (Event.check _ _ ++ ofNodes _ xs) ++ [leave] = _
      simp
    | some i =>
      change Event.check _ _ ++ [enter .catchClause _ _ _] ++ declareName .catchParam i _ _ ++
        (Event.check _ _ ++ ofNodes _ xs) ++ [leave] = _
      simp
  rw [hevents]
  refine (hc.append hclause).congr ?_ ?_ (by simp) (by simp)
  · simp [Node.isChecked_block, forall_and, and_assoc, or_imp]
  · cases param <;> simp [Node.hoisted_eq (.block ..), Node.inside]

theorem reads_function (form : FunctionForm) (name : Option Ident) (params : List Ident)
    {xs : List Node} (isArrow : Bool) (span : Span)
    (hname : form = .declaration → name.isSome = true)
    (h : ∀ c ∈ xs, c.isAbsent = false → J.Reads c) :
    J.Reads (.function form name params xs isArrow span) := by
  refine reads_of_slots rfl fun p role hr hc => ?_
  have hbody := reads_list h ⟨.function form name params xs isArrow span, span.start⟩
  cases form with
  | declaration =>
    cases name with
    | none => cases hname rfl
    | some i =>
      have hown := (J.check (n := .ident i) rfl
        (.function .declaration (some i) params xs isArrow span)).append
        (J.functionName i p.scopeStart)
      have hcalled := J.called (.function .declaration (some i) params xs isArrow span) params none
        ⟨.declaration, isArrow, some i⟩ rfl hbody
      have hall := (hc.append hown).append hcalled
      change J.Holds (Event.check _ _ ++ declareName .function i _ _ ++ [enter .function _ _ _] ++
        params.flatMap (fun i => declareName .param i _ _) ++ ofNodes _ xs ++ [] ++ [leave]) _ _ _ _
      simp only [declareName, List.append_assoc, List.nil_append] at hall ⊢
      exact hall.congr (by simp [forall_and, Node.isHidden, or_imp, and_assoc]) (by simp)
        (by simp) (by simp)
  | expression =>
    have hcalled := J.called (.function .expression name params xs isArrow span) params name
      ⟨.expression, isArrow, handleOf .expression name role⟩ rfl hbody
    have hall := hc.append hcalled
    cases name with
    | none =>
      change J.Holds (Event.check _ _ ++ [] ++ [enter .function _ _ _] ++
        params.flatMap (fun i => declareName .param i _ _) ++ ofNodes _ xs ++ [] ++ [leave]) _ _ _ _
      simp only [List.append_assoc, List.nil_append] at hall ⊢
      exact hall.congr (by simp [forall_and, or_imp, and_assoc]) (by simp) (by simp)
        (by simp)
    | some i =>
      change J.Holds (Event.check _ _ ++ [] ++ [enter .function _ _ _] ++
        params.flatMap (fun i => declareName .param i _ _) ++ ofNodes _ xs ++ [callee ..] ++
        [leave]) _ _ _ _
      simp only [List.append_assoc, List.nil_append] at hall ⊢
      refine hall.congr ?_ (by simp) (by simp) (by simp)
      have hhidden : Node.isHidden .expression params xs i = true ↔
          i.text ∈ params.map (·.text) ++
            (xs.flatMap Node.hoisted ++ xs.flatMap Node.lexical) := by
        simp [Node.isHidden]
      simp only [Node.inside, Option.mem_def, Option.some.injEq, forall_eq', ← hhidden]
      cases hh : Node.isHidden .expression params xs i with
      | true => simp [hh, forall_and, or_imp, and_assoc]
      | false => simp [hh, forall_and, or_imp, and_comm, and_assoc, and_left_comm]

/-! ### Pieces -/

/-- Can the piece be read as part of the node? -/
def Legible (J : Judgement) (n : Node) : Piece → Prop
  | .own es => J.Holds es True [] [] []
  | .part p role c => p.outer = n ∧ role.isHeadless = false ∧ J.Reads c
  | .optional p role c => p.outer = n ∧ role.isHeadless = false ∧ (c.isAbsent = false → J.Reads c)
  | .parts p cs => p.outer = n ∧ ∀ c ∈ cs, c.isAbsent = false → J.Reads c
  | .declarators .. => False

/-- Reading some pieces comes to what the nodes in them say. -/
theorem reads_pieces {n : Node} {ps : List Piece} (h : ps.Forall (J.Legible n)) :
    J.Holds (ps.flatMap Piece.events)
      (∀ c ∈ ps.flatMap Piece.nodes, c.isPlacedIn n = true ∧ c.isChecked = true)
      ((ps.flatMap Piece.nodes).flatMap Node.hoisted)
      ((ps.flatMap Piece.nodes).flatMap Node.lexical)
      ((ps.flatMap Piece.nodes).flatMap Node.openers) := by
  induction ps with
  | nil => exact J.nil.congr (by simp) .rfl .rfl rfl
  | cons x ps ih =>
    obtain ⟨hx, hps⟩ := List.forall_cons .. |>.mp h
    have hone : J.Holds x.events (∀ c ∈ x.nodes, c.isPlacedIn n = true ∧ c.isChecked = true)
        (x.nodes.flatMap Node.hoisted) (x.nodes.flatMap Node.lexical)
        (x.nodes.flatMap Node.openers) := by
      cases x with
      | own es => exact Holds.congr hx (by simp) .rfl .rfl rfl
      | part p role c =>
        obtain ⟨rfl, hr, hc⟩ := hx
        exact (hc p role hr).congr (by simp) (by simp) (by simp) (by simp)
      | optional p role c =>
        obtain ⟨rfl, hr, hc⟩ := hx
        exact (reads_optional hc p role hr).congr (by simp) (by simp) (by simp) (by simp)
      | parts p cs =>
        obtain ⟨rfl, hcs⟩ := hx
        exact reads_list hcs p
      | declarators => cases hx
    simp only [List.flatMap_cons, List.flatMap_append, List.forall_mem_append]
    exact hone.append (ih hps)

/-- A node that neither opens a scope nor declares a name. -/
theorem reads_plain {n : Node} {ps : Place → Role → List Piece} (hn : n.isAbsent = false)
    (hl : ∀ p role, layout p role n = .own (Event.check n p.outer) :: ps p role)
    (hs : ∀ p role, (ps p role).flatMap Piece.nodes = n.slots) (hc : n.checked = n.slots)
    (hh : n.hoistedHere = [] ∧ n.isFunction = false) (hx : n.lexicalHere = [] ∧ n.isScope = false)
    (ho : n.openers = n.slots.flatMap Node.openers)
    (h : ∀ p role, (ps p role).Forall (J.Legible n)) : J.Reads n := by
  refine reads_of_slots hn fun p role _ hcheck => ?_
  have hall := hcheck.append (reads_pieces (h p role))
  rw [hs] at hall
  rw [ofNode_eq_layout, hl]
  refine hall.congr ?_ (by rw [hh.1, hh.2]; rfl) (by rw [hx.1, hx.2]; rfl) (by rw [ho]; rfl)
  rw [hc, ← forall₂_and]

/-- A node that opens a scope for all that stands in its slots. -/
theorem reads_scope {n : Node} {ps : List Piece} (hn : n.isAbsent = false)
    (hl : ∀ p role, layout p role n = .own (Event.check n p.outer) ::
      .own [enter n.scopeKind n.span none []] :: ps)
    (hps : ps = ps.dropLast ++ [.own [leave]]) (hs : ps.dropLast.flatMap Piece.nodes = n.slots)
    (hi : n.inside = n.slots) (hc : n.checked = n.slots) (hk : n.scopeKind.isFunctionLevel = false)
    (hh : n.hoistedHere = [] ∧ n.isFunction = false) (hx : n.lexicalHere = [] ∧ n.isScope = true)
    (ho : n.openers = n :: n.slots.flatMap Node.openers)
    (h : ps.dropLast.Forall (J.Legible n)) : J.Reads n := by
  refine reads_of_slots hn fun p role _ hcheck => ?_
  have hbody := reads_pieces h
  rw [hs] at hbody
  have hall := hcheck.append (hbody.enclosed n [] hk (by rw [hi]) (by rw [hi]))
  have hevents : ofNode p role n = Event.check n p.outer ++
      ([enter n.scopeKind n.span none []] ++ ps.dropLast.flatMap Piece.events ++ [leave]) := by
    rw [ofNode_eq_layout, hl, hps]
    simp
  rw [hevents]
  refine hall.congr ?_ (by rw [hh.1, hh.2]; rfl) (by rw [hx.1, hx.2]; rfl) (by rw [ho]; rfl)
  rw [hc, ← forall₂_and]

theorem reads_switchStmt {x : Node} {xs : List Node} (span : Span) (hx : J.Reads x)
    (hl : x.lexical = []) (hxs : ∀ c ∈ xs, c.isAbsent = false ∧ J.Reads c) :
    J.Reads (.switchStmt x xs span) := by
  refine reads_of_slots rfl fun p role hr hc => ?_
  have hcases := reads_list (fun c hc _ => (hxs c hc).2) ⟨.switchStmt x xs span, span.start⟩
  have hall : xs.any (·.isAbsent) = false := by simpa using fun c hc => (hxs c hc).1
  change J.Holds (Event.check _ _ ++ ofNode _ _ x ++
    (if xs.any (·.isAbsent) then [fault .noPart] else []) ++ [enter .block _ _ _] ++
    ofNodes _ xs ++ [leave]) _ _ _ _
  rw [hall]
  have hbody := hcases.enclosed (.switchStmt x xs span) (xs.map (·.span)) rfl rfl rfl
  simp only [List.append_assoc] at hbody ⊢
  exact (hc.append ((hx _ _ rfl).append (J.nil.append hbody))).congr
    (by simp [forall_and, and_assoc, and_left_comm]) (by simp) (by simp [hl])
    (by simp)

theorem reads_step {n : Node} (hs : n.isSorted = true) (hr : n.isReadable = true)
    (ih : ∀ c ∈ n.slots, c.isReadable = true → J.Reads c)
    (ih' : ∀ c ∈ n.slots, ∀ d ∈ c.slots, d.isReadable = true → J.Reads d) : J.Reads n := by
  obtain ⟨hf, hss⟩ := (Node.isSorted_iff (isAbsent_of_isReadable hr)).mp hs
  cases n with
  | absent | ident | declarator => cases hr
  | literal | emptyStmt | breakStmt | continueStmt =>
    exact reads_plain rfl (fun _ _ => rfl) (fun _ _ => rfl) rfl (by simp) (by simp) (by simp)
      fun _ _ => trivial
  | thisExpr =>
    exact reads_plain rfl (fun _ _ => rfl) (fun _ _ => rfl) rfl (by simp) (by simp) (by simp)
      fun _ _ => J.mute rfl
  | lookup name =>
    refine reads_of_slots rfl fun p role _ hc => ?_
    change J.Holds (Event.check _ _ ++ [refer ..]) _ _ _ _
    refine (hc.append (J.mute rfl)).congr ?_ (by simp) (by simp) (by simp)
    simpa using Node.isPlacedIn_lookup
  | member x y computed =>
    simp only [Node.slots, List.forall_mem_cons, Node.isFormed, Bool.and_eq_true] at ih hf
    have hx := ih.1 (isReadable_of_isExpression hf.1)
    cases computed with
    | true =>
      have hy := ih.2.1 (isReadable_of_isExpression hf.2)
      exact reads_plain rfl (fun _ _ => rfl) (fun _ _ => rfl) rfl (by simp) (by simp) (by simp)
        fun _ _ => ⟨⟨rfl, rfl, hx⟩, rfl, rfl, hy⟩
    | false =>
      refine reads_of_slots rfl fun p role _ hc => ?_
      change J.Holds (Event.check _ _ ++ ofNode _ _ x ++ []) _ _ _ _
      cases y with
      | literal =>
        exact ((hc.append (hx _ _ rfl)).append J.nil).congr (by simp) (by simp) (by simp) (by simp)
      | _ => cases hf.2
  | assign op x y =>
    simp only [Node.slots, List.forall_mem_cons, Node.isFormed, Bool.and_eq_true] at ih hf
    have hx := ih.1 (isReadable_of_isTarget hf.1)
    have hy := ih.2.1 (isReadable_of_isExpression hf.2)
    exact reads_plain rfl (fun _ _ => rfl) (fun _ _ => rfl) rfl (by simp) (by simp) (by simp)
      fun _ _ => ⟨⟨rfl, rfl, hx⟩, rfl, isHeadless_valueRole op x, hy⟩
  | function form name params xs isArrow span =>
    simp only [Node.slots, List.forall_mem_append, Node.isFormed, Bool.and_eq_true, Bool.or_eq_true,
      List.all_eq_true] at ih hf
    refine reads_function form name params isArrow span (fun hform => ?_) fun c hc _ =>
      ih.2 c hc (isReadable_of_isStatement (hf.2 c hc))
    subst hform
    exact hf.1.resolve_left (by decide)
  | block | whileStmt | doWhileStmt | forStmt | forEachStmt =>
    refine reads_scope rfl (fun _ _ => rfl) rfl (by simp) rfl rfl rfl (by simp) (by simp)
      (by simp) ?_
    simp [-Node.isReadable, Legible, Node.isFormed, Node.isOptional, subjectEnd, Role.isHeadless]
      at ih hf ⊢
    grind
  | switchStmt x xs span =>
    simp only [Node.slots, List.forall_mem_cons, Node.isFormed, Bool.and_eq_true,
      List.all_eq_true] at ih hf hss
    refine reads_switchStmt span (ih.1 (isReadable_of_isExpression hf.1))
      (Node.lexical_of_isBare hss.1 (Node.isBare_of_isExpression hf.1)) fun c hc => ?_
    have hread := isReadable_of_isCaseClause (hf.2 c hc)
    exact ⟨isAbsent_of_isReadable hread, ih.2 c hc hread⟩
  | catchClause param x span =>
    cases x with
    | block xs s =>
      have hblock := hss (.block xs s) (by simp)
      have hxs := (List.all_eq_true.mp ((Node.isSorted_iff rfl).mp hblock).1)
      exact reads_catchClause param s span fun c hc _ =>
        ih' (.block xs s) (by simp) c hc (isReadable_of_isStatement (hxs c hc))
    | _ => cases hf
  | varDecl k ds span =>
    refine reads_varDecl k span (List.all_eq_true.mp hf) fun name x s hm ha => ?_
    have hx := ((Node.isSorted_iff rfl).mp (hss _ hm)).1
    exact ih' _ hm x (by simp) (isReadable_of_isExpression (of_isOptional hx ha))
  | _ =>
    refine reads_plain rfl (fun _ _ => rfl) (by simp) rfl (by simp) (by simp) (by simp)
      fun p role => ?_
    have hdynamic : J.Holds [dynamic] True [] [] [] := J.mute rfl
    simp [-Node.isReadable, Legible, Node.isFormed, Node.isOptional, Role.isHeadless,
      reads_evalCalls] at ih hf ⊢
    grind

/-- Reading a node of a sorted tree comes to what its phrases say. The slots are part of the
statement because the block of a `catch` clause and declarators are not read by themselves. -/
theorem reads {n : Node} (hs : n.isSorted = true) :
    (n.isReadable = true → J.Reads n) ∧ ∀ c ∈ n.slots, c.isReadable = true → J.Reads c := by
  induction n using Node.byPhrases with
  | absent => exact ⟨nofun, nofun⟩
  | step n ha ih =>
    have hss := ((Node.isSorted_iff ha).mp hs).2
    have hslots := fun c hc => (ih c hc (hss c hc)).1
    exact ⟨fun hr => reads_step hs hr hslots fun c hc => (ih c hc (hss c hc)).2, hslots⟩

end Judgement

end Event

end ScopeLowering

import ScopeLowering.Machine.Run
import ScopeLowering.Proofs.Laws

/-!
# How code is left

All code obeys the laws that outlast the ways of putting actions together (`Eval.Law`): expressions
(`Eval.obeys_eval`), statements (`Eval.costs_exec`), calls (`Eval.obeys_applyWithin`) and scripts
(`Eval.obeys_runMain`). This tells how code is left, too. A statement ends with a jump only if its
tree lets that jump out, and neither an expression nor a call ever ends with one. So a loop is never
left by a `break` or a `continue`, and a switch never by a `break`.

## The model

How a function is called is a parameter of the laws for expressions and statements, as it is of
`eval` and `exec`. Calls are asked to end without a jump (`Eval.Law.IsObeyedBy`).
-/

namespace ScopeLowering

namespace Eval

variable {strict : Prop} {L : Law strict} {E E' : Jump → Prop}

/-! ### Control -/

section

variable {body action cleanup : Eval Unit} {test : Eval Value}

theorem obeys_closing (part : Node) (haction : L.Obeys E action) (hcleanup : L.Costs E cleanup) :
    L.Obeys E (closing part action cleanup) := by
  unfold closing
  split
  · exact haction
  · exact L.thenAlways haction hcleanup

theorem obeys_whileLoop (hbody : L.Costs E body) (himp : strict → E .returning → E' .returning)
    (htest : L.Obeys E' test) : L.Obeys E' (whileLoop test body) := by
  refine L.loop (fun _ => L.pays_after htest fun v => ?_) ()
  split
  · exact L.pays_of_costs ((L.runBody hbody himp).bind fun _ => .pure _)
  · exact L.pays_pure Bool.false_ne_true

theorem obeys_doWhileLoop (hbody : L.Costs E body) (himp : strict → E .returning → E' .returning)
    (htest : L.Obeys E' test) : L.Obeys E' (doWhileLoop body test) := by
  refine L.loop (fun _ => L.pays_of_costs ((L.runBody hbody himp).bind fun goOn => ?_)) ()
  split
  · exact htest.bind fun _ => .pure _
  · exact .pure _

end

theorem obeys_nextEnv (fresh : Bool) (env : Env) : L.Obeys E (nextEnv fresh env) := by
  unfold nextEnv
  split
  · exact obeys_copyFrame env
  · exact .pure _

theorem obeys_forLoop {test : Env → Eval Bool} {body update : Env → Eval Unit}
    (htest : ∀ env, L.Obeys E' (test env)) (hbody : ∀ env, L.Costs E (body env))
    (himp : strict → E .returning → E' .returning)
    (hupdate : ∀ env, L.Obeys E' (update env)) (fresh : Bool) (head : Env) :
    L.Obeys E' (forLoop fresh test body update head) := by
  refine (obeys_nextEnv fresh head).bind (L.loop fun env => L.pays_after (htest env) fun goOn => ?_)
  split
  · refine L.pays_of_costs ((L.runBody (hbody env) himp).bind fun goOn => ?_)
    split
    · exact (obeys_nextEnv fresh env).bind fun _ => (hupdate _).bind fun _ => .pure _
    · exact .pure _
  · exact L.pays_pure Bool.false_ne_true

section

variable {pass : Value → Eval Bool}

theorem obeys_passOver (hpass : ∀ v, L.Obeys E (pass v)) (vs : List Value) :
    L.Obeys E (passOver pass vs) := by
  induction vs with
  | nil => exact .pure _
  | cons v rest ih =>
    refine (hpass v).bind fun goOn => ?_
    split
    · exact ih
    · exact .pure _

theorem obeys_passOverArray (hpass : ∀ v, L.Pays (fun _ => True) E (pass v)) (id : Nat) :
    L.Obeys E (passOverArray pass id) := by
  refine L.loop (fun i => L.pays_get_bind (fun _ _ => rfl) fun m => ?_) 0
  split
  · exact L.pays_bind (hpass _) fun _ => .pure _
  · exact L.pays_pure Bool.false_ne_true

theorem obeys_passOverItems (hpass : ∀ v, L.Pays (fun _ => True) E (pass v)) (subject : Value) :
    L.Obeys E (passOverItems pass subject) := by
  cases subject with
  | array id => exact obeys_passOverArray hpass id
  | text s => exact obeys_passOver (fun v => L.obeys_of_pays (hpass v)) _
  | _ => exact (obeys_toText _).bind fun _ => obeys_raise _ _

end

theorem obeys_eachLoop {setUp : Value → Eval Env} {body : Env → Eval Unit}
    (hbody : ∀ env, L.Costs E (body env)) (himp : strict → E .returning → E' .returning)
    (isOf : Bool) (subject : Value) (hsetUp : ∀ v, L.Obeys E' (setUp v)) :
    L.Obeys E' (eachLoop isOf setUp body subject) := by
  have hpass : ∀ v, L.Pays (fun _ => True) E' (setUp v >>= fun env => runBody (body env)) :=
    fun v => L.pays_after (hsetUp v) fun env => L.pays_of_costs (L.runBody (hbody env) himp)
  unfold eachLoop
  dsimp only
  split
  · exact obeys_passOverItems hpass subject
  · exact .get_bind (fun _ _ => rfl) fun _ _ =>
      obeys_passOver (fun v => L.obeys_of_pays (hpass v)) _

/-! ### Pieces of expressions -/

section

variable {value : Eval Value}

theorem obeys_optional (hvalue : L.Obeys E value) (part : Node) :
    L.Obeys E (optional part value) := by
  unfold optional
  split
  · exact .pure _
  · exact hvalue

theorem obeys_goesOn (hvalue : L.Obeys E value) (test : Node) :
    L.Obeys E (goesOn test value) := by
  unfold goesOn
  split
  · exact .pure _
  · exact hvalue.bind fun _ => .pure _

theorem obeys_memberKey (hvalue : L.Obeys E value) (computed : Bool) (key : Node) :
    L.Obeys E (memberKey computed key value) := by
  unfold memberKey
  split
  · exact hvalue.bind fun _ => (obeys_toText _).bind fun _ => .pure _
  · split
    · exact .pure _
    · exact .fault _

theorem obeys_stepped (op : Json) (v : Value) : L.Obeys E (stepped op v) :=
  (obeys_toNumber v).bind fun _ => (Law.Obeys.compute _).bind fun _ => .pure _

theorem obeys_isUnboundType (env : Env) (op : Json) (operand : Node) :
    L.Obeys E (isUnboundType env op operand) := by
  unfold isUnboundType
  split
  · split
    · exact .get_bind (fun _ _ => rfl) fun _ _ => .pure _
    · exact .pure _
  · exact .pure _

theorem obeys_combine (hvalue : L.Obeys E value) (op : Json) (old : Value) :
    L.Obeys E (combine op old value) := by
  unfold combine
  split
  · split
    · exact hvalue
    · exact .pure _
  · split
    · exact .pure _
    · exact hvalue
  · split
    · exact hvalue
    · exact .pure _
  · dsimp only
    split
    · exact hvalue.bind fun _ => obeys_binary _ _ _
    · exact .fault _
  · exact .fault _

theorem obeys_assigned {old : Eval Value} (hold : L.Obeys E old)
    (hvalue : L.Obeys E value) (op : Json) : L.Obeys E (assigned op old value) := by
  unfold assigned
  split
  · exact hvalue
  · exact hold.bind fun _ => obeys_combine hvalue op _

theorem obeys_remove {key : Eval Key} (hkey : L.Obeys E key) (target : Value) :
    L.Obeys E (remove target key) := by
  cases target with
  | record id => exact hkey.bind fun _ => (obeys_deleteProperty _ _).bind fun _ => .pure _
  | _ => exact .pure _

theorem obeys_newClosure {code : Code} (hcode : code.KeepsJumpsIf strict) (env : Env) :
    L.Obeys E (newClosure env code) := by
  unfold newClosure
  split
  · exact obeys_newFunction hcode env
  · exact (obeys_child env).bind fun inner => (obeys_newFunction hcode inner).bind fun _ =>
      (obeys_declare _ _ _ _).bind fun _ => .pure _

theorem obeys_runDeclarator (hvalue : L.Obeys E value) (env : Env) (keyword : Keyword)
    (name : String) (init : Node) :
    L.Obeys E (runDeclarator env keyword name init value) := by
  unfold runDeclarator
  split
  · split
    · exact .pure _
    · exact hvalue.bind fun _ => obeys_write _ _ _
  · refine (obeys_optional hvalue init).bind fun v => .get_bind (fun _ _ => rfl) fun m _ => ?_
    split
    · exact obeys_assign _ _
    · exact obeys_declare _ _ _ _

theorem obeys_bindItem (env : Env) (keyword : Keyword) (name : String) (item : Value) :
    L.Obeys E (bindItem env keyword name item) := by
  unfold bindItem
  split
  · exact (obeys_write _ _ _).bind fun _ => .pure _
  · exact (obeys_child env).bind fun _ => (obeys_declare _ _ _ _).bind fun _ => .pure _

theorem obeys_bindException (env : Env) (param : Option Ident) (v : Value) :
    L.Obeys E (bindException env param v) := by
  refine (obeys_child env).bind fun inner => ?_
  cases param with
  | some name => exact (obeys_declare _ _ _ _).bind fun _ => .pure _
  | none => exact .pure _

theorem obeys_enterCases (env outer : Env) {cases : List Node}
    (hcases : ∀ n ∈ cases, n.KeepsJumpsIf strict) :
    L.Obeys E (enterCases env outer cases) := by
  induction cases with
  | nil => exact .pure _
  | cons c rest ih =>
    obtain ⟨hc, hrest⟩ := List.forall_mem_cons.mp hcases
    refine .bind ?_ fun _ => ih hrest
    cases c with
    | caseClause | block | program | function =>
      exact obeys_enterBlock _ _ fun n hn => hc.slot (by simp [hn])
    | _ => exact .fault _

end

/-! ### Expressions -/

/-- Do calls obey the law and never end with a jump? -/
def Law.IsObeyedBy (L : Law strict) (apply : Apply) : Prop :=
  ∀ (id : Nat) (this : Value) (args : List Value),
    L.Obeys (fun _ => False) (apply id this args)

variable {apply : Apply}

section

variable (h : L.IsObeyedBy apply)

include h

theorem obeys_call (fn this : Value) (args : List Value) :
    L.Obeys E (call apply fn this args) := by
  cases fn with
  | function id => exact (h id this args).mono fun _ _ => False.elim
  | _ => exact (obeys_toText _).bind fun _ => obeys_raise _ _

theorem obeys_construct (fn : Value) (args : List Value) :
    L.Obeys E (construct apply fn args) := by
  cases fn with
  | function id =>
    exact (obeys_newRecord _).bind fun object =>
      ((h id object args).mono fun _ _ => False.elim).bind fun _ => .pure _
  | _ => exact (obeys_toText _).bind fun _ => obeys_raise _ _

end

mutual

/-- An expression never ends with a jump, since the functions in it keep theirs. -/
theorem obeys_eval (h : L.IsObeyedBy apply) (env : Env) (n : Node)
    (hn : n.KeepsJumpsIf strict) : L.Obeys E (eval apply env n) := by
  cases n with
  | literal c span => exact .pure _
  | lookup name => exact obeys_read _ _
  | thisExpr span => exact .pure _
  | arrayLit elements span =>
    exact (obeys_evalElements h env elements fun c hc => hn.slot hc).bind fun _ => obeys_newArray _
  | objectLit properties span =>
    exact (obeys_evalProperties h env {} properties fun c hc => hn.slot hc).bind
      fun _ => obeys_newRecord _
  | member target key computed span =>
    exact (obeys_eval h env target (hn.slot (by simp))).bind fun _ =>
      (obeys_memberKey (obeys_eval h env key (hn.slot (by simp))) _ _).bind
        fun _ => obeys_getProperty _ _
  | assign op target value span =>
    have hvalue : L.Obeys E (eval apply env value) := obeys_eval h env value (hn.slot (by simp))
    cases target with
    | lookup name =>
      exact (obeys_assigned (obeys_read _ _) hvalue op).bind fun _ =>
        (obeys_write _ _ _).bind fun _ => .pure _
    | member target key computed span =>
      have htarget : (Node.member target key computed span).KeepsJumpsIf strict := hn.slot (by simp)
      exact (obeys_eval h env target (htarget.slot (by simp))).bind fun _ =>
        (obeys_memberKey (obeys_eval h env key (htarget.slot (by simp))) _ _).bind fun _ =>
          (obeys_assigned (obeys_getProperty _ _) hvalue op).bind fun _ =>
            (obeys_setProperty _ _ _).bind fun _ => .pure _
    | _ => exact .fault _
  | update op target before span =>
    cases target with
    | lookup name =>
      exact (obeys_read _ _).bind fun _ => (obeys_stepped _ _).bind fun _ =>
        (obeys_write _ _ _).bind fun _ => .pure _
    | member target key computed span =>
      have htarget : (Node.member target key computed span).KeepsJumpsIf strict := hn.slot (by simp)
      exact (obeys_eval h env target (htarget.slot (by simp))).bind fun _ =>
        (obeys_memberKey (obeys_eval h env key (htarget.slot (by simp))) _ _).bind fun _ =>
          (obeys_getProperty _ _).bind fun _ => (obeys_stepped _ _).bind fun _ =>
            (obeys_setProperty _ _ _).bind fun _ => .pure _
    | _ => exact .fault _
  | unary op operand span =>
    have hoperand : operand.KeepsJumpsIf strict := hn.slot (by simp)
    show L.Obeys _ (if op.isText "delete" then _ else _ : Eval Value)
    split
    · exact obeys_evalDelete h env operand hoperand
    · refine (obeys_isUnboundType env op operand).bind fun unbound => ?_
      split
      · exact .pure _
      · split
        · exact (obeys_eval h env operand hoperand).bind fun _ => obeys_unary _ _
        · exact .fault _
  | binary op lhs rhs span =>
    refine (obeys_eval h env lhs (hn.slot (by simp))).bind fun a =>
      (obeys_eval h env rhs (hn.slot (by simp))).bind fun b => ?_
    split
    · exact obeys_binary _ _ _
    · exact .fault _
  | logical op lhs rhs span =>
    refine (obeys_eval h env lhs (hn.slot (by simp))).bind fun a => ?_
    split
    · exact obeys_eval h env rhs (hn.slot (by simp))
    · exact .pure _
  | conditional test yes no span =>
    refine (obeys_eval h env test (hn.slot (by simp))).bind fun a => ?_
    split
    · exact obeys_eval h env yes (hn.slot (by simp))
    · exact obeys_eval h env no (hn.slot (by simp))
  | call fn args span =>
    have hargs : L.Obeys E (evalArgs apply env args) :=
      obeys_evalArgs h env args fun c hc => hn.slot (by simp [hc])
    cases fn with
    | member target key computed span =>
      have hfn : (Node.member target key computed span).KeepsJumpsIf strict := hn.slot (by simp)
      exact (obeys_eval h env target (hfn.slot (by simp))).bind fun _ =>
        (obeys_memberKey (obeys_eval h env key (hfn.slot (by simp))) _ _).bind fun _ =>
          (obeys_getProperty _ _).bind fun fn => hargs.bind fun _ => obeys_call h fn _ _
    | _ =>
      exact (obeys_eval h env _ (hn.slot (by simp))).bind fun fn => hargs.bind fun _ =>
        obeys_call h fn _ _
  | newCall fn args span =>
    exact (obeys_eval h env fn (hn.slot (by simp))).bind fun fn =>
      (obeys_evalArgs h env args fun c hc => hn.slot (by simp [hc])).bind fun _ =>
        obeys_construct h fn _
  | sequence exprs span => exact obeys_evalSequence h env _ exprs fun c hc => hn.slot hc
  | function form name params body isArrow span =>
    cases form with
    | expression => exact obeys_newClosure (fun hs => (hn hs).code) env
    | declaration => exact .fault _
  | _ => exact .fault _

theorem obeys_evalDelete (h : L.IsObeyedBy apply) (env : Env) (n : Node)
    (hn : n.KeepsJumpsIf strict) : L.Obeys E (evalDelete apply env n) := by
  cases n with
  | member target key computed span =>
    exact (obeys_eval h env target (hn.slot (by simp))).bind fun _ =>
      obeys_remove (obeys_memberKey (obeys_eval h env key (hn.slot (by simp))) _ _) _
  | _ => exact .pure _

theorem obeys_evalElements (h : L.IsObeyedBy apply) (env : Env) :
    ∀ ns : List Node, (∀ n ∈ ns, n.KeepsJumpsIf strict) →
      L.Obeys E (evalElements apply env ns)
  | [], _ => .pure _
  | n :: rest, hns => by
    obtain ⟨hn, hrest⟩ := List.forall_mem_cons.mp hns
    exact (obeys_optional (obeys_eval h env n hn) n).bind fun _ =>
      (obeys_evalElements h env rest hrest).bind fun _ => .pure _

theorem obeys_evalArgs (h : L.IsObeyedBy apply) (env : Env) :
    ∀ ns : List Node, (∀ n ∈ ns, n.KeepsJumpsIf strict) →
      L.Obeys E (evalArgs apply env ns)
  | [], _ => .pure _
  | n :: rest, hns => by
    obtain ⟨hn, hrest⟩ := List.forall_mem_cons.mp hns
    exact (obeys_eval h env n hn).bind fun _ => (obeys_evalArgs h env rest hrest).bind fun _ =>
      .pure _

theorem obeys_evalProperties (h : L.IsObeyedBy apply) (env : Env) (r : Record) :
    ∀ ns : List Node, (∀ n ∈ ns, n.KeepsJumpsIf strict) →
      L.Obeys E (evalProperties apply env r ns)
  | [], _ => .pure _
  | n :: rest, hns => by
    obtain ⟨hn, hrest⟩ := List.forall_mem_cons.mp hns
    cases n with
    | property key value span =>
      refine (obeys_eval h env value (hn.slot (by simp))).bind fun v => ?_
      dsimp only
      split
      · exact obeys_evalProperties h env _ rest hrest
      · exact .fault _
    | _ => exact .fault _

theorem obeys_evalSequence (h : L.IsObeyedBy apply) (env : Env) (last : Value) :
    ∀ ns : List Node, (∀ n ∈ ns, n.KeepsJumpsIf strict) →
      L.Obeys E (evalSequence apply env last ns)
  | [], _ => .pure _
  | n :: rest, hns => by
    obtain ⟨hn, hrest⟩ := List.forall_mem_cons.mp hns
    exact (obeys_eval h env n hn).bind fun _ => obeys_evalSequence h env _ rest hrest

end

theorem obeys_execDeclarators (h : L.IsObeyedBy apply) (env : Env) (keyword : Keyword)
    (ds : List Node) (hds : ∀ n ∈ ds, n.KeepsJumpsIf strict) :
    L.Obeys E (execDeclarators apply env keyword ds) := by
  induction ds with
  | nil => exact .pure _
  | cons d rest ih =>
    obtain ⟨hd, hrest⟩ := List.forall_mem_cons.mp hds
    cases d with
    | declarator name init span =>
      exact (obeys_runDeclarator (obeys_eval h env init (hd.slot (by simp))) _ _ _ _).bind
        fun _ => ih hrest
    | _ => exact .fault _

theorem obeys_findCase (h : L.IsObeyedBy apply) (env : Env) (subject : Value)
    (ns : List Node) (hns : ∀ n ∈ ns, n.KeepsJumpsIf strict) (place : Nat) :
    L.Obeys E (findCase apply env subject place ns) := by
  induction ns generalizing place with
  | nil => exact .pure _
  | cons n rest ih =>
    obtain ⟨hn, hrest⟩ := List.forall_mem_cons.mp hns
    cases n with
    | caseClause test body span =>
      show L.Obeys _ (if test.isAbsent then _ else _ : Eval (Option Nat))
      split
      · exact ih hrest _
      · refine (obeys_eval h env test (hn.slot (by simp))).bind fun v => ?_
        split
        · exact .pure _
        · exact ih hrest _
    | _ => exact .fault _

/-! ### Statements -/

/-- A declaration is no jump and has none in it. -/
theorem costs_varDecl (h : L.IsObeyedBy apply) (env : Env) {keyword : Keyword}
    {ds : List Node} {span : Span} (hn : (Node.varDecl keyword ds span).KeepsJumpsIf strict) :
    L.Costs E (exec apply env (.varDecl keyword ds span)) :=
  L.tick.bind fun _ => obeys_execDeclarators h env keyword ds fun _ hd => hn.slot hd

mutual

/-- A statement ends with a jump only if it lets it out. -/
theorem costs_exec (h : L.IsObeyedBy apply) (env : Env) (n : Node)
    (hn : n.KeepsJumpsIf strict) :
    L.Costs (fun j => n.lets j = true) (exec apply env n) := by
  cases n with
  | emptyStmt span => exact L.tick.bind fun _ => .pure _
  | function form name params body isArrow span =>
    cases form with
    | declaration => exact L.tick.bind fun _ => .pure _
    | expression => exact L.tick.bind fun _ => .fault _
  | exprStmt expr span =>
    exact L.tick.bind fun _ => (obeys_eval h env expr (hn.slot (by simp))).bind fun _ => .pure _
  | varDecl keyword ds span => exact costs_varDecl h env hn
  | block body span =>
    have hbody : ∀ c ∈ body, c.KeepsJumpsIf strict := fun c hc => hn.slot hc
    refine L.tick.bind fun _ => (obeys_child env).bind fun inner =>
      (obeys_enterBlock _ _ hbody).bind fun _ => (obeys_execAll h inner body hbody).mono ?_
    rintro _ j ⟨c, hc, hlets⟩
    exact Node.lets_of_slot (Node.stopsAt_eq_false rfl rfl rfl j) hc hlets
  | ifStmt test yes no span =>
    have hstop : ∀ j : Jump, j.stopsAt (Node.ifStmt test yes no span) = false :=
      Node.stopsAt_eq_false rfl rfl rfl
    refine L.tick.bind fun _ => (obeys_eval h env test (hn.slot (by simp))).bind fun v => ?_
    split
    · exact (costs_exec h env yes (hn.slot (by simp))).obeys.mono fun _ j =>
        Node.lets_of_slot (hstop j) (by simp)
    · split
      · exact .pure _
      · exact (costs_exec h env no (hn.slot (by simp))).obeys.mono fun _ j =>
          Node.lets_of_slot (hstop j) (by simp)
  | whileStmt test body span =>
    exact L.tick.bind fun _ => obeys_whileLoop (costs_exec h env body (hn.slot (by simp)))
      (fun _ => Node.lets_of_slot rfl (by simp)) (obeys_eval h env test (hn.slot (by simp)))
  | doWhileStmt body test span =>
    exact L.tick.bind fun _ => obeys_doWhileLoop (costs_exec h env body (hn.slot (by simp)))
      (fun _ => Node.lets_of_slot rfl (by simp)) (obeys_eval h env test (hn.slot (by simp)))
  | forStmt init test update body span =>
    have hinit : init.KeepsJumpsIf strict := hn.slot (by simp)
    refine L.tick.bind fun _ => (obeys_child env).bind fun head => .bind ?_
      fun fresh => obeys_forLoop (fun env => ?_) (fun env => costs_exec h env body
        (hn.slot (by simp))) (fun _ => Node.lets_of_slot rfl (by simp)) (fun env => ?_) fresh head
    · cases init with
      | varDecl keyword ds span =>
        exact (obeys_enterBlock _ _ (by simpa using hinit)).bind fun _ =>
          (costs_varDecl h head hinit).obeys.bind fun _ => .pure _
      | absent => exact .pure _
      | _ => exact (obeys_eval h head _ hinit).bind fun _ => .pure _
    · exact obeys_goesOn (obeys_eval h env test (hn.slot (by simp))) test
    · exact (obeys_optional (obeys_eval h env update (hn.slot (by simp))) update).bind
        fun _ => .pure _
  | forEachStmt head subject body isOf span =>
    have hhead : head.KeepsJumpsIf strict := hn.slot (by simp)
    refine L.tick.bind fun _ => (obeys_eval h env subject (hn.slot (by simp))).bind fun v =>
      obeys_eachLoop (fun env => costs_exec h env body (hn.slot (by simp)))
        (fun _ => Node.lets_of_slot rfl (by simp)) isOf v fun item => ?_
    split
    · exact obeys_bindItem _ _ _ _
    · exact .fault _
    · exact (obeys_write _ _ _).bind fun _ => .pure _
    · exact (obeys_eval h env _ (hhead.slot (by simp))).bind fun _ =>
        (obeys_memberKey (obeys_eval h env _ (hhead.slot (by simp))) _ _).bind fun _ =>
          (obeys_setProperty _ _ _).bind fun _ => .pure _
    · exact .fault _
  | returnStmt value span =>
    refine L.tick.bind fun _ =>
      (obeys_optional (obeys_eval h env value (hn.slot (by simp))) value).bind fun _ =>
        .throw (fun h => by cases h) ?_
    rintro _ j ⟨⟩
    exact Node.lets_of_jump? rfl
  | breakStmt span | continueStmt span =>
    refine L.tick.bind fun _ =>
        .throw (fun h => by cases h) ?_
    rintro _ j ⟨⟩
    exact Node.lets_of_jump? rfl
  | throwStmt value span =>
    exact L.tick.bind fun _ => (obeys_eval h env value (hn.slot (by simp))).bind
      fun _ => .thrown _
  | tryStmt body handler finalizer span =>
    have hstop : ∀ j : Jump, j.stopsAt (Node.tryStmt body handler finalizer span) = false :=
      Node.stopsAt_eq_false rfl rfl rfl
    have hhandler : handler.KeepsJumpsIf strict := hn.slot (by simp)
    have hall : ∀ handle : Value → Eval Unit,
        (∀ v, L.Obeys (fun j => handler.lets j = true) (handle v)) →
        L.Costs (fun j => (Node.tryStmt body handler finalizer span).lets j = true)
          (tick >>= fun _ => closing finalizer (catching (exec apply env body) handle)
            (exec apply env finalizer)) := by
      intro handle hhandle
      refine L.tick.bind fun _ => obeys_closing finalizer (L.catching ?_ fun v => ?_) ?_
      · exact (costs_exec h env body (hn.slot (by simp))).obeys.mono fun _ j =>
          Node.lets_of_slot (hstop j) (by simp)
      · exact (hhandle v).mono fun _ j => Node.lets_of_slot (hstop j) (by simp)
      · exact (costs_exec h env finalizer (hn.slot (by simp))).mono fun _ j =>
          Node.lets_of_slot (hstop j) (by simp)
    cases handler with
    | absent => exact hall _ fun v => .thrown _
    | catchClause param inside span =>
      have hinside : inside.KeepsJumpsIf strict := hhandler.slot (by simp)
      have hout : ∀ j : Jump, inside.lets j = true →
          (Node.catchClause param inside span).lets j = true := fun j =>
        Node.lets_of_slot (Node.stopsAt_eq_false rfl rfl rfl j) (by simp)
      cases inside with
      | block xs _ | program xs _ | caseClause _ xs _ =>
        have hxs : ∀ c ∈ xs, c.KeepsJumpsIf strict := fun c hc => hinside.slot (by simp [hc])
        refine hall _ fun v => (obeys_bindException env param v).bind fun inner =>
          (obeys_enterBlock _ _ hxs).bind fun _ => (obeys_execAll h inner xs hxs).mono ?_
        rintro _ j ⟨c, hc, hlets⟩
        exact hout j
          (Node.lets_of_slot (Node.stopsAt_eq_false rfl rfl rfl j) (by simp [hc]) hlets)
      | function _ _ _ xs _ _ =>
        have hxs : ∀ c ∈ xs, c.KeepsJumpsIf strict := fun c hc => hinside.slot (by simp [hc])
        refine hall _ fun v => (obeys_bindException env param v).bind fun inner =>
          (obeys_enterBlock _ _ hxs).bind fun _ => (obeys_execAll h inner xs hxs).mono fun hs => ?_
        -- in a sorted tree the body of a clause is no function
        cases ((Node.isSorted_iff rfl).mp (hhandler hs).sorted).1
      | _ =>
        exact hall _ fun v => (obeys_bindException env param v).bind fun _ => .fault _
    | _ => exact hall _ fun v => .fault _
  | switchStmt subject cases span =>
    have hcases : ∀ n ∈ cases, n.KeepsJumpsIf strict := fun n hn' => hn.slot (by simp [hn'])
    refine L.tick.bind fun _ => (obeys_eval h env subject (hn.slot (by simp))).bind fun v =>
      (obeys_child env).bind fun inner => (obeys_enterCases _ _ hcases).bind fun _ =>
        (obeys_findCase h inner v cases hcases 0).bind fun start => ?_
    split
    · exact .pure _
    · refine L.breakable (obeys_execCases h inner cases hcases _) ?_
      rintro _ j hj ⟨c, hc, hlets⟩
      have hstop : j.stopsAt (Node.switchStmt subject cases span) = false := by
        cases j with
        | breaking => exact absurd rfl hj
        | returning | continuing => rfl
      exact Node.lets_of_slot hstop (List.mem_cons_of_mem _ hc) hlets
  | withStmt object body span =>
    exact L.tick.bind fun _ => (obeys_eval h env object (hn.slot (by simp))).bind fun _ =>
      (obeys_childOf _ _).bind fun inner => (costs_exec h inner body (hn.slot (by simp))).obeys.mono
        fun _ j => Node.lets_of_slot (Node.stopsAt_eq_false rfl rfl rfl j) (by simp)
  | _ => exact L.tick.bind fun _ => .fault _

theorem obeys_execAll (h : L.IsObeyedBy apply) (env : Env) :
    ∀ ns : List Node, (∀ n ∈ ns, n.KeepsJumpsIf strict) →
      L.Obeys (fun j => ∃ n ∈ ns, n.lets j = true) (execAll apply env ns)
  | [], _ => .pure _
  | n :: ns, hns => by
    obtain ⟨hn, hrest⟩ := List.forall_mem_cons.mp hns
    refine .bind ((costs_exec h env n hn).obeys.mono fun _ j hj => ⟨n, List.mem_cons_self, hj⟩)
      fun _ => (obeys_execAll h env ns hrest).mono ?_
    rintro _ j ⟨c, hc, hlets⟩
    exact ⟨c, List.mem_cons_of_mem n hc, hlets⟩

theorem obeys_execCases (h : L.IsObeyedBy apply) (env : Env) :
    ∀ ns : List Node, (∀ n ∈ ns, n.KeepsJumpsIf strict) → ∀ skip : Nat,
      L.Obeys (fun j => ∃ n ∈ ns, n.lets j = true) (execCases apply env skip ns)
  | [], _, skip => by cases skip <;> exact .pure _
  | n :: ns, hns, skip + 1 => by
    refine (obeys_execCases h env ns (List.forall_mem_cons.mp hns).2 skip).mono ?_
    rintro _ j ⟨c, hc, hlets⟩
    exact ⟨c, List.mem_cons_of_mem n hc, hlets⟩
  | n :: ns, hns, 0 => by
    obtain ⟨hn, hrest⟩ := List.forall_mem_cons.mp hns
    cases n with
    | caseClause test body span =>
      have hbody : ∀ c ∈ body, c.KeepsJumpsIf strict := fun c hc => hn.slot (by simp [hc])
      refine .bind ((obeys_execAll h env body hbody).mono ?_) fun _ =>
        (obeys_execCases h env ns hrest 0).mono ?_
      · rintro _ j ⟨c, hc, hlets⟩
        exact ⟨_, List.mem_cons_self, Node.lets_of_slot (Node.stopsAt_eq_false rfl rfl rfl j)
          (List.mem_cons_of_mem _ hc) hlets⟩
      · rintro _ j ⟨c, hc, hlets⟩
        exact ⟨c, List.mem_cons_of_mem _ hc, hlets⟩
    | _ => exact .fault _

end

/-! ### Calls -/

section

variable (h : L.IsObeyedBy apply)

include h

theorem obeys_callEach (fn array : Value) (xs : List Value) (i : Nat) :
    L.Obeys E (callEach apply fn array i xs) := by
  induction xs generalizing i with
  | nil => exact .pure _
  | cons x rest ih => exact (obeys_call h fn _ _).bind fun _ => (ih _).bind fun _ => .pure _

theorem obeys_callArrayMethod (id : Nat) (args : List Value) (method : ArrayMethod) :
    L.Obeys E (callArrayMethod apply id args method) := by
  cases method with
  | push =>
    exact (obeys_modifyArray _ _).bind fun _ => .get_bind (fun _ _ => rfl) fun _ _ => .pure _
  | pop =>
    exact (obeys_noArgs _).bind fun _ => .get_bind (fun _ _ => rfl) fun _ _ =>
      (obeys_modifyArray _ _).bind fun _ => .pure _
  | join =>
    exact (obeys_oneArg _ _).bind fun _ => (obeys_toTextOr _ _).bind fun separator =>
      .bind (.calculates (Machine.calculates_join separator id)) fun _ => .pure _
  | indexOf => exact (obeys_oneArg _ _).bind fun _ => .get_bind (fun _ _ => rfl) fun _ _ => .pure _
  | forEach =>
    exact (obeys_oneArg _ _).bind fun fn => .get_bind (fun _ _ => rfl) fun _ _ =>
      (obeys_callEach h fn _ _ 0).bind fun _ => .pure _
  | map =>
    exact (obeys_oneArg _ _).bind fun fn => .get_bind (fun _ _ => rfl) fun _ _ =>
      (obeys_callEach h fn _ _ 0).bind fun _ => obeys_newArray _

theorem obeys_perform (request : Request) : L.Obeys E (perform apply request) := by
  cases request with
  | getProperty target key => exact obeys_getProperty target key
  | setProperty target key value => exact (obeys_setProperty _ _ _).bind fun _ => .pure _
  | text v => exact (obeys_toText v).bind fun _ => .pure _
  | newArray xs => exact obeys_newArray _
  | newRecord r => exact obeys_newRecord r
  | call fn this args => exact obeys_call h fn this args

/-- Whatever a host brings along, it obeys the law. -/
theorem obeys_runHost (code : HostCode) : L.Obeys E (runHost apply code) := by
  induction code with
  | answer v => exact .pure v
  | throws v => exact .thrown v
  | fails f => exact .fault f
  | ask request next ih =>
    exact .bind (L.catching ((obeys_perform h request).bind fun _ => .pure _) fun _ => .pure _) ih

theorem obeys_callNative (fn : Native) (args : List Value) :
    L.Obeys E (callNative apply fn args) := by
  cases fn with
  | log =>
    exact .bind (.calculates (.mapM Machine.calculates_textOf args)) fun _ =>
      .bind (.modify (fun _ => .log _) (fun _ => rfl) fun _ _ => rfl) fun _ => .pure _
  | setTimeout => exact obeys_callSetTimeout args
  | floor | abs | toNumber =>
    exact (obeys_oneArg _ _).bind fun _ => (obeys_toNumber _).bind fun _ => .pure _
  | max | min =>
    refine .bind (.calculates (.mapM Machine.calculates_numberOf args)) fun ns => ?_
    cases ns <;> exact .pure _
  | random =>
    exact (obeys_noArgs _).bind fun _ =>
      .bind (.modify (fun _ => .draw _) (fun _ => rfl) fun _ _ => rfl) fun _ =>
        .get_bind (fun _ _ => rfl) fun _ _ => .pure _
  | toText => exact (obeys_oneArg _ _).bind fun _ => (obeys_toText _).bind fun _ => .pure _
  | error name =>
    exact (obeys_oneArg _ _).bind fun _ => (obeys_toTextOr _ _).bind fun _ => obeys_newRecord _
  | arrayMethod method id => exact obeys_callArrayMethod h id args method
  | textMethod method s => exact obeys_callTextMethod s args method
  | hasOwnProperty id =>
    exact (obeys_oneArg _ _).bind fun _ => (obeys_toText _).bind fun _ =>
      .get_bind (fun _ _ => rfl) fun _ _ => .pure _
  | callMethod id => exact (h id _ _).mono fun _ _ => False.elim
  | constant v => exact .pure _
  | foreign code => exact obeys_runHost h (code args)

omit h

theorem obeys_bindParams (f : Frame) (params : List Ident) (args : List Value) :
    L.Obeys E (bindParams f params args) := by
  induction params generalizing args with
  | nil => exact .pure _
  | cons p rest ih => exact (obeys_declare _ _ _ _).bind fun _ => ih args.tail

theorem obeys_bindArguments (f : Frame) (isArrow : Bool) (args : List Value) :
    L.Obeys E (bindArguments f isArrow args) := by
  refine .get_bind (fun _ _ => rfl) fun m _ => ?_
  split
  · exact .pure _
  · exact (obeys_newArray _).bind fun _ => obeys_declare _ _ _ _

include h

/-- Nothing but a `return` gets out of the body of a function, and that ends its call. -/
theorem obeys_callClosure {code : Code} (hcode : code.KeepsJumpsIf strict) (env : Env)
    (this : Value) (args : List Value) : L.Obeys E (callClosure apply env code this args) := by
  have hbody : ∀ n ∈ code.body, n.KeepsJumpsIf strict := fun n hn hs => (hcode hs n hn).1
  refine (obeys_childWith _ _).bind fun inner => (obeys_bindParams _ _ _).bind fun _ =>
    (obeys_bindArguments _ _ _).bind fun _ => (obeys_enterFunction inner hbody).bind fun _ =>
      L.returnValue ((obeys_execAll h inner code.body hbody).mono ?_)
  rintro hs j ⟨n, hn, hlets⟩
  obtain ⟨_, hbreak, hcontinue⟩ := hcode hs n hn
  cases j with
  | returning => rfl
  | breaking => exact absurd hlets (by simp [hbreak])
  | continuing => exact absurd hlets (by simp [hcontinue])

end

theorem obeys_applyWithin (depth : Nat) : L.IsObeyedBy (applyWithin depth) := by
  induction depth with
  | zero => exact fun _ _ _ => .throw (fun h => by cases h) fun _ _ hj => by cases hj
  | succ depth ih =>
    refine fun id this args => .get_bind (fun _ _ => rfl) fun m hm => ?_
    split
    · rename_i env code hprocedure
      exact obeys_callClosure ih (hm hprocedure) env this args
    · exact obeys_callNative ih _ args

theorem obeys_applyFunction : L.IsObeyedBy applyFunction := fun id this args =>
  .get_bind (fun _ _ => rfl) fun m _ => obeys_applyWithin m.platform.depth id this args

/-! ### Whole runs -/

theorem obeys_runStatements (env : Env) (ns : List Node)
    (hns : ∀ n ∈ ns, n.KeepsJumpsIf strict) :
    L.Obeys (fun j => ∃ n ∈ ns, n.lets j = true) (runStatements env ns) := by
  have happly : L.IsObeyedBy applyFunction := obeys_applyFunction
  induction ns with
  | nil => exact .pure _
  | cons n rest ih =>
    obtain ⟨hn, hrest⟩ := List.forall_mem_cons.mp hns
    have ih : L.Obeys (fun j => ∃ c ∈ n :: rest, c.lets j = true) (runStatements env rest) := by
      refine (ih hrest).mono ?_
      rintro _ j ⟨c, hc, hlets⟩
      exact ⟨c, List.mem_cons_of_mem n hc, hlets⟩
    cases n with
    | exprStmt expr span =>
      exact L.tick.obeys.bind fun _ => (obeys_eval happly env expr (hn.slot (by simp))).bind
        fun _ => .bind (.modify (fun _ => .complete _) (fun _ => rfl) fun _ _ => rfl) fun _ => ih
    | _ =>
      exact ((costs_exec happly env _ hn).obeys.mono fun _ j hj =>
        ⟨_, List.mem_cons_self, hj⟩).bind fun _ => ih

theorem obeys_scriptBody (script : Node) : L.Obeys E (scriptBody script) := by
  cases script with
  | program | block | function | caseClause => exact .pure _
  | _ => exact .fault _

/-- The statements of a script stand in it. -/
theorem mem_slots_of_scriptBody {script : Node} {m m' : Machine} {body : List Node}
    (h : scriptBody script m = .ok body m') : ∀ n ∈ body, n ∈ script.slots := by
  cases script with
  | program | block | function | caseClause =>
    cases h
    exact fun n hn => by simp [hn]
  | _ => cases h

theorem obeys_runMain (env : Env) {script : Node} (hscript : script.KeepsJumpsIf strict)
    (hconfines : strict → ∀ j, script.confines j = true) : L.Obeys E (runMain env script) := by
  refine L.bind (obeys_scriptBody script) fun {m m' body} hbody => ?_
  have hslots := mem_slots_of_scriptBody hbody
  have hkeeps : ∀ n ∈ body, n.KeepsJumpsIf strict := fun n hn => hscript.slot (hslots n hn)
  refine (obeys_enterFunction env hkeeps).bind fun _ =>
    (obeys_runStatements env body hkeeps).mono ?_
  rintro hs j ⟨n, hn, hlets⟩
  rw [Node.lets_eq_false (hconfines hs j) (hslots n hn)] at hlets
  cases hlets

theorem obeys_describe (v : Value) : L.Obeys E (describe v) := by
  refine (obeys_toText v).bind fun t => ?_
  split
  · exact .get_bind (fun _ _ => rfl) fun _ _ => .pure _
  · exact .pure _

theorem obeys_newModule (members : List (String × Native)) (r : Record) :
    L.Obeys E (newModule members r) := by
  induction members generalizing r with
  | nil => exact obeys_newRecord r
  | cons member rest ih => exact (obeys_newNative _).bind fun _ => ih _

theorem obeys_standardHosts : L.Obeys E standardHosts := by
  refine (obeys_newModule _ _).bind fun console => (obeys_newNative _).bind fun setTimeout =>
    (obeys_newModule _ _).bind fun math => ?_
  exact (obeys_newNative _).bind fun _ => (obeys_newNative _).bind fun _ =>
    (obeys_newNative _).bind fun _ => (obeys_newNative _).bind fun _ =>
      (obeys_newNative _).bind fun _ => .pure _

theorem obeys_declareHosts (f : Frame) (hosts : List (String × Value)) :
    L.Obeys E (declareHosts f hosts) := by
  induction hosts with
  | nil => exact .pure _
  | cons host rest ih => exact (obeys_declare _ _ _ _).bind fun _ => ih

theorem obeys_hostEnv {hosts : Eval (List (String × Value))} (hhosts : L.Obeys E hosts) :
    L.Obeys E (hostEnv hosts) :=
  .bind ((obeys_newSlots _).bind fun _ => .pure _) fun _ => obeys_standardHosts.bind fun _ =>
    (obeys_declareHosts _ _).bind fun _ => hhosts.bind fun _ =>
      (obeys_declareHosts _ _).bind fun _ => obeys_child _

theorem obeys_outcome (error : Option String) : L.Obeys E (outcome error) :=
  .get_bind (fun _ _ => rfl) fun _ _ => (obeys_toText _).bind fun _ =>
    .get_bind (fun _ _ => rfl) fun _ _ => .pure _

section

variable {m : Machine}

theorem nextTask?_none (h : m.pending.next? Task.isBefore = none) :
    nextTask? m = .ok none m := by
  simp only [nextTask?, modifyGet, MonadStateOf.modifyGet, Eval.change, h]

theorem nextTask?_some {t : Task} {rest : Queue Task}
    (h : m.pending.next? Task.isBefore = some (t, rest)) :
    nextTask? m = .ok (some t) { m with pending := rest } := by
  simp only [nextTask?, modifyGet, MonadStateOf.modifyGet, Eval.change, h]

end

end Eval

end ScopeLowering

import ScopeLowering.Proofs.Discretion

/-!
# What code does

Every expression is safe, and so is every statement that declares nothing for the frame around it. A
declaration uses up the variables that await it. So a list of statements, run in a frame that has
variables for all their declarations, uses these up one after the other (`Eval.triple_execAll`), and
what has a frame of its own is safe (`Eval.safe_exec`).

## The model

How a function is called is a parameter of these laws, as it is of `eval` and `exec`. Calls are
asked to be safe if they are given plain values, and nothing is asked of them otherwise
(`Eval.IsSafeApply`). So no call is ever given the marker.
-/

namespace ScopeLowering

namespace Eval

variable {strict : Prop} {α : Type} {c f : Nat} {F : Frame} {names : List String}

/-! ### Properties and operators -/

section

variable {key : Key} {value : Value}

theorem safe_hasProperty (id : Nat) (key : Key) :
    (hasProperty id key).Safe strict fun _ => True := by
  unfold hasProperty
  split
  · exact .get_bind fun _ _ => .pure trivial
  · exact .fault _

theorem safe_indexed {item : Nat → Option Value} {method : String → Option Native}
    (hitem : ∀ i, ∀ v ∈ item i, v.IsPlain) (hmethod : ∀ s, ∀ fn ∈ method s, fn.IsPlain) :
    (indexed key item method).Safe strict Value.IsPlain := by
  refine .bind (.compute fun _ _ => trivial) fun i (_ : True) => ?_
  split
  · exact .pure (Value.isPlain_getD (hitem _))
  · split
    · split
      · rename_i hfn
        exact safe_newNative (hmethod _ _ hfn)
      · exact .pure trivial
    · exact .pure trivial

theorem safe_getProperty (target : Value) (key : Key) :
    (getProperty target key).Safe strict Value.IsPlain := by
  cases target with
  | undefined | null => exact (safe_toText _).bind fun _ _ => safe_raise _ _
  | array id =>
    refine .get_bind fun m hm => ?_
    dsimp only
    split
    · exact .pure trivial
    · refine safe_indexed (fun i v hv => ?_) fun s fn hfn => ?_
      · exact hm.plain.arrays id v (Array.mem_toList_iff.mpr (Array.mem_of_getElem? hv))
      · obtain ⟨_, _, rfl⟩ := Option.map_eq_some_iff.mp hfn
        trivial
  | text s =>
    unfold getProperty
    dsimp only
    split
    · exact .pure trivial
    · refine safe_indexed (fun i v hv => ?_) fun s fn hfn => ?_
      · obtain ⟨_, _, rfl⟩ := Option.map_eq_some_iff.mp hv
        trivial
      · obtain ⟨_, _, rfl⟩ := Option.map_eq_some_iff.mp hfn
        trivial
  | record id =>
    refine (safe_hasProperty id key).bind fun has _ => ?_
    split
    · exact .get_bind fun m hm => .pure (Value.isPlain_getD (hm.plain.records id).find?)
    · split
      · exact safe_newNative trivial
      · exact .pure trivial
  | function id =>
    unfold getProperty
    dsimp only
    split
    · exact safe_newNative trivial
    · exact .pure trivial
  | _ => exact .pure trivial

theorem safe_growArray (id : Nat) (size : Int) : (growArray id size).Safe strict fun _ => True := by
  refine .get_bind fun m _ => ?_
  dsimp only
  split
  · exact .fault _
  · split
    · exact .fault _
    · refine safe_modifyArray fun xs hxs v hv => ?_
      simp only [fillUp, Array.toList_append, Array.toList_replicate, List.mem_append,
        List.mem_replicate] at hv
      rcases hv with hv | ⟨_, rfl⟩
      · exact hxs v hv
      · trivial

theorem safe_wholePart (n : Number) : (wholePart n).Safe strict fun _ => True := by
  unfold wholePart
  split
  · exact .pure trivial
  · split
    · exact .pure trivial
    · exact .fault _

theorem safe_setLength (id : Nat) (value : Value) :
    (setLength id value).Safe strict fun _ => True := by
  refine (safe_toNumber value).bind fun n _ => (safe_wholePart n).bind fun size _ =>
    .bind (safe_modifyArray fun xs hxs v hv => ?_) fun _ _ => safe_growArray id size
  rw [Array.toList_extract] at hv
  exact hxs v (List.mem_of_mem_drop (List.mem_of_mem_take hv))

theorem safe_setProperty (target : Value) (hkey : key.IsPlain) (hvalue : value.IsPlain) :
    (setProperty target key value).Safe strict fun _ => True := by
  cases target with
  | undefined | null => exact (safe_toText _).bind fun _ _ => safe_raise _ _
  | array id =>
    refine .bind (.compute fun _ _ => trivial) fun i (_ : True) => ?_
    split
    · refine (safe_growArray _ _).bind fun _ _ => safe_modifyArray fun xs hxs v hv => ?_
      rw [Array.toList_setIfInBounds] at hv
      rcases List.mem_or_eq_of_mem_set hv with hv | rfl
      · exact hxs v hv
      · exact hvalue
    · split
      · exact safe_setLength _ _
      · exact .pure trivial
  | record id =>
    unfold setProperty
    dsimp only
    split
    · exact safe_modifyRecord fun r hr => hr.set hkey hvalue
    · exact .fault _
  | _ => exact .pure trivial

theorem safe_deleteProperty (id : Nat) (key : Key) :
    (deleteProperty id key).Safe strict fun _ => True := by
  unfold deleteProperty
  split
  · exact safe_modifyRecord fun r hr => hr.erase
  · exact .fault _

theorem safe_isIn (key target : Value) : (isIn key target).Safe strict fun _ => True := by
  cases target with
  | array id =>
    unfold isIn
    dsimp only
    split
    · exact .pure trivial
    · refine (safe_toText key).bind fun t _ => ?_
      split
      · split
        · exact .get_bind fun _ _ => .pure trivial
        · exact .fault _
      · exact .pure trivial
  | record id => exact (safe_toText key).bind fun _ _ => .get_bind fun _ _ => .pure trivial
  | _ => exact (safe_toText key).bind fun _ _ => (safe_toText _).bind fun _ _ => safe_raise _ _

theorem safe_binary (op : BinaryOp) (a b : Value) :
    (binary op a b).Safe strict Value.IsPlain := by
  unfold binary
  split
  · exact (safe_isIn a b).bind fun _ _ => .pure trivial
  · exact .calculates (Machine.calculates_binary op a b) fun m _ => m.givesPlain_binary op a b

theorem safe_unary (op : UnaryOp) (v : Value) : (unary op v).Safe strict Value.IsPlain :=
  .calculates (Machine.calculates_unary op v) fun m _ => m.givesPlain_unary op v

end

/-! ### Control -/

section

variable {P : Machine → Prop} {body action cleanup : Eval Unit}

theorem safe_resume {Q : α → Prop} {r : Except Signal α} (h : OrPlain Q r) :
    (resume r).Safe strict Q := by
  cases r with
  | ok a => exact .pure h
  | error s => exact .throw h

theorem safe_thenAlways (haction : action.Safe strict fun _ => True)
    (hcleanup : cleanup.Safe strict fun _ => True) :
    (thenAlways action cleanup).Safe strict fun _ => True :=
  haction.attempt.bind fun _ hr => hcleanup.bind fun _ _ => safe_resume hr

theorem safe_closing (part : Node) (haction : action.Safe strict fun _ => True)
    (hcleanup : cleanup.Safe strict fun _ => True) :
    (closing part action cleanup).Safe strict fun _ => True := by
  unfold closing
  split
  · exact haction
  · exact safe_thenAlways haction hcleanup

theorem safe_catching {α : Type} {Q : α → Prop} {action : Eval α} {handle : Value → Eval α}
    (haction : action.Safe strict Q)
    (hhandle : ∀ v : Value, v.IsPlain → (handle v).Safe strict Q) :
    (catching action handle).Safe strict Q := by
  refine haction.attempt.bind fun r hr => ?_
  split
  · exact hhandle _ hr
  · exact safe_resume hr

theorem triple_breakable (haction : Triple strict c f P action fun _ _ => True) :
    Triple strict c f P (breakable action) fun _ _ => True := by
  refine haction.attempt.bind fun r m hm hr => ?_
  split
  · exact .pure hm.fit trivial
  · exact (safe_resume (Q := fun _ => True) hr).triple m hm trivial

theorem triple_returnValue (hbody : Triple strict c f P body fun _ _ => True) :
    Triple strict c f P (returnValue body) fun v _ => v.IsPlain := by
  refine hbody.attempt.bind fun r m hm hr => ?_
  split
  · exact .pure hm.fit trivial
  · exact .pure hm.fit hr
  · exact Triple.throw (P := fun _ => True) hr m hm trivial

theorem safe_runBody (hbody : body.Safe strict fun _ => True) :
    (runBody body).Safe strict fun _ => True := by
  refine hbody.attempt.bind fun r hr => ?_
  split
  · exact .pure trivial
  · exact .pure trivial
  · exact .pure trivial
  · exact .throw hr

/-- A loop is safe if each pass is, and gives something that the next one can start from. -/
theorem safe_iterate {Q : α → Prop} {pass : α → Eval (Option α)}
    (hpass : ∀ a, Q a → (pass a).Safe strict fun next => ∀ b ∈ next, Q b) (n : Nat) {a : α}
    (ha : Q a) : (iterate pass n a).Safe strict fun _ => True := by
  induction n generalizing a with
  | zero => exact .throw trivial
  | succ n ih =>
    refine (hpass a ha).bind fun next hnext => ?_
    cases next with
    | some b => exact ih (hnext b rfl)
    | none => exact .pure trivial

theorem safe_loop {Q : α → Prop} {pass : α → Eval (Option α)}
    (hpass : ∀ a, Q a → (pass a).Safe strict fun next => ∀ b ∈ next, Q b) {a : α} (ha : Q a) :
    (loop pass a).Safe strict fun _ => True :=
  .bind (.get_bind fun _ _ => .pure trivial) fun n (_ : True) => safe_iterate hpass n ha

theorem safe_whileLoop {test : Eval Value} (htest : test.Safe strict Value.IsPlain)
    (hbody : body.Safe strict fun _ => True) :
    (whileLoop test body).Safe strict fun _ => True := by
  refine safe_loop (Q := fun _ => True) (fun _ _ => htest.bind fun v _ => ?_) trivial
  split
  · exact (safe_runBody hbody).bind fun _ _ => .pure fun _ _ => trivial
  · exact .pure fun _ _ => trivial

theorem safe_doWhileLoop {test : Eval Value} (htest : test.Safe strict Value.IsPlain)
    (hbody : body.Safe strict fun _ => True) :
    (doWhileLoop body test).Safe strict fun _ => True := by
  refine safe_loop (Q := fun _ => True) (fun _ _ => (safe_runBody hbody).bind fun goOn _ => ?_)
    trivial
  split
  · exact htest.bind fun _ _ => .pure fun _ _ => trivial
  · exact .pure fun _ _ => trivial

theorem safe_nextEnv (fresh : Bool) {env : Env} (henv : env.IsFit strict) :
    (nextEnv fresh env).Safe strict (Env.IsFit strict) := by
  unfold nextEnv
  split
  · exact safe_copyFrame henv
  · exact .pure henv

theorem safe_forLoop {test : Env → Eval Bool} {body update : Env → Eval Unit}
    (htest : ∀ env, env.IsFit strict → (test env).Safe strict fun _ => True)
    (hbody : ∀ env, env.IsFit strict → (body env).Safe strict fun _ => True)
    (hupdate : ∀ env, env.IsFit strict → (update env).Safe strict fun _ => True) (fresh : Bool)
    {head : Env} (hhead : head.IsFit strict) :
    (forLoop fresh test body update head).Safe strict fun _ => True := by
  refine (safe_nextEnv fresh hhead).bind fun env henv =>
    safe_loop (Q := Env.IsFit strict) (fun env henv => ?_) henv
  refine (htest env henv).bind fun goOn _ => ?_
  split
  · refine (safe_runBody (hbody env henv)).bind fun goOn _ => ?_
    split
    · exact (safe_nextEnv fresh henv).bind fun next hnext => (hupdate next hnext).bind fun _ _ =>
        .pure (by simpa using hnext)
    · exact .pure (by simp)
  · exact .pure (by simp)

section

variable {pass : Value → Eval Bool}
  (hpass : ∀ v : Value, v.IsPlain → (pass v).Safe strict fun _ => True)

include hpass

theorem safe_passOver (vs : List Value) (hvs : ArePlain vs) :
    (passOver pass vs).Safe strict fun _ => True := by
  induction vs with
  | nil => exact .pure trivial
  | cons v rest ih =>
    obtain ⟨hv, hrest⟩ := List.forall_mem_cons.mp hvs
    refine (hpass v hv).bind fun goOn _ => ?_
    split
    · exact ih hrest
    · exact .pure trivial

theorem safe_passOverArray (id : Nat) : (passOverArray pass id).Safe strict fun _ => True := by
  refine safe_loop (Q := fun _ => True) (fun i _ => .get_bind fun m hm => ?_) trivial
  split
  · rename_i hv
    have hplain := hm.plain.arrays id _ (Array.mem_toList_iff.mpr (Array.mem_of_getElem? hv))
    exact (hpass _ hplain).bind fun _ _ => .pure fun _ _ => trivial
  · exact .pure fun _ _ => trivial

theorem safe_passOverItems (subject : Value) :
    (passOverItems pass subject).Safe strict fun _ => True := by
  cases subject with
  | array id => exact safe_passOverArray hpass id
  | text s => exact safe_passOver hpass _ (arePlain_characters s)
  | _ => exact (safe_toText _).bind fun _ _ => safe_raise _ _

end

theorem safe_eachLoop {setUp : Value → Eval Env} {body : Env → Eval Unit}
    (hbody : ∀ env, env.IsFit strict → (body env).Safe strict fun _ => True) (isOf : Bool)
    (subject : Value)
    (hsetUp : ∀ v : Value, v.IsPlain → (setUp v).Safe strict (Env.IsFit strict)) :
    (eachLoop isOf setUp body subject).Safe strict fun _ => True := by
  have hpass : ∀ v : Value, v.IsPlain →
      (setUp v >>= fun env => runBody (body env)).Safe strict fun _ => True :=
    fun v hv => (hsetUp v hv).bind fun env henv => safe_runBody (hbody env henv)
  unfold eachLoop
  dsimp only
  split
  · exact safe_passOverItems hpass subject
  · exact .get_bind fun m hm => safe_passOver hpass _ (hm.plain.keys subject)

end

/-! ### Pieces of expressions -/

section

variable {env : Env} {value : Eval Value} {v : Value}

theorem safe_optional (hvalue : value.Safe strict Value.IsPlain) (part : Node) :
    (optional part value).Safe strict Value.IsPlain := by
  unfold optional
  split
  · exact .pure trivial
  · exact hvalue

theorem safe_goesOn (hvalue : value.Safe strict Value.IsPlain) (test : Node) :
    (goesOn test value).Safe strict fun _ => True := by
  unfold goesOn
  split
  · exact .pure trivial
  · exact hvalue.bind fun _ _ => .pure trivial

theorem safe_memberKey {key : Node} (hkey : key.IsFit strict)
    (hvalue : value.Safe strict Value.IsPlain) (computed : Bool) :
    (memberKey computed key value).Safe strict Key.IsPlain := by
  unfold memberKey
  split
  · exact hvalue.bind fun _ _ => (safe_toText _).bind fun _ _ => .pure trivial
  · split
    · exact .pure (Key.isPlain_ofConstant hkey.plain.literal)
    · exact .fault _

theorem safe_combine (hvalue : value.Safe strict Value.IsPlain) (op : Json) (hv : v.IsPlain) :
    (combine op v value).Safe strict Value.IsPlain := by
  unfold combine
  split
  · split
    · exact hvalue
    · exact .pure hv
  · split
    · exact .pure hv
    · exact hvalue
  · split
    · exact hvalue
    · exact .pure hv
  · dsimp only
    split
    · exact hvalue.bind fun _ _ => safe_binary _ _ _
    · exact .fault _
  · exact .fault _

theorem safe_assigned {old : Eval Value} (hold : old.Safe strict Value.IsPlain)
    (hvalue : value.Safe strict Value.IsPlain) (op : Json) :
    (assigned op old value).Safe strict Value.IsPlain := by
  unfold assigned
  split
  · exact hvalue
  · exact hold.bind fun _ hv => safe_combine hvalue op hv

theorem safe_stepped (op : Json) (v : Value) :
    (stepped op v).Safe strict fun p => p.1.IsPlain ∧ p.2.IsPlain :=
  (safe_toNumber v).bind fun _ _ => .bind (.compute fun _ _ => trivial) fun _ (_ : True) =>
    .pure ⟨trivial, trivial⟩

theorem safe_remove {key : Eval Key} (hkey : key.Safe strict Key.IsPlain) (target : Value) :
    (remove target key).Safe strict Value.IsPlain := by
  cases target with
  | record id =>
    exact hkey.bind fun _ _ => (safe_deleteProperty _ _).bind fun _ _ => .pure trivial
  | _ => exact .pure trivial

theorem safe_isUnboundType (env : Env) (op : Json) (operand : Node) :
    (isUnboundType env op operand).Safe strict fun _ => True := by
  unfold isUnboundType
  split
  · split
    · exact .get_bind fun _ _ => .pure trivial
    · exact .pure trivial
  · exact .pure trivial

theorem safe_newClosure (henv : env.IsFit strict) {code : Code} (hcode : code.IsFit strict) :
    (newClosure env code).Safe strict Value.IsPlain := by
  unfold newClosure
  split
  · exact safe_newClosureIn henv hcode
  · refine .of_triple fun c f => (triple_child henv).bind fun inner => .assuming fun hinner => ?_
    refine (safe_newClosureIn hinner hcode).before steady_opening fun fn hfn => ?_
    exact (triple_declareLive _ _ _).bind fun _ => .pure fun _ _ => hfn

/-- The declaration of a variable uses it up. -/
theorem triple_setInitial (keyword : Keyword) {name : String} (hv : v.IsPlain)
    (hname : strict → name ∉ names) :
    Triple strict c f (Awaiting strict c env.frame (name :: names))
      (setInitial env keyword name v) fun _ => Awaiting strict c env.frame names := by
  intro m hm hawaits
  refine .get_bind ?_
  split
  · rename_i id hown
    refine .modifyGet ⟨⟨?_, fun hs => ?_⟩, fun hs => ?_⟩ fun hs => ?_
    · exact hm.fit.plain.congr ⟨rfl, rfl, rfl, rfl⟩ rfl rfl
    · exact (hm.fit.orderly hs).assign _ _
    · obtain ⟨j, hj, hid, hopen⟩ := hawaits hs name List.mem_cons_self
      rw [hown] at hj
      cases hj
      refine .assign hv (fun hconst hplain => ?_) (fun hlt => absurd hlt (Nat.not_lt.mpr hid))
        (hm.cells hs)
      rcases hopen with hdead | hvar
      · exact Value.isPlain_iff.mp hplain hdead
      · exact absurd hconst (Bool.eq_false_iff.mp hvar)
    · have hrest : m.Awaits c env.frame names := fun x hx =>
        hawaits hs x (List.mem_cons_of_mem _ hx)
      exact hrest.assign (hm.fit.orderly hs) hown (hname hs) v
  · rename_i hown
    have hloose : ¬ strict := by
      intro hs
      obtain ⟨j, hj, _⟩ := hawaits hs name List.mem_cons_self
      rw [hown] at hj
      cases hj
    refine .modifyGet ⟨⟨?_, fun hs => absurd hs hloose⟩, fun hs => absurd hs hloose⟩
      fun hs => absurd hs hloose
    exact hm.fit.plain.congr ⟨rfl, rfl, rfl, rfl⟩ rfl rfl

/-- The names that a declarator declares for its frame. -/
def lexicalName (keyword : Keyword) (name : String) : List String :=
  if keyword = .varWord then [] else [name]

theorem triple_runDeclarator (henv : env.IsFit strict) (init : Node)
    (hvalue : value.Safe strict Value.IsPlain) (keyword : Keyword) (name : String)
    (hnames : strict → (lexicalName keyword name ++ names).Nodup) :
    Triple strict c f (Awaiting strict c env.frame (lexicalName keyword name ++ names))
      (runDeclarator env keyword name init value) fun _ => Awaiting strict c env.frame names := by
  cases keyword with
  | varWord =>
    refine Safe.during (Q := fun _ => True) ?_ steady_awaiting
    show (if init.isAbsent then _ else _ : Eval Unit).Safe _ _
    split
    · exact .pure trivial
    · exact hvalue.bind fun _ hv => safe_write henv name hv
  | letWord | constWord =>
    exact (safe_optional hvalue init).before steady_awaiting fun _ hv =>
      triple_setInitial _ hv fun hs => (List.nodup_cons.mp (hnames hs)).1

theorem safe_bindItem (henv : env.IsFit strict) (keyword : Keyword) (name : String)
    (hv : v.IsPlain) : (bindItem env keyword name v).Safe strict (Env.IsFit strict) := by
  unfold bindItem
  split
  · exact (safe_write henv name hv).bind fun _ _ => .pure henv
  · refine .of_triple fun c f => (triple_child henv).bind fun inner => .assuming fun hinner => ?_
    exact (triple_declareLive _ _ _).bind fun _ => .pure fun _ _ => hinner

theorem triple_bindException (henv : env.IsFit strict) (param : Option Ident) (v : Value) :
    Triple strict c f (fun _ => True) (bindException env param v) fun inner m =>
      inner.IsFit strict ∧ Opening strict c f inner.frame [] m := by
  refine (triple_child henv).bind fun inner => .assuming fun hinner => ?_
  cases param with
  | some name =>
    exact (triple_declare (.inr rfl) _).bind fun _ => .pure fun _ h =>
      ⟨hinner, h.of_subset (by simp)⟩
  | none => exact .pure fun _ h => ⟨hinner, h⟩

end

/-! ### Expressions and statements -/

/-- Are calls with plain values safe? Nothing is asked of calls with the marker. -/
def IsSafeApply (strict : Prop) (apply : Apply) : Prop :=
  ∀ (id : Nat) (this : Value) (args : List Value), this.IsPlain → ArePlain args →
    (apply id this args).Safe strict Value.IsPlain

section

variable {apply : Apply} {env : Env}

theorem safe_call (h : IsSafeApply strict apply) (fn : Value) {this : Value} {args : List Value}
    (hthis : this.IsPlain) (hargs : ArePlain args) :
    (call apply fn this args).Safe strict Value.IsPlain := by
  cases fn with
  | function id => exact h id this args hthis hargs
  | _ => exact (safe_toText _).bind fun _ _ => safe_raise _ _

theorem safe_construct (h : IsSafeApply strict apply) (fn : Value) {args : List Value}
    (hargs : ArePlain args) : (construct apply fn args).Safe strict Value.IsPlain := by
  cases fn with
  | function id =>
    refine (safe_newRecord Record.isPlain_empty).bind fun object hobject =>
      (h id object args hobject hargs).bind fun result hresult => .pure ?_
    split
    · exact hresult
    · exact hobject
  | _ => exact (safe_toText _).bind fun _ _ => safe_raise _ _

mutual

theorem safe_eval (h : IsSafeApply strict apply) (henv : env.IsFit strict) (n : Node)
    (hn : n.IsFit strict) : (eval apply env n).Safe strict Value.IsPlain := by
  cases n with
  | literal c span => exact .pure (Value.isPlain_ofConstant hn.plain.literal)
  | lookup name => exact safe_read _ _
  | thisExpr span => exact .pure henv.plain.this
  | arrayLit elements span =>
    exact (safe_evalElements h henv elements fun c hc => hn.slot hc).bind fun _ hvs =>
      safe_newArray hvs
  | objectLit properties span =>
    exact (safe_evalProperties h henv Record.isPlain_empty properties fun c hc => hn.slot hc).bind
      fun _ hr => safe_newRecord hr
  | member target key computed span =>
    have hkey : key.IsFit strict := hn.slot (by simp)
    exact (safe_eval h henv target (hn.slot (by simp))).bind fun _ _ =>
      (safe_memberKey hkey (safe_eval h henv key hkey) _).bind fun _ _ => safe_getProperty _ _
  | assign op target value span =>
    have hvalue := safe_eval h henv value (hn.slot (by simp))
    cases target with
    | lookup name =>
      exact (safe_assigned (safe_read _ _) hvalue op).bind fun _ hv =>
        (safe_write henv _ hv).bind fun _ _ => .pure hv
    | member target key computed span =>
      have htarget : (Node.member target key computed span).IsFit strict := hn.slot (by simp)
      have hkey : key.IsFit strict := htarget.slot (by simp)
      exact (safe_eval h henv target (htarget.slot (by simp))).bind fun _ _ =>
        (safe_memberKey hkey (safe_eval h henv key hkey) _).bind fun _ hk =>
          (safe_assigned (safe_getProperty _ _) hvalue op).bind fun _ hv =>
            (safe_setProperty _ hk hv).bind fun _ _ => .pure hv
    | _ => exact .fault _
  | update op target before span =>
    cases target with
    | lookup name =>
      refine (safe_read _ _).bind fun _ _ => (safe_stepped _ _).bind fun p hp =>
        (safe_write henv _ hp.2).bind fun _ _ => .pure ?_
      cases before
      · exact hp.1
      · exact hp.2
    | member target key computed span =>
      have htarget : (Node.member target key computed span).IsFit strict := hn.slot (by simp)
      have hkey : key.IsFit strict := htarget.slot (by simp)
      refine (safe_eval h henv target (htarget.slot (by simp))).bind fun _ _ =>
        (safe_memberKey hkey (safe_eval h henv key hkey) _).bind fun _ hk =>
          (safe_getProperty _ _).bind fun _ _ => (safe_stepped _ _).bind fun p hp =>
            (safe_setProperty _ hk hp.2).bind fun _ _ => .pure ?_
      cases before
      · exact hp.1
      · exact hp.2
    | _ => exact .fault _
  | unary op operand span =>
    have hoperand : operand.IsFit strict := hn.slot (by simp)
    show (if op.isText "delete" then _ else _ : Eval Value).Safe _ _
    split
    · exact safe_evalDelete h henv operand hoperand
    · refine (safe_isUnboundType env op operand).bind fun unbound _ => ?_
      split
      · exact .pure trivial
      · split
        · exact (safe_eval h henv operand hoperand).bind fun _ _ => safe_unary _ _
        · exact .fault _
  | binary op lhs rhs span =>
    refine (safe_eval h henv lhs (hn.slot (by simp))).bind fun a _ =>
      (safe_eval h henv rhs (hn.slot (by simp))).bind fun b _ => ?_
    split
    · exact safe_binary _ _ _
    · exact .fault _
  | logical op lhs rhs span =>
    refine (safe_eval h henv lhs (hn.slot (by simp))).bind fun a ha => ?_
    split
    · exact safe_eval h henv rhs (hn.slot (by simp))
    · exact .pure ha
  | conditional test yes no span =>
    refine (safe_eval h henv test (hn.slot (by simp))).bind fun a _ => ?_
    split
    · exact safe_eval h henv yes (hn.slot (by simp))
    · exact safe_eval h henv no (hn.slot (by simp))
  | call fn args span =>
    have hargs := safe_evalArgs h henv args fun c hc => hn.slot (by simp [hc])
    cases fn with
    | member target key computed span =>
      have hfn : (Node.member target key computed span).IsFit strict := hn.slot (by simp)
      have hkey : key.IsFit strict := hfn.slot (by simp)
      exact (safe_eval h henv target (hfn.slot (by simp))).bind fun _ hthis =>
        (safe_memberKey hkey (safe_eval h henv key hkey) _).bind fun _ _ =>
          (safe_getProperty _ _).bind fun fn _ => hargs.bind fun _ hvs =>
            safe_call h fn hthis hvs
    | _ =>
      exact (safe_eval h henv _ (hn.slot (by simp))).bind fun fn _ => hargs.bind fun _ hvs =>
        safe_call h fn Value.isPlain_undefined hvs
  | newCall fn args span =>
    exact (safe_eval h henv fn (hn.slot (by simp))).bind fun fn _ =>
      (safe_evalArgs h henv args fun c hc => hn.slot (by simp [hc])).bind fun _ hvs =>
        safe_construct h fn hvs
  | sequence exprs span =>
    exact safe_evalSequence h henv Value.isPlain_undefined exprs fun c hc => hn.slot hc
  | function form name params body isArrow span =>
    cases form with
    | expression => exact safe_newClosure henv hn.code
    | declaration => exact .fault _
  | _ => exact .fault _

theorem safe_evalDelete (h : IsSafeApply strict apply) (henv : env.IsFit strict) (n : Node)
    (hn : n.IsFit strict) : (evalDelete apply env n).Safe strict Value.IsPlain := by
  cases n with
  | member target key computed span =>
    have hkey : key.IsFit strict := hn.slot (by simp)
    exact (safe_eval h henv target (hn.slot (by simp))).bind fun _ _ =>
      safe_remove (safe_memberKey hkey (safe_eval h henv key hkey) _) _
  | _ => exact .pure trivial

theorem safe_evalElements (h : IsSafeApply strict apply) (henv : env.IsFit strict) :
    ∀ ns : List Node, (∀ n ∈ ns, n.IsFit strict) →
      (evalElements apply env ns).Safe strict ArePlain
  | [], _ => .pure .nil
  | n :: rest, hns => by
    obtain ⟨hn, hrest⟩ := List.forall_mem_cons.mp hns
    exact (safe_optional (safe_eval h henv n hn) n).bind fun _ hv =>
      (safe_evalElements h henv rest hrest).bind fun _ hvs => .pure (.cons hv hvs)

theorem safe_evalArgs (h : IsSafeApply strict apply) (henv : env.IsFit strict) :
    ∀ ns : List Node, (∀ n ∈ ns, n.IsFit strict) → (evalArgs apply env ns).Safe strict ArePlain
  | [], _ => .pure .nil
  | n :: rest, hns => by
    obtain ⟨hn, hrest⟩ := List.forall_mem_cons.mp hns
    exact (safe_eval h henv n hn).bind fun _ hv =>
      (safe_evalArgs h henv rest hrest).bind fun _ hvs => .pure (.cons hv hvs)

theorem safe_evalProperties (h : IsSafeApply strict apply) (henv : env.IsFit strict) {r : Record}
    (hr : r.IsPlain) : ∀ ns : List Node, (∀ n ∈ ns, n.IsFit strict) →
      (evalProperties apply env r ns).Safe strict Record.IsPlain
  | [], _ => .pure hr
  | n :: rest, hns => by
    obtain ⟨hn, hrest⟩ := List.forall_mem_cons.mp hns
    cases n with
    | property key value span =>
      refine (safe_eval h henv value (hn.slot (by simp))).bind fun v hv => ?_
      dsimp only
      split
      · have hkey : (Key.ofConstant (.json key)).IsPlain := Key.isPlain_ofConstant trivial
        exact safe_evalProperties h henv (hr.set hkey hv) rest hrest
      · exact .fault _
    | _ => exact .fault _

theorem safe_evalSequence (h : IsSafeApply strict apply) (henv : env.IsFit strict) {last : Value}
    (hlast : last.IsPlain) : ∀ ns : List Node, (∀ n ∈ ns, n.IsFit strict) →
      (evalSequence apply env last ns).Safe strict Value.IsPlain
  | [], _ => .pure hlast
  | n :: rest, hns => by
    obtain ⟨hn, hrest⟩ := List.forall_mem_cons.mp hns
    exact (safe_eval h henv n hn).bind fun _ hv => safe_evalSequence h henv hv rest hrest

end

/-- A block is run in a frame of its own, in which each declaration finds its variable. -/
theorem triple_block (henv : env.IsFit strict) {inner : Env} (hinner : inner.IsFit strict)
    {xs : List Node} (hxs : ∀ n ∈ xs, n.IsFit strict) {run : Eval Unit}
    (hrun : Triple strict c f (Awaiting strict c inner.frame (Node.lexicalNames xs ++ [])) run
      fun _ => Awaiting strict c inner.frame []) :
    Triple strict c f (Opening strict c f inner.frame [])
      (enterBlock inner (some env) xs >>= fun _ => run) fun _ _ => True :=
  (triple_enterBlock hinner (by simpa using henv) xs hxs []).bind fun _ =>
    (hrun.of_imp fun _ h => h.awaiting).imp fun _ _ _ => trivial

theorem safe_findCase (h : IsSafeApply strict apply) (henv : env.IsFit strict) (subject : Value) :
    ∀ (ns : List Node) (place : Nat), (∀ n ∈ ns, n.IsFit strict) →
      (findCase apply env subject place ns).Safe strict fun _ => True
  | [], _, _ => .pure trivial
  | n :: rest, place, hns => by
    obtain ⟨hn, hrest⟩ := List.forall_mem_cons.mp hns
    cases n with
    | caseClause test body span =>
      show (if test.isAbsent then _ else _ : Eval (Option Nat)).Safe _ _
      split
      · exact safe_findCase h henv subject rest _ hrest
      · refine (safe_eval h henv test (hn.slot (by simp))).bind fun v _ => ?_
        split
        · exact .pure trivial
        · exact safe_findCase h henv subject rest _ hrest
    | _ => exact .fault _

theorem triple_execDeclarators (h : IsSafeApply strict apply) (henv : env.IsFit strict)
    (keyword : Keyword) {rest : List String} : ∀ ds : List Node, (∀ n ∈ ds, n.IsFit strict) →
      (strict → ((if keyword = .varWord then [] else boundNames ds) ++ rest).Nodup) →
      Triple strict c f
        (Awaiting strict c env.frame ((if keyword = .varWord then [] else boundNames ds) ++ rest))
        (execDeclarators apply env keyword ds) fun _ => Awaiting strict c env.frame rest
  | [], _, _ => by
    refine .pure fun m hm => ?_
    cases keyword <;> exact hm
  | d :: ds, hds, hnodup => by
    obtain ⟨hd, hrest⟩ := List.forall_mem_cons.mp hds
    cases d with
    | declarator name init span =>
      have hnames : (if keyword = .varWord then [] else
          boundNames (.declarator name init span :: ds)) ++ rest =
          lexicalName keyword name.text ++
            ((if keyword = .varWord then [] else boundNames ds) ++ rest) := by
        cases keyword <;> rfl
      rw [hnames] at hnodup ⊢
      exact (triple_runDeclarator henv init (safe_eval h henv init (hd.slot (by simp))) keyword
        name.text hnodup).bind fun _ => triple_execDeclarators h henv keyword ds hrest
          fun hs => (List.nodup_append.mp (hnodup hs)).2.1
    | _ => exact .fault _

/-- A declaration among other statements. -/
theorem triple_varDecl (h : IsSafeApply strict apply) (henv : env.IsFit strict) {keyword : Keyword}
    {ds : List Node} {span : Span} (hn : (Node.varDecl keyword ds span).IsFit strict)
    {rest : List String}
    (hrest : strict → ((Node.varDecl keyword ds span).lexicalHere ++ rest).Nodup) :
    Triple strict c f
      (Awaiting strict c env.frame ((Node.varDecl keyword ds span).lexicalHere ++ rest))
      (exec apply env (.varDecl keyword ds span)) fun _ => Awaiting strict c env.frame rest :=
  safe_tick.before steady_awaiting fun _ _ =>
    triple_execDeclarators h henv keyword ds (fun _ hd => hn.slot hd) hrest

/-- A statement among others, which is safe unless it is a declaration. -/
theorem triple_exec (h : IsSafeApply strict apply) (henv : env.IsFit strict) {n : Node}
    (hn : n.IsFit strict)
    (hsafe : n.lexicalHere = [] → (exec apply env n).Safe strict fun _ => True)
    {rest : List String} (hrest : strict → (n.lexicalHere ++ rest).Nodup) :
    Triple strict c f (Awaiting strict c env.frame (n.lexicalHere ++ rest)) (exec apply env n)
      fun _ => Awaiting strict c env.frame rest := by
  cases n with
  | varDecl keyword ds span => exact triple_varDecl h henv hn hrest
  | _ => exact (hsafe rfl).during steady_awaiting

mutual

/-- A statement that declares nothing for the frame around it is safe. -/
theorem safe_exec (h : IsSafeApply strict apply) {env : Env} (henv : env.IsFit strict) (n : Node)
    (hn : n.IsFit strict) (hlexical : strict → n.lexicalHere = []) :
    (exec apply env n).Safe strict fun _ => True := by
  cases n with
  | emptyStmt span => exact safe_tick.bind fun _ _ => .pure trivial
  | function form name params body isArrow span =>
    cases form with
    | declaration => exact safe_tick.bind fun _ _ => .pure trivial
    | expression => exact safe_tick.bind fun _ _ => .fault _
  | exprStmt expr span =>
    exact safe_tick.bind fun _ _ => (safe_eval h henv expr (hn.slot (by simp))).bind fun _ _ =>
      .pure trivial
  | varDecl keyword ds span =>
    refine .of_triple fun c f => ?_
    have hnodup : strict → ((Node.varDecl keyword ds span).lexicalHere ++ []).Nodup := by
      intro hs
      rw [hlexical hs]
      exact List.nodup_nil
    refine ((triple_varDecl h henv hn hnodup).of_imp fun m _ hs => ?_).imp fun _ _ _ => trivial
    rw [hlexical hs]
    exact .nil
  | block body span =>
    refine safe_tick.bind fun _ _ => .of_triple fun c f => ?_
    exact (triple_child henv).bind fun inner => .assuming fun hinner =>
      triple_block henv hinner (fun n hn' => hn.slot hn') (triple_execAll h hinner body
        (fun n hn' => hn.slot hn') (fun hs => by
          rw [List.append_nil]
          exact ((hn.orderly hs).here rfl).nodup) c f)
  | ifStmt test yes no span =>
    refine safe_tick.bind fun _ _ => (safe_eval h henv test (hn.slot (by simp))).bind fun v _ => ?_
    split
    · exact safe_exec h henv yes (hn.slot (by simp)) (hn.inPlace (by simp [Node.inPlace]))
    · split
      · exact .pure trivial
      · exact safe_exec h henv no (hn.slot (by simp)) (hn.inPlace (by simp [Node.inPlace]))
  | whileStmt test body span =>
    exact safe_tick.bind fun _ _ => safe_whileLoop (safe_eval h henv test (hn.slot (by simp)))
      (safe_exec h henv body (hn.slot (by simp)) (hn.inPlace (by simp [Node.inPlace])))
  | doWhileStmt body test span =>
    exact safe_tick.bind fun _ _ => safe_doWhileLoop (safe_eval h henv test (hn.slot (by simp)))
      (safe_exec h henv body (hn.slot (by simp)) (hn.inPlace (by simp [Node.inPlace])))
  | forStmt init test update body span =>
    have hinit : init.IsFit strict := hn.slot (by simp)
    have hloop : ∀ (fresh : Bool) (head : Env), head.IsFit strict →
        (forLoop fresh (fun env => goesOn test (eval apply env test))
          (fun env => exec apply env body)
          (fun env => do let _ ← optional update (eval apply env update)) head).Safe strict
            fun _ => True := by
      intro fresh head hhead
      refine safe_forLoop (fun env henv => ?_) (fun env henv => ?_) (fun env henv => ?_) fresh hhead
      · exact safe_goesOn (safe_eval h henv test (hn.slot (by simp))) test
      · exact safe_exec h henv body (hn.slot (by simp)) (hn.inPlace (by simp [Node.inPlace]))
      · exact (safe_optional (safe_eval h henv update (hn.slot (by simp))) update).bind
          fun _ _ => .pure trivial
    refine safe_tick.bind fun _ _ => .of_triple fun c f => (triple_child henv).bind fun head =>
      .assuming fun hhead => ?_
    cases init with
    | varDecl keyword ds span =>
      have hnodup : strict → ((Node.varDecl keyword ds span).lexicalHere ++ []).Nodup := by
        intro hs
        rw [List.append_nil]
        exact ((hn.orderly hs).here rfl).nodup
      refine .bind (Q := fun _ _ => True) ?_ fun fresh => (hloop fresh head hhead).triple
      refine (triple_enterBlock hhead (by simpa using henv) _ (by simpa using hinit) []).bind
        fun _ => .bind (Q := fun _ _ => True) ?_ fun _ => .pure fun _ _ => trivial
      refine ((triple_varDecl h hhead hinit hnodup).of_imp fun m hm => ?_).imp fun _ _ _ => trivial
      exact hm.awaiting.of_subset fun x hx => by simpa [Node.lexicalNames] using hx
    | absent =>
      exact .bind (Q := fun _ _ => True) (.pure fun _ _ => trivial) fun fresh =>
        (hloop fresh head hhead).triple
    | _ =>
      exact .bind (Q := fun _ _ => True) (((safe_eval h hhead _ hinit).triple.of_imp
        fun _ _ => trivial).bind fun _ => .pure fun _ _ => trivial) fun fresh =>
          (hloop fresh head hhead).triple
  | forEachStmt head subject body isOf span =>
    have hsubject := safe_eval h henv subject (hn.slot (by simp))
    have hhead : head.IsFit strict := hn.slot (by simp)
    have hbody : ∀ env, env.IsFit strict → (exec apply env body).Safe strict fun _ => True :=
      fun env henv =>
        safe_exec h henv body (hn.slot (by simp)) (hn.inPlace (by simp [Node.inPlace]))
    cases head with
    | varDecl keyword ds span =>
      cases ds with
      | nil =>
        exact safe_tick.bind fun _ _ => hsubject.bind fun v _ =>
          safe_eachLoop hbody isOf v fun _ _ => .fault _
      | cons first others =>
        cases first with
        | declarator name init span =>
          exact safe_tick.bind fun _ _ => hsubject.bind fun v _ =>
            safe_eachLoop hbody isOf v fun _ hv => safe_bindItem henv _ _ hv
        | _ =>
          exact safe_tick.bind fun _ _ => hsubject.bind fun v _ =>
            safe_eachLoop hbody isOf v fun _ _ => .fault _
    | lookup name =>
      exact safe_tick.bind fun _ _ => hsubject.bind fun v _ =>
        safe_eachLoop hbody isOf v fun _ hv => (safe_write henv _ hv).bind fun _ _ => .pure henv
    | member target key computed span =>
      have hkey : key.IsFit strict := hhead.slot (by simp)
      exact safe_tick.bind fun _ _ => hsubject.bind fun v _ =>
        safe_eachLoop hbody isOf v fun _ hv =>
          (safe_eval h henv target (hhead.slot (by simp))).bind fun _ _ =>
            (safe_memberKey hkey (safe_eval h henv key hkey) _).bind fun _ hk =>
              (safe_setProperty _ hk hv).bind fun _ _ => .pure henv
    | _ =>
      exact safe_tick.bind fun _ _ => hsubject.bind fun v _ =>
        safe_eachLoop hbody isOf v fun _ _ => .fault _
  | returnStmt value span =>
    exact safe_tick.bind fun _ _ =>
      (safe_optional (safe_eval h henv value (hn.slot (by simp))) value).bind fun _ hv => .throw hv
  | breakStmt span => exact safe_tick.bind fun _ _ => .throw trivial
  | continueStmt span => exact safe_tick.bind fun _ _ => .throw trivial
  | throwStmt value span =>
    exact safe_tick.bind fun _ _ => (safe_eval h henv value (hn.slot (by simp))).bind
      fun _ hv => .throw hv
  | tryStmt body handler finalizer span =>
    have hbody := safe_exec h henv body (hn.slot (by simp)) (hn.inPlace (by simp [Node.inPlace]))
    have hfinalizer :=
      safe_exec h henv finalizer (hn.slot (by simp)) (hn.inPlace (by simp [Node.inPlace]))
    have hhandler : handler.IsFit strict := hn.slot (by simp)
    have hall : ∀ handle : Value → Eval Unit,
        (∀ v : Value, v.IsPlain → (handle v).Safe strict fun _ => True) →
        (tick >>= fun _ => closing finalizer (catching (exec apply env body) handle)
          (exec apply env finalizer)).Safe strict fun _ => True :=
      fun handle hhandle => safe_tick.bind fun _ _ =>
        safe_closing finalizer (safe_catching hbody hhandle) hfinalizer
    cases handler with
    | absent => exact hall _ fun v hv => .throw hv
    | catchClause param inside span =>
      have hinside : inside.IsFit strict := hhandler.slot (by simp)
      cases inside with
      | block xs _ | program xs _ | caseClause _ xs _ | function _ _ _ xs _ _ =>
        refine hall _ fun v hv => .of_triple fun c f => ?_
        refine (triple_bindException henv param v).bind fun inner => .assuming fun hinner => ?_
        exact triple_block henv hinner (fun n hn' => hinside.slot (by simp [hn']))
          (triple_execAll h hinner xs (fun n hn' => hinside.slot (by simp [hn'])) (fun hs => by
            rw [List.append_nil]
            exact ((hinside.orderly hs).here rfl).nodup) c f)
      | _ =>
        exact hall _ fun v hv => .of_triple fun c f =>
          (triple_bindException henv param v).bind fun _ => .fault _
    | _ => exact hall _ fun v hv => .fault _
  | switchStmt subject cases span =>
    have hcases : ∀ n ∈ cases, n.IsFit strict := fun n hn' => hn.slot (by simp [hn'])
    refine safe_tick.bind fun _ _ => (safe_eval h henv subject (hn.slot (by simp))).bind
      fun v _ => .of_triple fun c f => (triple_child henv).bind fun inner =>
        .assuming fun hinner => ?_
    refine (triple_enterCases hinner henv cases hcases []).bind fun _ =>
      (safe_findCase h hinner v cases 0 hcases).before steady_opening fun start _ => ?_
    split
    · exact .pure fun _ _ => trivial
    · refine triple_breakable (.of_imp (triple_execCases h hinner cases hcases (fun hs => ?_) _ c f)
        fun m hm => ?_)
      · exact ((hn.orderly hs).here rfl).nodup
      · exact hm.awaiting.of_subset fun x hx => by simpa using hx
  | withStmt object body span =>
    exact safe_tick.bind fun _ _ => (safe_eval h henv object (hn.slot (by simp))).bind fun _ hv =>
      (safe_childOf henv hv).bind fun inner hinner =>
        safe_exec h hinner body (hn.slot (by simp)) (hn.inPlace (by simp [Node.inPlace]))
  | _ => exact safe_tick.bind fun _ _ => .fault _

theorem triple_execAll (h : IsSafeApply strict apply) {env : Env} (henv : env.IsFit strict) :
    ∀ ns : List Node, (∀ n ∈ ns, n.IsFit strict) → ∀ {rest : List String},
      (strict → (Node.lexicalNames ns ++ rest).Nodup) → ∀ c f : Nat,
      Triple strict c f (Awaiting strict c env.frame (Node.lexicalNames ns ++ rest))
        (execAll apply env ns) fun _ => Awaiting strict c env.frame rest
  | [], _, _, _, _, _ => .pure fun _ h => h
  | n :: ns, hns, rest, hnodup, c, f => by
    obtain ⟨hn, hrest⟩ := List.forall_mem_cons.mp hns
    have hnames : Node.lexicalNames (n :: ns) ++ rest =
        n.lexicalHere ++ (Node.lexicalNames ns ++ rest) := by
      simp [Node.lexicalNames]
    rw [hnames] at hnodup ⊢
    exact (triple_exec h henv hn (fun hn' => safe_exec h henv n hn fun _ => hn') hnodup).bind
      fun _ => triple_execAll h henv ns hrest
        (fun hs => (List.nodup_append.mp (hnodup hs)).2.1) c f

theorem triple_execCases (h : IsSafeApply strict apply) {env : Env} (henv : env.IsFit strict) :
    ∀ ns : List Node, (∀ n ∈ ns, n.IsFit strict) →
      (strict → (ns.flatMap fun n => Node.lexicalNames n.statements).Nodup) →
      ∀ (skip c f : Nat), Triple strict c f
        (Awaiting strict c env.frame (ns.flatMap fun n => Node.lexicalNames n.statements))
        (execCases apply env skip ns) fun _ _ => True
  | [], _, _, skip, c, f => by cases skip <;> exact .pure fun _ _ => trivial
  | n :: ns, hns, hnodup, skip + 1, c, f => by
    rw [List.flatMap_cons] at hnodup
    refine .of_imp (triple_execCases h henv ns (List.forall_mem_cons.mp hns).2
      (fun hs => (List.nodup_append.mp (hnodup hs)).2.1) skip c f) fun m hm => ?_
    exact hm.of_subset fun x hx => by
      rw [List.flatMap_cons]
      exact List.mem_append_right _ hx
  | n :: ns, hns, hnodup, 0, c, f => by
    obtain ⟨hn, hrest⟩ := List.forall_mem_cons.mp hns
    rw [List.flatMap_cons] at hnodup ⊢
    cases n with
    | caseClause test body span =>
      exact (triple_execAll h henv body (fun n hn' => hn.slot (by simp [hn'])) hnodup c f).bind
        fun _ => triple_execCases h henv ns hrest
          (fun hs => (List.nodup_append.mp (hnodup hs)).2.1) 0 c f
    | _ => exact .fault _

end

end

end Eval

end ScopeLowering

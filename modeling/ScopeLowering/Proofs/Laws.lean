import ScopeLowering.Machine.Host
import ScopeLowering.Proofs.Budget
import ScopeLowering.Proofs.Changes

/-!
# Laws of code

Some things are true of all code, whatever its script: that it keeps an invariant of machines, say,
or that it does the same with more steps to spare. The proofs of such laws go through the same
actions in the same way. So they are gone through once, for any law that outlasts the ways of
putting actions together (`Eval.Law`). This module takes the pieces of the machine, all but control
and calls.

## The model

A law says which actions obey it. It may tell more of an action that needs a step, since a loop is
bounded only by the steps of its passes. Since actions may be left by jumps, it is told which jumps
are allowed (`E`). It speaks of them only if it is `strict`, and then it relies on code that keeps
its jumps.
-/

namespace ScopeLowering

/-- Does the code of all functions keep its jumps, if that is asked for? -/
def Machine.KeepsJumpsIf (strict : Prop) (m : Machine) : Prop :=
  ∀ {id : Nat} {env : Env} {code : Code},
    m.procedure id = .closure env code → code.KeepsJumpsIf strict

namespace Eval

/-- A law about actions that outlasts all ways of putting them together. -/
structure Law (strict : Prop) where
  /-- The action obeys the law, and it ends with the jumps of `E` at most. -/
  Obeys : ∀ {α : Type}, (Jump → Prop) → Eval α → Prop
  /-- It also needs at least one step. -/
  Costs : ∀ {α : Type}, (Jump → Prop) → Eval α → Prop
  /-- It needs at least one step to end with such a value. -/
  Pays : ∀ {α : Type}, (α → Prop) → (Jump → Prop) → Eval α → Prop
  obeys {α : Type} {E : Jump → Prop} {x : Eval α} : Costs E x → Obeys E x
  mono {α : Type} {E E' : Jump → Prop} {x : Eval α} : Obeys E x →
    (strict → ∀ j, E j → E' j) → Obeys E' x
  costs_mono {α : Type} {E E' : Jump → Prop} {x : Eval α} : Costs E x →
    (strict → ∀ j, E j → E' j) → Costs E' x
  /-- What looks at the machine is blind to its budget. -/
  inspect {α : Type} {E : Jump → Prop} {f : Machine → Except Signal α} :
    (∀ m k, f (m.refund k) = f m) →
    (∀ m s, f m = .error s → s ≠ .exhausted ∧ (strict → ∀ j ∈ s.jump?, E j)) →
    Obeys E (Eval.inspect f)
  modifyGet {α : Type} {E : Jump → Prop} {f : Machine → α × Machine} :
    (∀ m : Machine, m.Change (Code.KeepsJumpsIf strict) (f m).2) →
    (∀ m, (f m).2.budget = m.budget) →
    (∀ m k, f (m.refund k) = ((f m).1, (f m).2.refund k)) →
    Obeys E (MonadStateOf.modifyGet f)
  bind {α β : Type} {E : Jump → Prop} {x : Eval α} {f : α → Eval β} : Obeys E x →
    (∀ {m m' : Machine} {a : α}, x m = .ok a m' → Obeys E (f a)) → Obeys E (x >>= f)
  get_bind {α : Type} {E : Jump → Prop} {f : Machine → Eval α} :
    (∀ m k, f (m.refund k) = f m) → (∀ m : Machine, m.KeepsJumpsIf strict → Obeys E (f m)) →
    Obeys E (get >>= f)
  tick {E : Jump → Prop} : Costs E tick
  costs_bind {α β : Type} {E : Jump → Prop} {x : Eval α} {f : α → Eval β} : Costs E x →
    (∀ a, Obeys E (f a)) → Costs E (x >>= f)
  /-- Exhaustion is passed on, since the second part needs a step. -/
  thenAlways {E : Jump → Prop} {action cleanup : Eval Unit} : Obeys E action → Costs E cleanup →
    Obeys E (thenAlways action cleanup)
  catching {α : Type} {E : Jump → Prop} {action : Eval α} {handle : Value → Eval α} :
    Obeys E action → (∀ v, Obeys E (handle v)) → Obeys E (catching action handle)
  /-- A `break` goes no further than this. -/
  breakable {E E' : Jump → Prop} {action : Eval Unit} : Obeys E action →
    (strict → ∀ j, j ≠ .breaking → E j → E' j) → Obeys E' (breakable action)
  /-- A `return` goes no further than this. -/
  returnValue {E : Jump → Prop} {body : Eval Unit} : Obeys (· = .returning) body →
    Obeys E (returnValue body)
  /-- Of the jumps in the body of a loop, only a `return` gets further than this. -/
  runBody {E E' : Jump → Prop} {body : Eval Unit} : Costs E body →
    (strict → E .returning → E' .returning) → Costs E' (runBody body)
  pays_of_costs {α : Type} {E : Jump → Prop} {x : Eval α} {p : α → Prop} : Costs E x → Pays p E x
  obeys_of_pays {α : Type} {E : Jump → Prop} {x : Eval α} {p : α → Prop} : Pays p E x → Obeys E x
  pays_pure {α : Type} {E : Jump → Prop} {a : α} {p : α → Prop} : ¬ p a → Pays p E (pure a)
  /-- The step may be in the second part. -/
  pays_after {α β : Type} {E : Jump → Prop} {x : Eval α} {f : α → Eval β} {p : β → Prop} :
    Obeys E x → (∀ a, Pays p E (f a)) → Pays p E (x >>= f)
  /-- The step may be in the first part. -/
  pays_bind {α β : Type} {E : Jump → Prop} {x : Eval α} {f : α → Eval β} {p : β → Prop} :
    Pays (fun _ => True) E x → (∀ a, Obeys E (f a)) → Pays p E (x >>= f)
  pays_get_bind {α : Type} {E : Jump → Prop} {f : Machine → Eval α} {p : α → Prop} :
    (∀ m k, f (m.refund k) = f m) → (∀ m, Pays p E (f m)) → Pays p E (get >>= f)
  /-- Each pass that is followed by another needs a step. -/
  loop {α : Type} {E : Jump → Prop} {pass : α → Eval (Option α)} :
    (∀ a, Pays (·.isSome) E (pass a)) → ∀ a, Obeys E (loop pass a)

variable {strict : Prop} {L : Law strict} {E E' : Jump → Prop} {α β : Type}

/-! ### Putting actions together -/

namespace Law

namespace Obeys

variable {x : Eval α} {f : α → Eval β}

theorem mono (h : L.Obeys E x) (himp : strict → ∀ j, E j → E' j) : L.Obeys E' x := L.mono h himp

theorem bind (hx : L.Obeys E x) (hf : ∀ a, L.Obeys E (f a)) : L.Obeys E (x >>= f) :=
  L.bind hx fun _ => hf _

theorem get_bind {f : Machine → Eval β} (hblind : ∀ m k, f (m.refund k) = f m)
    (h : ∀ m : Machine, m.KeepsJumpsIf strict → L.Obeys E (f m)) :
    L.Obeys E ((get : Eval Machine) >>= f) := L.get_bind hblind h

theorem pure (a : α) : L.Obeys E (Pure.pure a) :=
  L.inspect (fun _ _ => rfl) fun _ _ he => by cases he

theorem throw {s : Signal} (hs : s ≠ .exhausted) (h : strict → ∀ j ∈ s.jump?, E j) :
    L.Obeys E (MonadExcept.throw s : Eval α) :=
  L.inspect (f := fun _ => .error s) (fun _ _ => rfl) fun _ _ he => by
    cases he
    exact ⟨hs, h⟩

theorem thrown (v : Value) : L.Obeys E (MonadExcept.throw (Signal.thrown v) : Eval α) :=
  .throw (fun h => by cases h) fun _ _ hj => by cases hj

theorem fault (f : Fault) : L.Obeys E (Eval.fault f : Eval α) :=
  .throw (fun h => by cases h) fun _ _ hj => by cases hj

theorem calculates {f : Machine → Except Signal α} (h : Machine.Calculates f) :
    L.Obeys E (Eval.inspect f) := by
  refine L.inspect (fun m k => h.blind (m.sameObjects_refund k)) fun m s he => ?_
  have hmild := h.mild he
  cases s with
  | tooDeep | fault => exact ⟨fun h => (by cases h), fun _ _ hj => by cases hj⟩
  | _ => cases hmild

theorem compute (e : Except Fault α) : L.Obeys E (Eval.compute e) := by
  cases e with
  | ok a => exact .pure a
  | error f => exact .fault f

/-- An action that changes the machine once, and not its budget. -/
theorem modifyGet {f : Machine → α × Machine}
    (h : ∀ m : Machine, m.Change (Code.KeepsJumpsIf strict) (f m).2)
    (hbudget : ∀ m, (f m).2.budget = m.budget)
    (hrefund : ∀ m k, f (m.refund k) = ((f m).1, (f m).2.refund k)) :
    L.Obeys E (MonadStateOf.modifyGet f : Eval α) := L.modifyGet h hbudget hrefund

theorem modify {f : Machine → Machine}
    (h : ∀ m : Machine, m.Change (Code.KeepsJumpsIf strict) (f m))
    (hbudget : ∀ m, (f m).budget = m.budget) (hrefund : ∀ m k, f (m.refund k) = (f m).refund k) :
    L.Obeys E (modifyThe Machine f : Eval Unit) :=
  .modifyGet h hbudget fun m k => congrArg (Prod.mk ()) (hrefund m k)

end Obeys

namespace Costs

variable {x : Eval α} {f : α → Eval β}

theorem obeys (h : L.Costs E x) : L.Obeys E x := L.obeys h

theorem mono (h : L.Costs E x) (himp : strict → ∀ j, E j → E' j) : L.Costs E' x :=
  L.costs_mono h himp

theorem bind (hx : L.Costs E x) (hf : ∀ a, L.Obeys E (f a)) : L.Costs E (x >>= f) :=
  L.costs_bind hx hf

end Costs

end Law

/-! ### Small actions -/

theorem obeys_newArray (xs : Array Value) : L.Obeys E (newArray xs) :=
  .modifyGet (fun _ => .arrays _) (fun _ => rfl) fun _ _ => rfl

theorem obeys_newRecord (r : Record) : L.Obeys E (newRecord r) :=
  .modifyGet (fun _ => .records _) (fun _ => rfl) fun _ _ => rfl

theorem obeys_newNative (fn : Native) : L.Obeys E (newNative fn) :=
  .modifyGet (fun _ => .native fn) (fun _ => rfl) fun _ _ => rfl

theorem obeys_newFunction {code : Code} (h : code.KeepsJumpsIf strict) (env : Env) :
    L.Obeys E (newFunction (.closure env code)) :=
  .modifyGet (fun _ => .closure env h) (fun _ => rfl) fun _ _ => rfl

theorem obeys_modifyArray (id : Nat) (f : Array Value → Array Value) :
    L.Obeys E (modifyArray id f) :=
  .modify (fun _ => .arrays _) (fun _ => rfl) fun _ _ => rfl

theorem obeys_modifyRecord (id : Nat) (f : Record → Record) :
    L.Obeys E (modifyRecord id f) :=
  .modify (fun _ => .records _) (fun _ => rfl) fun _ _ => rfl

theorem obeys_raise (name message : String) : L.Obeys E (raise name message : Eval α) :=
  (obeys_newRecord _).bind fun _ => .thrown _

theorem obeys_toText (v : Value) : L.Obeys E (toText v) :=
  .calculates (Machine.calculates_textOf v)

theorem obeys_toNumber (v : Value) : L.Obeys E (toNumber v) :=
  .calculates (Machine.calculates_numberOf v)

/-! ### Variables -/

theorem obeys_newSlots (slots : List (String × Nat)) : L.Obeys E (newSlots slots) :=
  .modifyGet (fun m => .variables (.pushFrame m slots)) (fun _ => rfl) fun _ _ => rfl

theorem obeys_childWith (env : Env) (this : Value) : L.Obeys E (childWith env this) :=
  (obeys_newSlots _).bind fun _ => .pure _

theorem obeys_child (env : Env) : L.Obeys E (child env) := obeys_childWith _ _

theorem obeys_childOf (env : Env) (subject : Value) : L.Obeys E (childOf env subject) :=
  (obeys_newSlots _).bind fun _ => .pure _

theorem obeys_copyCells (slots : List (String × Nat)) : L.Obeys E (copyCells slots) := by
  induction slots with
  | nil => exact .pure _
  | cons slot rest ih =>
    exact .bind (.modifyGet (fun _ => .variables (.of_same rfl)) (fun _ => rfl) fun _ _ => rfl)
      fun _ => ih.bind fun _ => .pure _

theorem obeys_copyFrame (env : Env) : L.Obeys E (copyFrame env) :=
  .get_bind (fun _ _ => rfl) fun _ _ => (obeys_copyCells _).bind fun _ =>
    (obeys_newSlots _).bind fun _ => .pure _

theorem obeys_declare (f : Frame) (name : String) (v : Value) (isConst : Bool) :
    L.Obeys E (declare f name v isConst) :=
  .modify (fun m => .variables (.declare m f name _)) (fun _ => rfl) fun _ _ => rfl

theorem obeys_assign (slot : Slot) (v : Value) :
    L.Obeys E (modifyThe Machine (·.assign slot v) : Eval Unit) := by
  refine .modify (fun m => .assign m slot v) (fun m => ?_) fun m k => ?_ <;> cases slot <;> rfl

theorem obeys_read (env : Env) (name : String) : L.Obeys E (read env name) := by
  refine .get_bind (fun _ _ => rfl) fun m _ => ?_
  split
  · exact obeys_raise _ _
  · split
    · exact obeys_raise _ _
    · exact .pure _

theorem obeys_write (env : Env) (name : String) (v : Value) :
    L.Obeys E (write env name v) := by
  refine .get_bind (fun _ _ => rfl) fun m _ => ?_
  split
  · exact obeys_declare _ _ _ _
  · dsimp only
    split
    · exact obeys_raise _ _
    · split
      · exact obeys_raise _ _
      · exact obeys_assign _ _

/-! ### Setting up scopes -/

theorem obeys_declareDead (f : Frame) (isConst : Bool) (ds : List Node) :
    L.Obeys E (declareDead f isConst ds) := by
  induction ds with
  | nil => exact .pure _
  | cons d rest ih =>
    cases d with
    | declarator name init span => exact (obeys_declare _ _ _ _).bind fun _ => ih
    | _ => exact .fault _

theorem obeys_handOver (outer : Option Env) (name : String) (fn : Value) :
    L.Obeys E (handOver outer name fn) := by
  cases outer with
  | some up => exact obeys_write _ _ _
  | none => exact .pure _

theorem obeys_enterStatement (env : Env) (outer : Option Env) {n : Node}
    (hn : n.KeepsJumpsIf strict) : L.Obeys E (enterStatement env outer n) := by
  cases n with
  | varDecl keyword ds span =>
    cases keyword with
    | varWord => exact .pure _
    | letWord | constWord => exact obeys_declareDead _ _ _
  | function form name params body isArrow span =>
    cases form with
    | expression => exact .pure _
    | declaration =>
      cases name with
      | none => exact .fault _
      | some name =>
        exact (obeys_newFunction (fun hs => (hn hs).code) env).bind fun _ =>
          (obeys_declare _ _ _ _).bind fun _ => obeys_handOver _ _ _
  | _ => exact .pure _

theorem obeys_enterBlock (env : Env) (outer : Option Env) {ns : List Node}
    (hns : ∀ n ∈ ns, n.KeepsJumpsIf strict) : L.Obeys E (enterBlock env outer ns) := by
  induction ns with
  | nil => exact .pure _
  | cons n rest ih =>
    obtain ⟨hn, hrest⟩ := List.forall_mem_cons.mp hns
    exact (obeys_enterStatement env outer hn).bind fun _ => ih hrest

theorem obeys_declareHoisted (f : Frame) (names : List String) :
    L.Obeys E (declareHoisted f names) := by
  induction names with
  | nil => exact .pure _
  | cons name rest ih =>
    refine .bind (.get_bind (fun _ _ => rfl) fun m _ => ?_) fun _ => ih
    split
    · exact .pure _
    · exact obeys_declare _ _ _ _

theorem obeys_enterFunction (env : Env) {body : List Node}
    (hbody : ∀ n ∈ body, n.KeepsJumpsIf strict) : L.Obeys E (enterFunction env body) :=
  (Law.Obeys.compute _).bind fun _ => (obeys_declareHoisted _ _).bind fun _ =>
    obeys_enterBlock env none hbody

/-! ### Properties and operators -/

theorem obeys_indexed (key : Key) (item : Nat → Option Value) (method : String → Option Native) :
    L.Obeys E (indexed key item method) := by
  refine (Law.Obeys.compute _).bind fun i => ?_
  split
  · exact .pure _
  · split
    · split
      · exact obeys_newNative _
      · exact .pure _
    · exact .pure _

theorem obeys_hasProperty (id : Nat) (key : Key) : L.Obeys E (hasProperty id key) := by
  unfold hasProperty
  split
  · exact .get_bind (fun _ _ => rfl) fun _ _ => .pure _
  · exact .fault _

theorem obeys_getProperty (target : Value) (key : Key) :
    L.Obeys E (getProperty target key) := by
  cases target with
  | undefined | null => exact (obeys_toText _).bind fun _ => obeys_raise _ _
  | array id =>
    refine .get_bind (fun _ _ => rfl) fun m _ => ?_
    dsimp only
    split
    · exact .pure _
    · exact obeys_indexed _ _ _
  | text s =>
    unfold getProperty
    dsimp only
    split
    · exact .pure _
    · exact obeys_indexed _ _ _
  | record id =>
    refine (obeys_hasProperty id key).bind fun has => ?_
    split
    · exact .get_bind (fun _ _ => rfl) fun _ _ => .pure _
    · split
      · exact obeys_newNative _
      · exact .pure _
  | function id =>
    unfold getProperty
    dsimp only
    split
    · exact obeys_newNative _
    · exact .pure _
  | _ => exact .pure _

theorem obeys_growArray (id : Nat) (size : Int) : L.Obeys E (growArray id size) := by
  refine .get_bind (fun _ _ => rfl) fun m _ => ?_
  dsimp only
  split
  · exact .fault _
  · split
    · exact .fault _
    · exact obeys_modifyArray _ _

theorem obeys_wholePart (n : Number) : L.Obeys E (wholePart n) := by
  unfold wholePart
  split
  · exact .pure _
  · split
    · exact .pure _
    · exact .fault _

theorem obeys_setProperty (target : Value) (key : Key) (v : Value) :
    L.Obeys E (setProperty target key v) := by
  cases target with
  | undefined | null => exact (obeys_toText _).bind fun _ => obeys_raise _ _
  | array id =>
    refine (Law.Obeys.compute _).bind fun i => ?_
    split
    · exact (obeys_growArray _ _).bind fun _ => obeys_modifyArray _ _
    · split
      · exact (obeys_toNumber v).bind fun _ => (obeys_wholePart _).bind fun _ =>
          (obeys_modifyArray _ _).bind fun _ => obeys_growArray _ _
      · exact .pure _
  | record id =>
    unfold setProperty
    dsimp only
    split
    · exact obeys_modifyRecord _ _
    · exact .fault _
  | _ => exact .pure _

theorem obeys_deleteProperty (id : Nat) (key : Key) :
    L.Obeys E (deleteProperty id key) := by
  unfold deleteProperty
  split
  · exact obeys_modifyRecord _ _
  · exact .fault _

theorem obeys_isIn (key target : Value) : L.Obeys E (isIn key target) := by
  cases target with
  | array id =>
    unfold isIn
    dsimp only
    split
    · exact .pure _
    · refine (obeys_toText key).bind fun t => ?_
      split
      · split
        · exact .get_bind (fun _ _ => rfl) fun _ _ => .pure _
        · exact .fault _
      · exact .pure _
  | record id =>
    exact (obeys_toText key).bind fun _ => .get_bind (fun _ _ => rfl) fun _ _ => .pure _
  | _ => exact (obeys_toText key).bind fun _ => (obeys_toText _).bind fun _ => obeys_raise _ _

theorem obeys_binary (op : BinaryOp) (a b : Value) : L.Obeys E (binary op a b) := by
  unfold binary
  split
  · exact (obeys_isIn a b).bind fun _ => .pure _
  · exact .calculates (Machine.calculates_binary op a b)

theorem obeys_unary (op : UnaryOp) (v : Value) : L.Obeys E (unary op v) :=
  .calculates (Machine.calculates_unary op v)

/-! ### Functions of the host -/

theorem obeys_oneArg (default : Value) (args : List Value) :
    L.Obeys E (oneArg default args) := by
  unfold oneArg
  split
  · exact .pure _
  · exact .pure _
  · exact .fault _

theorem obeys_noArgs (args : List Value) : L.Obeys E (noArgs args) := by
  cases args with
  | nil => exact .pure _
  | cons => exact .fault _

theorem obeys_toTextOr (default : String) (v : Value) : L.Obeys E (toTextOr default v) := by
  cases v with
  | undefined => exact .pure _
  | _ => exact obeys_toText _

theorem obeys_callTextMethod (s : String) (args : List Value) (method : TextMethod) :
    L.Obeys E (callTextMethod s args method) := by
  cases method with
  | charAt => exact (obeys_oneArg _ _).bind fun _ => (obeys_toNumber _).bind fun _ => .pure _
  | indexOf => exact (obeys_oneArg _ _).bind fun _ => (obeys_toText _).bind fun _ => .pure _
  | toUpperCase | toLowerCase => exact (obeys_noArgs _).bind fun _ => .pure _

theorem obeys_callSetTimeout (args : List Value) : L.Obeys E (callSetTimeout args) := by
  refine (obeys_toNumber _).bind fun delay =>
    .bind (.modify (fun _ => .defer ?_ _ _) (fun _ => rfl) fun _ _ => rfl) fun _ =>
      .get_bind (fun _ _ => rfl) fun _ _ => .pure _
  -- what is not a number counts as no delay
  split
  · rfl
  · exact Bool.eq_false_iff.mpr ‹_›

end Eval

end ScopeLowering

import ScopeLowering.Machine.Operator

/-!
# What conversions depend on

A conversion, an operator or a comparison of values looks at the arrays, the records and the
functions of a machine and at its platform, and at nothing else of it. It fails only where values
are nested too deeply, or with a fault: it never throws an exception, and the budget is no concern
of it (`Machine.Calculates`).

Equality with conversion takes its operands apart step by step. It comes to the same to convert both
of them first and then to compare what they are converted to (`Machine.looseEquals_eq`).
-/

namespace ScopeLowering

/-- A signal of a calculation that cannot be carried out. -/
def Signal.IsMild : Signal → Prop
  | tooDeep | fault _ => True
  | _ => False

namespace Machine

variable {α β : Type}

/-- Do two machines hold the same arrays, records and functions, on the same platform? -/
structure SameObjects (m m' : Machine) : Prop where
  platform : m.platform = m'.platform
  arrays : m.arrays = m'.arrays
  records : m.records = m'.records
  procedures : m.procedures = m'.procedures

namespace SameObjects

variable {m m' : Machine}

theorem array_eq (h : m.SameObjects m') (id : Nat) : m.array id = m'.array id := by
  rw [array, array, h.arrays]

theorem record_eq (h : m.SameObjects m') (id : Nat) : m.record id = m'.record id := by
  rw [record, record, h.records]

theorem procedure_eq (h : m.SameObjects m') (id : Nat) : m.procedure id = m'.procedure id := by
  rw [procedure, procedure, h.procedures]

end SameObjects

/-- A calculation on the objects of a machine. -/
structure Calculates (f : Machine → Except Signal α) : Prop where
  blind : ∀ {m m' : Machine}, m.SameObjects m' → f m = f m'
  mild : ∀ {m : Machine} {s : Signal}, f m = .error s → s.IsMild

namespace Calculates

/-! ### Putting calculations together -/

theorem ok (a : α) : Calculates fun _ => .ok a := ⟨fun _ => rfl, fun h => nomatch h⟩

theorem error {s : Signal} (h : s.IsMild) : Calculates fun _ => (.error s : Except Signal α) :=
  ⟨fun _ => rfl, fun hs => by cases hs; exact h⟩

theorem ofFault (e : Except Fault α) : Calculates fun _ => e.mapError Signal.fault := by
  refine ⟨fun _ => rfl, fun {_ s} hs => ?_⟩
  cases e with
  | ok a => cases hs
  | error x => cases hs; trivial

theorem bind {f : Machine → Except Signal α} {g : α → Machine → Except Signal β}
    (hf : Calculates f) (hg : ∀ a, Calculates (g a)) : Calculates fun m => f m >>= (g · m) := by
  constructor
  · intro m m' h
    show (f m >>= fun a => g a m) = (f m' >>= fun a => g a m')
    rw [hf.blind h]
    exact congrArg (f m' >>= ·) (funext fun a => (hg a).blind h)
  · intro m s hs
    cases hm : f m with
    | error t =>
      rw [hm] at hs
      cases hs
      exact hf.mild hm
    | ok a =>
      rw [hm] at hs
      exact (hg a).mild hs

theorem map {f : Machine → Except Signal α} (hf : Calculates f) (g : α → β) :
    Calculates fun m => f m >>= fun a => pure (g a) :=
  hf.bind fun a => .ok (g a)

theorem mapM {f : Machine → α → Except Signal β} (hf : ∀ a, Calculates (f · a)) :
    ∀ xs : List α, Calculates fun m => xs.mapM (f m)
  | [] => .ok []
  | x :: xs => by
    simp only [List.mapM_cons]
    exact (hf x).bind fun _ => (mapM hf xs).map _

/-- A calculation that depends on one part of the objects. -/
theorem of_part {part : Machine → α} (f : α → Machine → Except Signal β)
    (hpart : ∀ {m m' : Machine}, m.SameObjects m' → part m = part m')
    (hf : ∀ a, Calculates (f a)) : Calculates fun m => f (part m) m := by
  constructor
  · intro m m' h
    show f (part m) m = f (part m') m'
    rw [hpart h]
    exact (hf _).blind h
  · exact fun hs => (hf _).mild hs

theorem ite {f g : Machine → Except Signal α} (c : Prop) [Decidable c] (hf : Calculates f)
    (hg : Calculates g) : Calculates fun m => if c then f m else g m := by
  by_cases hc : c
  · simpa only [if_pos hc] using hf
  · simpa only [if_neg hc] using hg

end Calculates

/-! ### Texts and numbers -/

theorem calculates_errorText {text : Machine → Value → Except Signal String}
    (h : ∀ v, Calculates (text · v)) (r : Record) : Calculates fun m => errorText (text m) r :=
  (h _).bind fun _ => (h _).map _

theorem calculates_joinTexts {text : Machine → Value → Except Signal String}
    (h : ∀ v, Calculates (text · v)) (separator : String) (xs : Array Value) :
    Calculates fun m => joinTexts (text m) separator xs :=
  .map (.mapM (fun x => .ite _ (.ok "") (h x)) _) _

theorem calculates_textWithin : ∀ (depth : Nat) (v : Value), Calculates (·.textWithin depth v)
  | 0, _ => .error trivial
  | depth + 1, v => by
    have ih := calculates_textWithin depth
    cases v with
    | record id =>
      exact .of_part
        (fun r m => if r.isError then errorText (textWithin m depth) r else .ok "[object Object]")
        (fun h => h.record_eq id) fun r => .ite _ (calculates_errorText ih r) (.ok _)
    | array id =>
      exact .of_part (fun xs m => joinTexts (textWithin m depth) "," xs) (fun h => h.array_eq id)
        fun xs => calculates_joinTexts ih "," xs
    | function id =>
      exact .of_part (fun p _ => .ok p.text) (fun h => h.procedure_eq id) fun _ => .ok _
    | number n => exact .ofFault n.text
    | _ => exact .ok _

theorem calculates_textOf (v : Value) : Calculates (·.textOf v) :=
  .of_part (fun (platform : Platform) m => m.textWithin platform.nesting v) (·.platform)
    fun platform => calculates_textWithin platform.nesting v

theorem calculates_join (separator : String) (id : Nat) :
    Calculates fun m => m.join separator (m.array id) :=
  .of_part (fun xs m => m.join separator xs) (fun h => h.array_eq id)
    fun xs => calculates_joinTexts calculates_textOf separator xs

theorem calculates_numberOf (v : Value) : Calculates (·.numberOf v) := by
  cases v with
  | array id => exact (calculates_textOf _).map _
  | _ => exact .ok _

theorem calculates_wordOf (v : Value) : Calculates (·.wordOf v) := (calculates_numberOf v).map _

theorem calculates_primitiveOf (v : Value) : Calculates (·.primitiveOf v) :=
  .ite _ ((calculates_textOf v).map _) (.ok v)

/-! ### Equality -/

/-- What a value is compared as with one of another type: truth values count as numbers, arrays and
records as their texts. -/
def comparable (m : Machine) : Value → Except Signal Value
  | .bool b => .ok (.int b.toInt)
  | .array id => do return .text (← m.textOf (.array id))
  | .record id => do return .text (← m.textOf (.record id))
  | v => .ok v

/-- Equality of values that have been made comparable. -/
def equalAsNumbers : Value → Value → Bool
  | .number a, .number b => a.equals b
  | .number a, .text t => a.equals (.ofText t)
  | .text s, .number b => (Number.ofText s).equals b
  | .text s, .text t => s == t
  | _, _ => false

theorem isNumber_eq (v : Value) : v.isNumber = (v.typeName == "number") := by
  cases v <;> rfl

/-- Of two values of the same type either both are numbers or neither is. -/
theorem isNumber_or_of_typeName (a b : Value) :
    (a.typeName == b.typeName && !(a.isNumber || b.isNumber)) =
      (a.typeName == b.typeName && !a.isNumber) := by
  by_cases h : a.typeName = b.typeName
  · rw [isNumber_eq, isNumber_eq b, h, Bool.or_self]
  · rw [beq_false_of_ne h, Bool.false_and, Bool.false_and]

/-- Values of the same type are compared as they are, and others once they are comparable. -/
theorem looseEquals_eq (m : Machine) (a b : Value) : m.looseEquals a b =
    if a.isNullish || b.isNullish then .ok (a.isNullish && b.isNullish)
    else if a.typeName == b.typeName && !a.isNumber then .ok (a.strictEquals b)
    else do
      let a ← m.comparable a
      let b ← m.comparable b
      return equalAsNumbers a b := by
  fun_induction m.looseEquals a b with
  | case1 a b hnull => rw [if_pos hnull]
  | case2 a b hnull htype =>
    rw [isNumber_or_of_typeName] at htype
    rw [if_neg hnull, if_pos htype]
  -- a truth value
  | case3 x b hnull htype ih =>
    rw [ih]
    cases b <;> first | rfl | exact absurd rfl htype
  | case4 a y _ hnull htype ih =>
    rw [ih]
    cases a <;> first | rfl | exact absurd rfl htype
  | case5 | case6 | case7 => rfl
  -- an array or a record, whose text may fail to be found
  | case8 id b _ hnull htype ih | case9 id b _ hnull htype ih =>
    simp only [ih, comparable]
    generalize m.textOf _ = t
    cases b <;> first | exact absurd rfl hnull | exact absurd rfl htype | cases t <;> rfl
  | case10 a id _ _ _ hnull htype ih | case11 a id _ _ _ hnull htype ih =>
    simp only [ih, comparable]
    generalize m.textOf _ = t
    cases a <;> first | exact absurd rfl hnull | exact absurd rfl htype | cases t <;> rfl
  | case12 a b hnull htype hbool harray hrecord hbool' harray' hrecord' hnn hnt htn =>
    have ha : m.comparable a = .ok a := by
      cases a <;> first | rfl | cases hbool _ rfl | cases harray _ rfl | cases hrecord _ rfl
    have hb : m.comparable b = .ok b := by
      cases b <;> first | rfl | cases hbool' _ rfl | cases harray' _ rfl | cases hrecord' _ rfl
    have hfalse : equalAsNumbers a b = false := by
      unfold equalAsNumbers
      split
      · cases hnn _ _ rfl rfl
      · cases hnt _ _ rfl rfl
      · cases htn _ _ rfl rfl
      · exact absurd rfl htype
      · rfl
    rw [isNumber_or_of_typeName] at htype
    rw [if_neg hnull, if_neg htype, ha, hb]
    exact congrArg Except.ok hfalse.symm

/-! ### Operators -/

theorem calculates_comparable (v : Value) : Calculates (·.comparable v) := by
  cases v with
  | array id | record id => exact (calculates_textOf _).map _
  | _ => exact .ok _

theorem calculates_looseEquals (a b : Value) : Calculates (·.looseEquals a b) := by
  simp only [looseEquals_eq]
  exact .ite _ (.ok _) <| .ite _ (.ok _) <|
    (calculates_comparable a).bind fun _ => (calculates_comparable b).map _

theorem calculates_plus (a b : Value) : Calculates (·.plus a b) := by
  refine (calculates_primitiveOf a).bind fun a => (calculates_primitiveOf b).bind fun b => ?_
  split
  · exact (calculates_textOf _).bind fun _ => (calculates_textOf _).map _
  · exact (calculates_textOf _).bind fun _ => (calculates_textOf _).map _
  · exact (calculates_numberOf _).bind fun _ => (calculates_numberOf _).bind fun _ => .ofFault _

theorem calculates_comparison (op : BinaryOp) (a b : Value) : Calculates (·.comparison op a b) := by
  refine (calculates_primitiveOf a).bind fun a => (calculates_primitiveOf b).bind fun b => ?_
  split
  · exact .ok _
  · exact (calculates_numberOf _).bind fun _ => (calculates_numberOf _).map _

theorem calculates_binary (op : BinaryOp) (a b : Value) : Calculates (·.binary op a b) := by
  cases op with
  | add => exact calculates_plus a b
  | subtract | multiply | power | divide | remainder =>
    exact (calculates_numberOf a).bind fun _ => (calculates_numberOf b).bind fun _ => .ofFault _
  | looseEqual | looseUnequal => exact (calculates_looseEquals a b).map _
  | strictEqual | strictUnequal => exact .ok _
  | less | atMost | greater | atLeast => exact calculates_comparison _ a b
  | bitAnd | bitOr | bitXor | shiftLeft | shiftRight | shiftRightUnsigned | isIn =>
    exact (calculates_wordOf a).bind fun _ => (calculates_wordOf b).map _

theorem calculates_unary (op : UnaryOp) (v : Value) : Calculates (·.unary op v) := by
  cases op with
  | negate | plus => exact (calculates_numberOf v).map _
  | complement => exact (calculates_wordOf v).map _
  | not | typeName | void => exact .ok _

end Machine

end ScopeLowering

import ScopeLowering.Machine.Value

/-!
# Actions of the machine

What a running script does to the machine. An action ends with a value or with a signal, and what it
did before a signal is not undone.

## The model

An action also says which machines it goes through on its way, one after each change that it makes
(`Eval.Trace`). So a law about whole runs can speak of every state of a run, and of the order of
these states. A trace is a proposition about lists of machines: nothing of it is left in a program
that runs, and the machines of a run are not kept.
-/

namespace ScopeLowering

/-- Why an action of the machine does not go on as usual. -/
inductive Signal where
  /-- An exception of the script. -/
  | thrown (v : Value)
  | returned (v : Value)
  | broke
  | continued
  /-- The step budget is used up. -/
  | exhausted
  /-- Calls or values are nested too deeply. -/
  | tooDeep
  | fault (f : Fault)
  deriving Inhabited

/-- How an action ends: with a value or a signal, and with the machine as it is then. -/
inductive Ending (α : Type) where
  | ok (value : α) (machine : Machine)
  | error (signal : Signal) (machine : Machine)

/-- The machine in the end. -/
def Ending.machine {α : Type} : Ending α → Machine
  | ok _ m | error _ m => m

/-- An action of the machine. -/
structure Eval (α : Type) where
  /-- How it ends. -/
  run : Machine → Ending α
  /-- Are these the machines that it goes through after the one it starts from? -/
  Trace : Machine → List Machine → Prop
  exists_trace : ∀ m, ∃ l, Trace m l
  /-- The last of them is the one in the end. -/
  getLast_trace : ∀ {m l}, Trace m l → (m :: l).getLast (List.cons_ne_nil m l) = (run m).machine

namespace Eval

variable {α β : Type}

instance : CoeFun (Eval α) fun _ => Machine → Ending α := ⟨run⟩

/-! ### Actions and their sequence -/

/-- An action that leaves the machine alone. -/
@[always_inline, inline]
def inspect (f : Machine → Except Signal α) : Eval α where
  run m :=
    match f m with
    | .ok a => .ok a m
    | .error s => .error s m
  Trace _ l := l = []
  exists_trace _ := ⟨[], rfl⟩
  getLast_trace {m l} h := by
    subst h
    show m = _
    split <;> rfl

/-- An action that changes the machine once. -/
@[always_inline, inline]
def change (f : Machine → α × Machine) : Eval α where
  run m := match f m with | (a, m) => .ok a m
  Trace m l := l = [(f m).2]
  exists_trace m := ⟨[(f m).2], rfl⟩
  getLast_trace {m l} h := by
    subst h
    rfl

/-- An action and then one that depends on its value. A signal of the first is that of both. -/
@[always_inline, inline]
def andThen (x : Eval α) (f : α → Eval β) : Eval β where
  run m :=
    match x.run m with
    | .ok a m => (f a).run m
    | .error s m => .error s m
  Trace m l :=
    match x.run m with
    | .ok a m' => ∃ l₁ l₂, x.Trace m l₁ ∧ (f a).Trace m' l₂ ∧ l = l₁ ++ l₂
    | .error .. => x.Trace m l
  exists_trace m := by
    obtain ⟨l₁, h₁⟩ := x.exists_trace m
    split
    · rename_i a m' _
      obtain ⟨l₂, h₂⟩ := (f a).exists_trace m'
      exact ⟨l₁ ++ l₂, l₁, l₂, h₁, h₂, rfl⟩
    · exact ⟨l₁, h₁⟩
  getLast_trace {m l} h := by
    cases hx : x.run m with
    | ok a m' =>
      simp only [hx] at h ⊢
      obtain ⟨l₁, l₂, h₁, h₂, rfl⟩ := h
      have h₁ := x.getLast_trace h₁
      have h₂ := (f a).getLast_trace h₂
      rw [hx] at h₁
      cases l₂ with
      | nil => simpa using h₁.trans h₂
      | cons m₂ l₂ =>
        show ((m :: l₁) ++ m₂ :: l₂).getLast _ = _
        rw [List.getLast_append_of_ne_nil _ (List.cons_ne_nil m₂ l₂)]
        exact h₂
    | error s m' =>
      simp only [hx] at h ⊢
      rw [x.getLast_trace h, hx]
      rfl

/-- What becomes of an action, its signal included. -/
@[always_inline, inline]
def attempt (x : Eval α) : Eval (Except Signal α) where
  run m :=
    match x.run m with
    | .ok a m => .ok (.ok a) m
    | .error s m => .ok (.error s) m
  Trace := x.Trace
  exists_trace := x.exists_trace
  getLast_trace {m l} h := by
    rw [x.getLast_trace h]
    cases x.run m <;> rfl

instance : Monad Eval where
  pure a := inspect fun _ => .ok a
  bind := andThen

instance : MonadStateOf Machine Eval where
  get := inspect .ok
  set m := change fun _ => ((), m)
  modifyGet := change

instance : MonadExceptOf Signal Eval where
  throw s := inspect fun _ => .error s
  tryCatch x f := do
    match ← attempt x with
    | .ok a => return a
    | .error s => f s

instance : Inhabited (Eval α) := ⟨throw default⟩

section

variable {x : Eval α} {f : α → Eval β} {m m' : Machine}

theorem bind_ok {a : α} (h : x m = .ok a m') : (x >>= f) m = f a m' := by
  show (andThen x f).run m = _
  simp only [andThen, h]

theorem bind_error {s : Signal} (h : x m = .error s m') : (x >>= f) m = .error s m' := by
  show (andThen x f).run m = _
  simp only [andThen, h]

theorem bind_eq_ok {b : β} (h : (x >>= f) m = .ok b m') :
    ∃ a m₁, x m = .ok a m₁ ∧ f a m₁ = .ok b m' := by
  cases hx : x m with
  | ok a m₁ => exact ⟨a, m₁, rfl, (bind_ok hx).symm.trans h⟩
  | error s m₁ =>
    rw [bind_error hx] at h
    cases h

theorem trace_bind_ok {a : α} {l : List Machine} (h : x m = .ok a m') :
    (x >>= f).Trace m l ↔ ∃ l₁ l₂, x.Trace m l₁ ∧ (f a).Trace m' l₂ ∧ l = l₁ ++ l₂ := by
  show (andThen x f).Trace m l ↔ _
  simp only [andThen, h]

theorem trace_bind_error {s : Signal} {l : List Machine} (h : x m = .error s m') :
    (x >>= f).Trace m l ↔ x.Trace m l := by
  show (andThen x f).Trace m l ↔ _
  simp only [andThen, h]

theorem inspect_ok {f : Machine → Except Signal α} {a : α} (h : f m = .ok a) :
    inspect f m = .ok a m := by
  simp only [inspect, h]

theorem inspect_error {f : Machine → Except Signal α} {s : Signal} (h : f m = .error s) :
    inspect f m = .error s m := by
  simp only [inspect, h]

theorem inspect_eq_ok {f : Machine → Except Signal α} {a : α} (h : inspect f m = .ok a m') :
    f m = .ok a ∧ m' = m := by
  cases hf : f m with
  | ok b =>
    rw [inspect_ok hf] at h
    cases h
    exact ⟨rfl, rfl⟩
  | error s =>
    rw [inspect_error hf] at h
    cases h

theorem attempt_ok {a : α} (h : x m = .ok a m') : attempt x m = .ok (.ok a) m' := by
  simp only [attempt, h]

theorem attempt_error {s : Signal} (h : x m = .error s m') :
    attempt x m = .ok (.error s) m' := by
  simp only [attempt, h]

end

/-! ### Small actions -/

/-- A fault, as an action. -/
def fault (f : Fault) : Eval α := throw (.fault f)

/-- The result of a calculation. -/
def compute : Except Fault α → Eval α
  | .ok a => pure a
  | .error f => fault f

/-- A new array. -/
def newArray (xs : Array Value) : Eval Value :=
  modifyGet fun m => (.array m.arrays.size, { m with arrays := m.arrays.push xs })

/-- A new record. -/
def newRecord (r : Record) : Eval Value :=
  modifyGet fun m => (.record m.records.size, { m with records := m.records.push r })

/-- A new function. -/
def newFunction (p : Procedure) : Eval Value :=
  modifyGet fun m => (.function m.procedures.size, { m with procedures := m.procedures.push p })

/-- Change an array. -/
def modifyArray (id : Nat) (f : Array Value → Array Value) : Eval Unit :=
  modify fun m => { m with arrays := m.arrays.modify id f }

/-- Change a record. -/
def modifyRecord (id : Nat) (f : Record → Record) : Eval Unit :=
  modify fun m => { m with records := m.records.modify id f }

/-- Throw a new error. -/
def raise (name message : String) : Eval α := do
  let e ← newRecord (.error name message)
  throw (.thrown e)

/-- Count one statement against the budget. -/
def tick : Eval Unit := do
  modify fun m => { m with budget := m.budget - 1 }
  if (← get).budget < 0 then throw .exhausted

end Eval

end ScopeLowering

import ScopeLowering.Machine.Host
import ScopeLowering.Proofs.Conversions
import ScopeLowering.Proofs.Jumps
import ScopeLowering.Proofs.Lifetimes

/-!
# What code does to a machine

Code changes a machine in a few ways only, and `Machine.Change` lists them. A law about machines
that outlasts each of them is an *invariant* of code (`Machine.Invariant`). This module says how the
ways of putting actions together keep it.

## The model

`Eval.Minds` says two things about an action: every machine that it goes through obeys the
invariant, and it ends with no jumps but those that are allowed. The second one is about scripts
with their jumps in place. So the law comes in two strengths: if it is `strict`, all functions have
code that keeps its jumps, and only then it speaks of jumps.
-/

namespace ScopeLowering

/-- Are there all the frames that there were, with all the names that they had? -/
structure Machine.KeepsNames (m m' : Machine) : Prop where
  size : m.frames.size ≤ m'.frames.size
  declares : ∀ f x, m.declares f x = true → m'.declares f x = true

theorem Machine.KeepsNames.of_same {m m' : Machine} (h : m'.frames = m.frames) :
    m.KeepsNames m' :=
  ⟨Nat.le_of_eq (h ▸ rfl), fun f x hx => by rwa [Machine.declares, own?, slots, h]⟩

theorem Machine.KeepsNames.trans {m m' m'' : Machine} (h : m.KeepsNames m')
    (h' : m'.KeepsNames m'') : m.KeepsNames m'' :=
  ⟨Nat.le_trans h.size h'.size, fun f x hx => h'.declares f x (h.declares f x hx)⟩

/-- A new variable may take the place of another one, but not its name. -/
theorem Machine.KeepsNames.declare (m : Machine) (f : Frame) (name : String) (cell : Cell) :
    m.KeepsNames (m.declare f name cell) := by
  refine ⟨by simp [Machine.declare], fun g x hx => ?_⟩
  rw [Machine.declares, own?_declare]
  split
  · rfl
  · exact hx

theorem Machine.KeepsNames.pushFrame (m : Machine) (slots : List (String × Nat)) :
    m.KeepsNames { m with frames := m.frames.push slots } := by
  refine ⟨by simp, fun f x hx => ?_⟩
  obtain ⟨id, hid⟩ := Option.isSome_iff_exists.mp hx
  have hroom := lt_of_own? hid
  simp only [Machine.declares, own?, Machine.slots, Array.getElem?_push]
  rw [if_neg (Nat.ne_of_lt hroom)]
  exact hx

/-- What code can do to a machine in one step. `P` is true of the code of each function it makes. -/
inductive Machine.Change (P : Code → Prop) (m : Machine) : Machine → Prop where
  | variables {cells : Array Cell} {frames : Array (List (String × Nat))}
    (h : m.KeepsNames { m with cells, frames }) : Change P m { m with cells, frames }
  | arrays (arrays : Array (Array Value)) : Change P m { m with arrays }
  | records (records : Array Record) : Change P m { m with records }
  | native (fn : Native) : Change P m { m with procedures := m.procedures.push (.native fn) }
  | closure (env : Env) {code : Code} (h : P code) :
    Change P m { m with procedures := m.procedures.push (.closure env code) }
  | log (line : String) : Change P m { m with log := m.log.push line }
  | defer {delay : Number} (h : delay.isNaN = false) (callee : Value) (args : List Value) :
    Change P m (m.defer delay callee args)
  | spend : Change P m { m with budget := m.budget - 1 }
  | draw (seed : Nat) : Change P m { m with seed }
  | complete (v : Value) : Change P m { m with completion := v }

/-- Assigning changes a variable, or a property that passes for one. -/
theorem Machine.Change.assign {P : Code → Prop} (m : Machine) (slot : Slot) (v : Value) :
    m.Change P (m.assign slot v) := by
  cases slot with
  | cell id => exact .variables (.of_same rfl)
  | property id name => exact .records _

/-- Whatever code does, frames stay and keep their names. -/
theorem Machine.Change.keepsNames {P : Code → Prop} {m m' : Machine} (h : m.Change P m') :
    m.KeepsNames m' := by
  cases h with
  | arrays | records | native | closure | log | defer | spend | draw | complete =>
    exact .of_same rfl
  | _ => assumption

variable {strict : Prop} {E : Jump → Prop} {α β : Type}

/-- Does the tree keep its jumps, if that is asked for? -/
def Node.KeepsJumpsIf (strict : Prop) (n : Node) : Prop := strict → n.KeepsJumps

theorem Node.KeepsJumpsIf.slot {n c : Node} (h : n.KeepsJumpsIf strict) (hc : c ∈ n.slots) :
    c.KeepsJumpsIf strict := fun hs => (h hs).slot hc

/-- Does the code keep its jumps, if that is asked for? -/
def Code.KeepsJumpsIf (strict : Prop) (code : Code) : Prop := strict → code.KeepsJumps

/-- A law about machines that code keeps. If it is strict, all functions keep their jumps. It may
also say something about each step from one machine to the next. -/
structure Machine.Invariant (strict : Prop) where
  Holds : Machine → Prop
  keep : ∀ {m m' : Machine}, Holds m → m.Change (Code.KeepsJumpsIf strict) m' → Holds m'
  closures : ∀ {m : Machine} {id : Nat} {env : Env} {code : Code}, Holds m →
    m.procedure id = .closure env code → code.KeepsJumpsIf strict
  Step : Machine → Machine → Prop := fun _ _ => True
  step : ∀ {m m' : Machine}, Holds m → m.Change (Code.KeepsJumpsIf strict) m' → Step m m' := by
    exact fun _ _ => trivial

variable {I : Machine.Invariant strict}

/-- The action keeps the invariant all the way, and it ends with the jumps of `E` at most. -/
structure Eval.Minds (I : Machine.Invariant strict) (E : Jump → Prop) (a : Eval α) : Prop where
  states : ∀ {m : Machine} {l : List Machine}, I.Holds m → a.Trace m l → ∀ m' ∈ l, I.Holds m'
  exits : strict → ∀ {m : Machine}, I.Holds m → ∀ j ∈ (a m).jump?, E j
  steps : ∀ {m : Machine} {l : List Machine}, I.Holds m → a.Trace m l → (m :: l).IsChain I.Step

/-- Steps that go on where others end. -/
theorem Machine.isChain_append {R : Machine → Machine → Prop} {m m' : Machine}
    {l₁ l₂ : List Machine} (h₁ : (m :: l₁).IsChain R)
    (hlast : (m :: l₁).getLast (List.cons_ne_nil m l₁) = m') (h₂ : (m' :: l₂).IsChain R) :
    (m :: (l₁ ++ l₂)).IsChain R := by
  induction l₁ generalizing m with
  | nil =>
    cases hlast
    exact h₂
  | cons m₁ l₁ ih =>
    obtain ⟨hstep, hrest⟩ := List.isChain_cons_cons.mp h₁
    exact .cons_cons hstep (ih hrest hlast)

namespace Eval

/-! ### Putting actions together -/

namespace Minds

variable {x : Eval α} {f : α → Eval β}

theorem machine (h : x.Minds I E) {m : Machine} (hm : I.Holds m) : I.Holds (x m).machine := by
  obtain ⟨l, hl⟩ := x.exists_trace m
  rw [← x.getLast_trace hl]
  exact List.forall_mem_cons.mpr ⟨hm, h.states hm hl⟩ _ (List.getLast_mem _)

theorem mono {E' : Jump → Prop} (h : x.Minds I E) (himp : strict → ∀ j, E j → E' j) :
    x.Minds I E' :=
  ⟨h.states, fun hs _ hm j hj => himp hs j (h.exits hs hm j hj), h.steps⟩

/-- An action that looks at the machine. -/
theorem inspect {f : Machine → Except Signal α}
    (h : strict → ∀ m s, f m = .error s → ∀ j ∈ s.jump?, E j) :
    (Eval.inspect f).Minds I E := by
  refine ⟨fun {m l} _ (hl : l = []) => hl ▸ List.forall_mem_nil _, fun hs m _ j hj => ?_,
    fun {m l} _ (hl : l = []) => hl ▸ .singleton m⟩
  cases hf : f m with
  | ok a => rw [inspect_ok hf] at hj; cases hj
  | error s => exact h hs m s hf j (by rwa [inspect_error hf] at hj)

theorem pure (a : α) : (Pure.pure a : Eval α).Minds I E :=
  .inspect fun _ _ _ he => nomatch he

theorem throw {s : Signal} (h : strict → ∀ j ∈ s.jump?, E j) :
    (MonadExcept.throw s : Eval α).Minds I E :=
  .inspect (f := fun _ => .error s) fun hs _ t he => by
    cases he
    exact h hs

theorem throw_mild {s : Signal} (h : s.jump? = none) :
    (MonadExcept.throw s : Eval α).Minds I E :=
  .throw fun _ j hj => by rw [h] at hj; cases hj

theorem fault (f : Fault) : (Eval.fault f : Eval α).Minds I E := throw_mild rfl

/-- An action that changes the machine once. -/
theorem modifyGet {f : Machine → α × Machine}
    (h : ∀ m : Machine, m.Change (Code.KeepsJumpsIf strict) (f m).2) :
    (MonadStateOf.modifyGet f : Eval α).Minds I E := by
  refine ⟨fun {m l} hm (hl : l = [(f m).2]) => ?_, (fun _ m _ j hj => nomatch hj),
    fun {m l} hm (hl : l = [(f m).2]) => ?_⟩
  · subst hl
    exact List.forall_mem_singleton.mpr (I.keep hm (h m))
  · subst hl
    exact .cons_cons (I.step hm (h m)) (.singleton _)

theorem modify {f : Machine → Machine}
    (h : ∀ m : Machine, m.Change (Code.KeepsJumpsIf strict) (f m)) :
    (modifyThe Machine f : Eval Unit).Minds I E := modifyGet h

/-- What follows an action may rely on what is known of its value. -/
theorem bind_of {E' : Jump → Prop} (hx : x.Minds I E') (himp : strict → ∀ j, E' j → E j)
    (hf : ∀ {m m' : Machine} {a : α}, I.Holds m → x m = .ok a m' → (f a).Minds I E) :
    (x >>= f).Minds I E := by
  refine ⟨fun {m l} hm hl => ?_, fun hs m hm j hj => ?_, fun {m l} hm hl => ?_⟩
  · have hend := hx.machine hm
    cases hxm : x m with
    | ok a m' =>
      rw [hxm] at hend
      obtain ⟨l₁, l₂, hl₁, hl₂, rfl⟩ := (trace_bind_ok hxm).mp hl
      exact List.forall_mem_append.mpr ⟨hx.states hm hl₁, (hf hm hxm).states hend hl₂⟩
    | error s m' => exact hx.states hm ((trace_bind_error hxm).mp hl)
  · have hend := hx.machine hm
    cases hxm : x m with
    | ok a m' =>
      rw [hxm] at hend
      rw [bind_ok hxm] at hj
      exact (hf hm hxm).exits hs hend j hj
    | error s m' =>
      rw [bind_error hxm] at hj
      exact himp hs j (hx.exits hs hm j (by rwa [hxm]))
  · have hend := hx.machine hm
    cases hxm : x m with
    | ok a m' =>
      rw [hxm] at hend
      obtain ⟨l₁, l₂, hl₁, hl₂, rfl⟩ := (trace_bind_ok hxm).mp hl
      have hlast := x.getLast_trace hl₁
      rw [hxm] at hlast
      exact Machine.isChain_append (hx.steps hm hl₁) hlast ((hf hm hxm).steps hend hl₂)
    | error s m' => exact hx.steps hm ((trace_bind_error hxm).mp hl)

theorem bind (hx : x.Minds I E) (hf : ∀ a, (f a).Minds I E) : (x >>= f).Minds I E :=
  hx.bind_of (fun _ _ => id) fun _ _ => hf _

/-- What follows a look at the machine may rely on the invariant. -/
theorem get_bind {f : Machine → Eval β} (h : ∀ m, I.Holds m → (f m).Minds I E) :
    ((get : Eval Machine) >>= f).Minds I E := by
  have hget : (get : Eval Machine).Minds I E := inspect (f := .ok) fun _ _ _ he => nomatch he
  refine hget.bind_of (fun _ _ => id) ?_
  rintro m _ _ hm ⟨⟩
  exact h m hm

/-- What follows an attempt has the signal of the action in hands. -/
theorem attempt_bind {E' : Jump → Prop} {f : Except Signal α → Eval β} (hx : x.Minds I E')
    (hok : ∀ a, (f (.ok a)).Minds I E)
    (herror : ∀ s, (strict → ∀ j ∈ s.jump?, E' j) → (f (.error s)).Minds I E) :
    (attempt x >>= f).Minds I E := by
  have hattempt : (attempt x).Minds I E := by
    refine ⟨hx.states, fun _ m _ j hj => ?_, hx.steps⟩
    cases hxm : x m with
    | ok a m' => rw [attempt_ok hxm] at hj; cases hj
    | error s m' => rw [attempt_error hxm] at hj; cases hj
  refine hattempt.bind_of (fun _ _ => id) fun {m m' r} hm hr => ?_
  cases hxm : x m with
  | ok a m' =>
    rw [attempt_ok hxm] at hr
    cases hr
    exact hok a
  | error s m' =>
    rw [attempt_error hxm] at hr
    cases hr
    exact herror s fun hs j hj => hx.exits hs hm j (by rwa [hxm])

end Minds

end Eval

end ScopeLowering

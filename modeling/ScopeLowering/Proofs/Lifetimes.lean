import Mathlib.Data.List.Nodup
import ScopeLowering.Proofs.Marker
import ScopeLowering.Proofs.Placement

/-!
# The life of a variable

A variable is *dead* while it holds the marker, and *live* from then on. It may be assigned as long
as it is live, unless it is a constant. The declaration of a variable does not ask: it stores its
value in the variable of that name that its frame has. So a constant keeps its value only if its
declaration finds it dead, that is, if no other declaration has used up the same variable before.

## The model

`Machine.Settles` says that variables only come to life, and that constants stay as they are from
then on. `Machine.Guards` says besides which variables are not touched at all: the dead ones below a
bound, and the names of the frames below another one. Code that runs in the middle of a block has
the bounds of the machine it starts from, so it leaves the dead variables of the block dead, and
they await their declarations (`Machine.Awaits`).

A tree is *orderly* if no two lexical declarations of one frame share a name and none stands where a
frame of its own would be missing (`Node.IsOrderly`). What a machine needs besides is that each name
of a frame has a variable to itself (`Machine.IsOrderly`).
-/

namespace ScopeLowering

/-! ### Orderly code -/

namespace Node

/-- The statements that a node runs one after the other in a frame made for them. -/
def statements : Node → List Node
  | function _ _ _ xs _ _ | block xs _ | program xs _ | caseClause _ xs _ => xs
  | _ => []

/-- The names that a list of statements declares for the frame it runs in. -/
def lexicalNames (ns : List Node) : List String := ns.flatMap lexicalHere

/-- The names of the lexical declarations that a node runs in one frame. -/
def frameNames : Node → List String
  | switchStmt _ cases _ => cases.flatMap fun c => lexicalNames c.statements
  | forStmt init _ _ _ _ => init.lexicalHere
  | n => lexicalNames n.statements

/-- The statements that a node runs, maybe again and again, without a frame made for them. -/
def inPlace : Node → List Node
  | ifStmt _ yes no _ => [yes, no]
  | whileStmt _ body _ | doWhileStmt body _ _ | forStmt _ _ _ body _ | forEachStmt _ _ body _ _
  | withStmt _ body _ => [body]
  | tryStmt body _ finalizer _ => [body, finalizer]
  | _ => []

/-- Do the lexical declarations that the node runs in one frame declare different names, and does it
run none without a frame? -/
structure IsOrderlyHere (n : Node) : Prop where
  nodup : n.frameNames.Nodup
  inPlace : ∀ c ∈ n.inPlace, c.lexicalHere = []

instance (n : Node) : Decidable n.IsOrderlyHere :=
  decidable_of_iff (n.frameNames.Nodup ∧ ∀ c ∈ n.inPlace, c.lexicalHere = [])
    ⟨fun h => ⟨h.1, h.2⟩, fun h => ⟨h.nodup, h.inPlace⟩⟩

/-- Are all phrases of the tree orderly? -/
def IsOrderly (n : Node) : Prop := ∀ m ∈ n.phrases, m.IsOrderlyHere

instance (n : Node) : Decidable n.IsOrderly :=
  inferInstanceAs (Decidable (∀ m ∈ n.phrases, m.IsOrderlyHere))

theorem IsOrderly.slot {n : Node} (h : n.IsOrderly) {c : Node} (hc : c ∈ n.slots) :
    c.IsOrderly := by
  cases n with
  | absent => cases hc
  | _ => exact ((forall_phrases rfl).mp h).2 c hc

theorem IsOrderly.here {n : Node} (h : n.IsOrderly) (hn : n.isAbsent = false) :
    n.IsOrderlyHere := ((forall_phrases hn).mp h).1

end Node

/-- Are the statements of the function orderly? -/
structure Code.IsOrderly (code : Code) : Prop where
  body : ∀ n ∈ code.body, n.IsOrderly
  nodup : (Node.lexicalNames code.body).Nodup

/-- Are the outermost variables not the properties of an object? -/
def Env.IsRooted (env : Env) : Prop := env.root.subject = none

theorem Env.root_mem_frames (env : Env) : env.root ∈ env.frames := by
  cases h : env.outer.getLast? with
  | none => simp [root, frames, h]
  | some f => simp [root, frames, h, List.mem_of_getLast? h]

theorem Env.IsRooted.push {env : Env} (h : env.IsRooted) (f : Frame) : (env.push f).IsRooted := by
  have hroot : (env.push f).root = env.root := by
    cases env with
    | mk frame outer => cases outer <;> simp [Env.push, Env.frames, Env.root, List.getLast?_cons]
  rw [IsRooted, hroot]
  exact h

theorem Env.IsRooted.withFrame {env : Env} (h : env.IsRooted) {f : Frame} (hf : f.subject = none) :
    (env.withFrame f).IsRooted := by
  cases env with
  | mk frame outer =>
    cases outer with
    | nil => exact hf
    | cons g rest => simpa [IsRooted, Env.root, Env.withFrame, List.getLast?_cons] using h

/-! ### Variables and their names -/

namespace Machine

variable {m : Machine}

theorem find?_bindIn (name x : String) (id : Nat) (slots : List (String × Nat)) :
    ((bindIn name id slots).find? (·.1 == x)).map (·.2) =
      if x = name then some id else (slots.find? (·.1 == x)).map (·.2) := by
  induction slots with
  | nil =>
    by_cases hx : x = name
    · simp [bindIn, hx]
    · simp [bindIn, hx, Ne.symm hx]
  | cons p rest ih =>
    obtain ⟨k, i⟩ := p
    by_cases hk : k = name
    · by_cases hx : x = name
      · simp [bindIn, hk, hx]
      · simp [bindIn, hk, hx, Ne.symm hx]
    · by_cases hx : k = x
      · subst hx
        simp [bindIn, hk]
      · simp only [bindIn, beq_iff_eq, hk, if_false, List.find?_cons, beq_eq_false_iff_ne.mpr hx]
        exact ih

/-- A new variable takes the place of one of the same name. -/
theorem own?_declare (m : Machine) (f g : Frame) (name x : String) (cell : Cell) :
    (m.declare f name cell).own? g x =
      if f.slots = g.slots ∧ g.slots < m.frames.size ∧ x = name then some m.cells.size
      else m.own? g x := by
  unfold own? slots declare
  simp only [Array.getElem?_modify]
  by_cases hslots : f.slots = g.slots
  · by_cases hroom : g.slots < m.frames.size
    · simp [hslots, hroom, find?_bindIn]
    · simp [hslots, hroom]
  · simp [hslots]

theorem lt_of_own? {f : Frame} {x : String} {id : Nat} (h : m.own? f x = some id) :
    f.slots < m.frames.size := by
  by_cases hroom : f.slots < m.frames.size
  · exact hroom
  · simp [own?, slots, hroom] at h

theorem cell_push {id : Nat} (h : id < m.cells.size) (cell : Cell) :
    { m with cells := m.cells.push cell }.cell id = m.cell id := by
  simp only [Machine.cell, Array.getElem?_push]
  rw [if_neg (Nat.ne_of_lt h)]

theorem cell_declare {id : Nat} (h : id < m.cells.size) (f : Frame) (name : String) (cell : Cell) :
    (m.declare f name cell).cell id = m.cell id := cell_push h cell

theorem cell_declare_new (f : Frame) (name : String) (cell : Cell) :
    (m.declare f name cell).cell m.cells.size = cell := by
  simp [Machine.cell, declare]

theorem cell_assign {id : Nat} (h : id < m.cells.size) (j : Nat) (v : Value) :
    (m.assign (.cell j) v).cell id =
      if j = id then { m.cell id with value := v } else m.cell id := by
  simp only [Machine.cell, assign, Array.getElem?_modify]
  split
  · simp [Array.getElem?_eq_getElem h]
  · rfl

/-! ### What becomes of variables -/

/-- Variables only come to life, and constants stay as they are from then on. -/
structure Settles (m m' : Machine) : Prop where
  cells : m.cells.size ≤ m'.cells.size
  isConst : ∀ id < m.cells.size, (m'.cell id).isConst = (m.cell id).isConst
  live : ∀ id < m.cells.size, (m.cell id).value.IsPlain → (m'.cell id).value.IsPlain
  fixed : ∀ id < m.cells.size, (m.cell id).isConst = true → (m.cell id).value.IsPlain →
    (m'.cell id).value = (m.cell id).value

/-- Besides, the dead variables below a bound stay dead, and the names of the frames below another
keep their variables. -/
structure Guards (c f : Nat) (m m' : Machine) : Prop extends m.Settles m' where
  frames : m.frames.size ≤ m'.frames.size
  dead : ∀ id < c, (m.cell id).value = .uninitialized → (m'.cell id).value = .uninitialized
  own : ∀ (F : Frame) (x : String) (id : Nat), F.slots < f → m.own? F x = some id →
    m'.own? F x = some id

theorem Settles.trans {m m' m'' : Machine} (h : m.Settles m') (h' : m'.Settles m'') :
    m.Settles m'' where
  cells := Nat.le_trans h.cells h'.cells
  isConst id hid := (h'.isConst id (Nat.lt_of_lt_of_le hid h.cells)).trans (h.isConst id hid)
  live id hid hv := h'.live id (Nat.lt_of_lt_of_le hid h.cells) (h.live id hid hv)
  fixed id hid hc hv := by
    have hlt := Nat.lt_of_lt_of_le hid h.cells
    exact (h'.fixed id hlt ((h.isConst id hid).trans hc) (h.live id hid hv)).trans
      (h.fixed id hid hc hv)

namespace Guards

variable {m' m'' : Machine} {c f : Nat}

/-- Nothing happens to the variables. -/
theorem of_same (hcells : m'.cells = m.cells) (hframes : m'.frames = m.frames) :
    m.Guards c f m' := by
  have hcell : ∀ id, m'.cell id = m.cell id := fun id => by rw [cell, cell, hcells]
  refine ⟨⟨?_, ?_, ?_, ?_⟩, ?_, ?_, ?_⟩
  · exact Nat.le_of_eq (congrArg Array.size hcells.symm)
  · exact fun id _ => by rw [hcell]
  · exact fun id _ h => by rwa [hcell]
  · exact fun id _ _ _ => by rw [hcell]
  · exact Nat.le_of_eq (congrArg Array.size hframes.symm)
  · exact fun id _ h => by rwa [hcell]
  · exact fun F x id _ h => by rwa [own?, slots, hframes]

theorem refl : m.Guards c f m := of_same rfl rfl

theorem trans (h : m.Guards c f m') (h' : m'.Guards c f m'') : m.Guards c f m'' where
  toSettles := h.toSettles.trans h'.toSettles
  frames := Nat.le_trans h.frames h'.frames
  dead id hid hv := h'.dead id hid (h.dead id hid hv)
  own F x id hF hx := h'.own F x id hF (h.own F x id hF hx)

theorem mono {c' f' : Nat} (h : m.Guards c f m') (hc : c' ≤ c) (hf : f' ≤ f) :
    m.Guards c' f' m' where
  toSettles := h.toSettles
  frames := h.frames
  dead id hid := h.dead id (Nat.lt_of_lt_of_le hid hc)
  own F x id hF := h.own F x id (Nat.lt_of_lt_of_le hF hf)

theorem pushFrame (hf : f ≤ m.frames.size) (slots : List (String × Nat)) :
    m.Guards c f { m with frames := m.frames.push slots } := by
  refine ⟨⟨Nat.le_refl _, fun _ _ => rfl, fun _ _ h => h, fun _ _ _ _ => rfl⟩, ?_,
    fun _ _ h => h, fun F x id hF hx => ?_⟩
  · simp
  · rw [← hx]
    simp only [own?, Machine.slots, Array.getElem?_push]
    rw [if_neg (by omega)]

theorem pushCell (hc : c ≤ m.cells.size) (cell : Cell) :
    m.Guards c f { m with cells := m.cells.push cell } := by
  refine ⟨⟨?_, fun id hid => ?_, fun id hid h => ?_, fun id hid _ _ => ?_⟩, Nat.le_refl _,
    fun id hid h => ?_, fun _ _ _ _ h => h⟩
  · simp
  · rw [cell_push hid]
  · rwa [cell_push hid]
  · rw [cell_push hid]
  · rwa [cell_push (Nat.lt_of_lt_of_le hid hc)]

/-- A new variable is guarded against in a frame below the bound, unless its name is new there. -/
theorem declare {F : Frame} {name : String} (hc : c ≤ m.cells.size)
    (hF : f ≤ F.slots ∨ m.own? F name = none) (cell : Cell) :
    m.Guards c f (m.declare F name cell) := by
  have hcell := @cell_declare m
  refine ⟨⟨?_, fun id hid => ?_, fun id hid h => ?_, fun id hid _ _ => ?_⟩, ?_,
    fun id hid h => ?_, fun G x id hG hx => ?_⟩
  · simp [Machine.declare]
  · rw [hcell hid]
  · rwa [hcell hid]
  · rw [hcell hid]
  · simp [Machine.declare]
  · rwa [hcell (Nat.lt_of_lt_of_le hid hc)]
  · rw [own?_declare, if_neg]
    · exact hx
    · rintro ⟨hslots, _, rfl⟩
      rcases hF with hF | hnone
      · omega
      · have hsame : m.own? F x = m.own? G x := by simp only [own?, slots, hslots]
        rw [← hsame, hnone] at hx
        cases hx

/-- A variable may be assigned if it is no live constant and not one of the dead ones below the
bound. -/
theorem assign {j : Nat} {v : Value} (hv : v.IsPlain)
    (hfixed : (m.cell j).isConst = true → ¬ (m.cell j).value.IsPlain)
    (hlive : j < c → (m.cell j).value.IsPlain) (hc : c ≤ m.cells.size) :
    m.Guards c f (m.assign (.cell j) v) := by
  refine ⟨⟨?_, fun id hid => ?_, fun id hid h => ?_, fun id hid hconst h => ?_⟩, Nat.le_refl _,
    fun id hid h => ?_, fun _ _ _ _ h => h⟩
  · simp [Machine.assign]
  · rw [cell_assign hid]
    split <;> rfl
  · rw [cell_assign hid]
    split
    · exact hv
    · exact h
  · rw [cell_assign hid]
    split
    · rename_i hj
      subst hj
      exact absurd h (hfixed hconst)
    · rfl
  · rw [cell_assign (Nat.lt_of_lt_of_le hid hc)]
    split
    · rename_i hj
      subst hj
      exact absurd h (Value.isPlain_iff.mp (hlive hid))
    · exact h

end Guards

/-! ### Orderly machines -/

/-- Each name of a frame has a variable to itself, and functions have orderly code. -/
structure IsOrderly (m : Machine) : Prop where
  bounded : ∀ {F : Frame} {x : String} {id : Nat}, m.own? F x = some id → id < m.cells.size
  distinct : ∀ {F : Frame} {x y : String} {id : Nat}, m.own? F x = some id →
    m.own? F y = some id → x = y
  closures : ∀ {id : Nat} {env : Env} {code : Code}, m.procedure id = .closure env code →
    env.IsRooted ∧ code.IsOrderly

/-- The second machine has the variables of the first and no new functions of scripts. -/
structure Furnished (m m' : Machine) : Prop where
  cells : m'.cells = m.cells
  frames : m'.frames = m.frames
  closures : ∀ id env code, m'.procedure id = .closure env code →
    m.procedure id = .closure env code

namespace IsOrderly

variable (h : m.IsOrderly)

include h

theorem furnished {m' : Machine} (hf : m.Furnished m') : m'.IsOrderly := by
  have hown : ∀ F x, m'.own? F x = m.own? F x := fun F x => by
    rw [own?, own?, slots, slots, hf.frames]
  refine ⟨fun hx => ?_, fun hx hy => ?_, fun hid => h.closures (hf.closures _ _ _ hid)⟩
  · rw [hf.cells]
    exact h.bounded (hown _ _ ▸ hx)
  · exact h.distinct (hown _ _ ▸ hx) (hown _ _ ▸ hy)

theorem congr {m' : Machine} (hcells : m'.cells = m.cells) (hframes : m'.frames = m.frames)
    (hprocedures : m'.procedures = m.procedures) : m'.IsOrderly :=
  h.furnished ⟨hcells, hframes, fun id env code hid => by rwa [procedure, hprocedures] at hid⟩

theorem pushCell (cell : Cell) : { m with cells := m.cells.push cell }.IsOrderly where
  bounded hx := by
    have := h.bounded hx
    simp only [Array.size_push]
    omega
  distinct := h.distinct
  closures := h.closures

theorem pushFrame {slots : List (String × Nat)}
    (hbounded : ∀ p ∈ slots, p.2 < m.cells.size) (hdistinct : (slots.map (·.2)).Nodup) :
    { m with frames := m.frames.push slots }.IsOrderly := by
  have hown : ∀ F x, { m with frames := m.frames.push slots }.own? F x =
      if F.slots = m.frames.size then (slots.find? (·.1 == x)).map (·.2) else m.own? F x := by
    intro F x
    simp only [own?, Machine.slots, Array.getElem?_push]
    split <;> rfl
  refine ⟨fun {F x id} hx => ?_, fun {F x y id} hx hy => ?_, h.closures⟩
  · rw [hown] at hx
    split at hx
    · obtain ⟨p, hp, rfl⟩ := Option.map_eq_some_iff.mp hx
      exact hbounded p (List.mem_of_find?_eq_some hp)
    · exact h.bounded hx
  · rw [hown] at hx hy
    split at hx
    · rename_i hF
      rw [if_pos hF] at hy
      obtain ⟨p, hp, rfl⟩ := Option.map_eq_some_iff.mp hx
      obtain ⟨q, hq, hid⟩ := Option.map_eq_some_iff.mp hy
      have hpq : q = p := List.inj_on_of_nodup_map hdistinct (List.mem_of_find?_eq_some hq)
        (List.mem_of_find?_eq_some hp) hid
      have hpx := List.find?_some hp
      have hqy := List.find?_some hq
      rw [beq_iff_eq] at hpx hqy
      rw [← hpx, ← hqy, hpq]
    · rename_i hF
      rw [if_neg hF] at hy
      exact h.distinct hx hy

theorem pushProcedure {p : Procedure}
    (hp : ∀ {env code}, p = .closure env code → env.IsRooted ∧ code.IsOrderly) :
    { m with procedures := m.procedures.push p }.IsOrderly where
  bounded := h.bounded
  distinct := h.distinct
  closures {id env code} hid := by
    simp only [procedure, Array.getElem?_push] at hid
    split at hid
    · exact hp hid
    · exact h.closures hid

theorem declare (F : Frame) (name : String) (cell : Cell) : (m.declare F name cell).IsOrderly := by
  have hsize : (m.declare F name cell).cells.size = m.cells.size + 1 := by simp [Machine.declare]
  refine ⟨fun {G x id} hx => ?_, fun {G x y id} hx hy => ?_, h.closures⟩
  · rw [own?_declare] at hx
    split at hx
    · cases hx
      omega
    · have := h.bounded hx
      omega
  · rw [own?_declare] at hx hy
    split at hx <;> split at hy
    · rename_i hx' hy'
      exact hx'.2.2.trans hy'.2.2.symm
    · cases hx
      exact absurd (h.bounded hy) (Nat.lt_irrefl _)
    · cases hy
      exact absurd (h.bounded hx) (Nat.lt_irrefl _)
    · exact h.distinct hx hy

theorem assign (j : Nat) (v : Value) : (m.assign (.cell j) v).IsOrderly where
  bounded hx := by
    simp only [Machine.assign, Array.size_modify]
    exact h.bounded hx
  distinct := h.distinct
  closures := h.closures

end IsOrderly

/-! ### Variables that await their declarations -/

end Machine

/-- May a declaration still store its value in this variable? -/
def Cell.IsOpen (c : Cell) : Prop := c.value = .uninitialized ∨ c.isConst = false

/-- The frame has variables for these names, all made since there were `c`, in which their
declarations may still store a value. -/
def Machine.Awaits (c : Nat) (F : Frame) (names : List String) (m : Machine) : Prop :=
  ∀ x ∈ names, ∃ id, m.own? F x = some id ∧ c ≤ id ∧ (m.cell id).IsOpen

namespace Machine.Awaits

variable {m m' : Machine} {c : Nat} {F : Frame} {names : List String}

theorem nil : m.Awaits c F [] := by simp [Awaits]

/-- What runs in the meantime leaves them alone. -/
theorem keep (h : m.Awaits c F names) (hm : m.IsOrderly)
    (hguards : m.Guards m.cells.size m.frames.size m') : m'.Awaits c F names := by
  intro x hx
  obtain ⟨id, hown, hid, hopen⟩ := h x hx
  have hlt := hm.bounded hown
  refine ⟨id, hguards.own F x id (lt_of_own? hown) hown, hid, ?_⟩
  rcases hopen with hdead | hconst
  · exact .inl (hguards.dead id hlt hdead)
  · exact .inr ((hguards.isConst id hlt).trans hconst)

/-- A new variable awaits its declaration too, if it is dead or no constant. -/
theorem declare (h : m.Awaits c F names) (hm : m.IsOrderly) (hc : c ≤ m.cells.size)
    (hF : F.slots < m.frames.size) (name : String) {cell : Cell} (hcell : cell.IsOpen) :
    (m.declare F name cell).Awaits c F (name :: names) := by
  intro x hx
  rw [own?_declare]
  by_cases hname : x = name
  · rw [if_pos ⟨rfl, hF, hname⟩]
    refine ⟨_, rfl, hc, ?_⟩
    rw [cell_declare_new]
    exact hcell
  · rw [if_neg (fun hall => hname hall.2.2)]
    obtain ⟨id, hown, hid, hopen⟩ := h x ((List.mem_cons.mp hx).resolve_left hname)
    refine ⟨id, hown, hid, ?_⟩
    rw [cell_declare (hm.bounded hown)]
    exact hopen

/-- A declaration uses up its own variable only. -/
theorem assign {x : String} {id : Nat} (h : m.Awaits c F names) (hm : m.IsOrderly)
    (hx : m.own? F x = some id) (hnew : x ∉ names) (v : Value) :
    (m.assign (.cell id) v).Awaits c F names := by
  intro y hy
  obtain ⟨j, hown, hj, hopen⟩ := h y hy
  refine ⟨j, hown, hj, ?_⟩
  have hne : id ≠ j := by
    rintro rfl
    exact hnew (hm.distinct hx hown ▸ hy)
  rw [cell_assign (hm.bounded hown), if_neg hne]
  exact hopen

end Machine.Awaits

end ScopeLowering

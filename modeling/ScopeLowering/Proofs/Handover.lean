import ScopeLowering.Proofs.Entering
import ScopeLowering.Proofs.Landing

/-!
# Handing functions over

A function hoists a variable for each function of its blocks, and a block hands its functions to
them when it is entered. But the machine looks for such a variable by its name, from the frame
around the block outwards, and assigns to what it finds first. That is the hoisted variable only if
no frame in between has the name: a variable of an outer block, a parameter of a `catch` or a
property in a `with` statement comes first, and a `let` or `const` of the function itself has taken
the place of the hoisted variable.

## The model

`Eval.Runs` are the machines that a body goes through once its variables have been set up. As names
are never taken out of a frame, all this time the body has its hoisted names. In an orderly run they
also keep their variables, and these may be assigned from the start, unless they are those of a
`let` or `const` of the body (`Eval.Runs.mayAssign`).

`Eval.Reaches` are the environments that code comes to, from the one of its body on, and
`Eval.ComesTo` are the blocks that a statement enters. They are entered in a new frame inside an
environment that ends in the one of the body, at a machine of the run (`Eval.ComesTo.entered`).

The main statement is `enterBlock_hands_over`: the functions of a block go to what their names stand
for around it, which is never outside of the function, and entering throws just if something of that
may not be assigned. Where no name comes in between this is the hoisted variable, and nothing is
thrown.
-/

namespace ScopeLowering

/-! ### Names that a function hoists -/

/-- The frames and the names that there are at one time are there from then on. -/
def Machine.namesKept (m₀ : Machine) : Machine.Invariant False where
  Holds := m₀.KeepsNames
  keep h hchange := h.trans hchange.keepsNames
  closures _ _ hs := hs.elim

namespace Eval

variable {strict : Prop} {m m' : Machine} {home outer : Env} {body : List Node} {x : String}

theorem declares_declareHoisted {f : Frame} (hroom : f.slots < m.frames.size) {names : List String}
    (h : declareHoisted f names m = .ok () m') (hx : x ∈ names) : m'.declares f x = true := by
  induction names generalizing m with
  | nil => cases hx
  | cons name rest ih =>
    obtain ⟨⟨⟩, m₁, hfirst, hrest⟩ := bind_eq_ok h
    have hname : m₁.declares f name = true := by
      rw [declareMissing, bind_ok (show (get : Eval Machine) m = .ok m m from rfl)] at hfirst
      split at hfirst
      · cases hfirst
        assumption
      · cases hfirst
        simp [Machine.declares, Machine.own?_declare, hroom]
    rcases List.mem_cons.mp hx with rfl | hx
    · have hkeeps := Minds.machine (obeys_declareHoisted (L := .minds m₁.namesKept)
        (E := fun _ => True) f rest) (m := m₁) (.of_same rfl)
      rw [hrest] at hkeeps
      exact hkeeps.declares f x hname
    · obtain ⟨id, hid⟩ := Option.isSome_iff_exists.mp hname
      exact ih (Machine.lt_of_own? hid) hrest hx

/-- The body is fit, and so is the machine that is to run it. The variables that its frame has so
far may be assigned. -/
structure Begins (home : Env) (body : List Node) (m : Machine) : Prop where
  machine : m.IsFit True
  env : home.IsFit True
  statements : ∀ n ∈ body, n.IsFit True
  nodup : (Node.lexicalNames body).Nodup
  isOpen : ∀ x id, m.own? home.frame x = some id → m.MayAssign (.cell id)

/-- A body starts to run in a frame where its variables have been set up: the body of a function in
a call, or that of a script. If this is `strict`, body and machine were fit before. -/
inductive Starts (strict : Prop) (home : Env) (body : List Node) (run : Eval Unit) (m : Machine) :
    Prop where
  | intro {m₀ : Machine} (hbegins : strict → Begins home body m₀)
    (hroom : home.frame.slots < m₀.frames.size) (hentry : enterFunction home body m₀ = .ok () m)
    (hrun : run = runStatements home body ∨ ∃ depth, run = execAll (applyWithin depth) home body)

/-- The machines that a body goes through. -/
inductive Runs (strict : Prop) (home : Env) (body : List Node) (m : Machine) : Prop where
  | intro {m₁ : Machine} {run : Eval Unit} {l : List Machine}
    (hstarts : Starts strict home body run m₁) (htrace : run.Trace m₁ l) (hm : m ∈ m₁ :: l)

/-- Entering a function declares what its body hoists and then what it declares itself. -/
theorem enterFunction_eq_ok (hbody : ∀ n ∈ body, n.isSorted = true ∧ n.isStatement = true)
    (h : enterFunction home body m = .ok () m') :
    ∃ m₁, declareHoisted home.frame (body.flatMap Node.gathered) m = .ok () m₁ ∧
      enterBlock home none body m₁ = .ok () m' := by
  have hnames : hoistedAll body = .ok (body.flatMap Node.gathered) :=
    Node.hoistedAll_eq_gathered fun n hn _ =>
      Node.hoisted_eq_gathered (hbody n hn).1 (Node.isReadable_of_isStatement (hbody n hn).2)
  obtain ⟨names, m₀, hcompute, h⟩ := bind_eq_ok h
  rw [hnames] at hcompute
  cases hcompute
  obtain ⟨⟨⟩, hrest⟩ := bind_eq_ok h
  exact hrest

/-- While a body runs its frame has all the names that it hoists. -/
theorem Runs.declares (h : Runs strict home body m)
    (hbody : ∀ n ∈ body, n.isSorted = true ∧ n.isStatement = true)
    (hx : x ∈ body.flatMap Node.gathered) : m.declares home.frame x = true := by
  obtain @⟨m₁, run, l, ⟨-, hroom, hentry, hrun⟩, htrace, hm⟩ := h
  obtain ⟨m₂, hhoist, hblock⟩ := enterFunction_eq_ok hbody hentry
  have hstart := declares_declareHoisted hroom hhoist hx
  -- from here on names are kept, first by the rest of the entry and then by the run
  have hbody' : ∀ n ∈ body, n.KeepsJumpsIf False := fun _ _ => False.elim
  have hset := Minds.machine (obeys_enterBlock (L := .minds m₂.namesKept) (E := fun _ => True)
    home none hbody') (m := m₂) (.of_same rfl)
  rw [hblock] at hset
  have hkeeps : ∀ m' ∈ m₁ :: l, m₁.KeepsNames m' := by
    refine List.forall_mem_cons.mpr ⟨.of_same rfl, ?_⟩
    rcases hrun with rfl | ⟨depth, rfl⟩
    · exact Minds.states (obeys_runStatements (L := .minds m₁.namesKept) home body hbody')
        (.of_same rfl) htrace
    · exact Minds.states (obeys_execAll (L := .minds m₁.namesKept) (obeys_applyWithin depth) home
        body hbody') (.of_same rfl) htrace
  exact (hkeeps m hm).declares _ x (hset.declares _ x hstart)

/-- What a name stands for around a block is the variable of its function, unless a frame in between
has the name. -/
theorem find_of_between {between : List Frame} (hplain : home.frame.subject = none)
    (hframes : outer.frames = between ++ home.frames) {id : Nat}
    (hown : m.own? home.frame x = some id) :
    m.find outer x = some ((between.findSome? (m.findHere x)).getD (.cell id)) := by
  have hhome : m.findHere x home.frame = some (.cell id) := by
    simp only [Machine.findHere, hplain, hown, Option.map_some]
  rw [Machine.find, hframes, List.findSome?_append, Env.frames, List.findSome?_cons, hhome]
  cases between.findSome? (m.findHere x) <;> rfl

/-- Where no frame in between has the names of the functions, they go to the variables of their
function. -/
theorem receives_eq_hasFor {between : List Frame} {ns : List Node}
    (hfound : ∀ p ∈ Node.functions ns, ∃ id, m.own? home.frame p.1 = some id ∧
      m.find outer p.1 = some ((between.findSome? (m.findHere p.1)).getD (.cell id)))
    (hfree : ∀ p ∈ Node.functions ns, ∀ f ∈ between, m.findHere p.1 f = none) :
    m.Receives outer ns = m.HasFor home.frame ns := by
  funext slot
  refine propext (exists_congr fun p => and_congr_right fun hp => ?_)
  obtain ⟨id, hown, hfind⟩ := hfound p hp
  rw [hfind, hown, List.findSome?_eq_none_iff.mpr (hfree p hp)]
  rfl

end Eval

/-! ### Variables that may be assigned -/

namespace Machine

variable {m m' : Machine} {F : Frame} {names : List String}

/-- The variables of a frame may all be assigned, but for some names. -/
def IsOpenBut (m : Machine) (F : Frame) (names : List String) : Prop :=
  ∀ x ∉ names, ∀ id, m.own? F x = some id → m.MayAssign (.cell id)

theorem IsOpenBut.declare (h : m.IsOpenBut F names) {name : String} {cell : Cell}
    (hcell : name ∈ names ∨ cell.IsAssignable) : (m.declare F name cell).IsOpenBut F names := by
  intro x hx id hid
  rw [own?_declare] at hid
  split at hid
  · rename_i hnew
    cases hid
    refine ⟨by simp [Has, Machine.declare], ?_⟩
    rw [content, cell_declare_new]
    exact hcell.resolve_left fun hname => hx (hnew.2.2 ▸ hname)
  · obtain ⟨hhas, hopen⟩ := h x hx id hid
    have hsize : id < m.cells.size := hhas
    refine ⟨by simp only [Has, Machine.declare, Array.size_push]; omega, ?_⟩
    rw [content, cell_declare hsize]
    exact hopen

end Machine

namespace Eval

variable {m m' : Machine} {F : Frame} {names : List String}

theorem isOpenBut_declareDead {isConst : Bool} {ds : List Node}
    (hds : ∀ x ∈ boundNames ds, x ∈ names) (hm : m.IsOpenBut F names)
    (h : declareDead F isConst ds m = .ok () m') : m'.IsOpenBut F names := by
  induction ds generalizing m with
  | nil =>
    cases h
    exact hm
  | cons d rest ih =>
    cases d with
    | declarator name init span =>
      obtain ⟨hname, hrest⟩ := List.forall_mem_cons.mp hds
      obtain ⟨⟨⟩, m₁, hfirst, hrest'⟩ := bind_eq_ok h
      cases hfirst
      exact ih hrest (hm.declare (.inl hname)) hrest'
    | _ => cases h

theorem isOpenBut_enterBlock {env : Env} {ns : List Node}
    (hns : ∀ x ∈ Node.lexicalNames ns, x ∈ names) (hm : m.IsOpenBut env.frame names)
    (h : enterBlock env none ns m = .ok () m') : m'.IsOpenBut env.frame names := by
  induction ns generalizing m with
  | nil =>
    cases h
    exact hm
  | cons n rest ih =>
    rw [Node.lexicalNames, List.flatMap_cons] at hns
    obtain ⟨hn, hrest⟩ := List.forall_mem_append.mp hns
    obtain ⟨⟨⟩, m₁, hfirst, hrest'⟩ := bind_eq_ok h
    refine ih hrest ?_ hrest'
    cases n with
    | varDecl keyword ds span =>
      cases keyword with
      | varWord =>
        cases hfirst
        exact hm
      | letWord | constWord => exact isOpenBut_declareDead hn hm hfirst
    | function form name params body isArrow span =>
      cases form with
      | expression =>
        cases hfirst
        exact hm
      | declaration =>
        cases name with
        | none => cases hfirst
        | some name =>
          cases hfirst
          exact Machine.IsOpenBut.declare (m := { m with procedures := m.procedures.push _ }) hm
            (.inr ⟨trivial, rfl⟩)
    | _ =>
      cases hfirst
      exact hm

theorem isOpenBut_declareHoisted {hoisted : List String} (hm : m.IsOpenBut F names)
    (h : declareHoisted F hoisted m = .ok () m') : m'.IsOpenBut F names := by
  induction hoisted generalizing m with
  | nil =>
    cases h
    exact hm
  | cons name rest ih =>
    obtain ⟨⟨⟩, m₁, hfirst, hrest⟩ := bind_eq_ok h
    refine ih ?_ hrest
    rw [declareMissing, bind_ok (show (get : Eval Machine) m = .ok m m from rfl)] at hfirst
    split at hfirst
    · cases hfirst
      exact hm
    · cases hfirst
      exact hm.declare (.inr ⟨trivial, rfl⟩)

variable {strict : Prop} {home : Env} {body : List Node} {x : String} {id : Nat}

/-- In an orderly run the variable that a body hoists may be assigned, unless the body declares its
name with `let` or `const`. -/
theorem Runs.mayAssign (h : Runs strict home body m) (hs : strict)
    (hbody : ∀ n ∈ body, n.isSorted = true ∧ n.isStatement = true)
    (hx : x ∈ body.flatMap Node.gathered) (hfree : x ∉ Node.lexicalNames body)
    (hid : m.own? home.frame x = some id) : m.MayAssign (.cell id) := by
  obtain @⟨m₁, run, l, hstarts, htrace, hm⟩ := h
  have hstart : m₁.declares home.frame x = true :=
    (Runs.intro hstarts htrace List.mem_cons_self).declares hbody hx
  obtain @⟨m₀, hbegins, hroom, hentry, hrun⟩ := hstarts
  obtain ⟨id₁, hid₁⟩ := Option.isSome_iff_exists.mp hstart
  obtain ⟨hmachine, henv, hfit, hnodup, hopen⟩ := hbegins hs
  -- the entry leaves the frame with variables that may be assigned, and others that await it
  obtain ⟨hkeeps₁, hopening⟩ := (triple_enterFunction henv hfit m₀
    (c := m₀.cells.size) (f := home.frame.slots) ⟨hmachine, fun _ => Nat.le_refl _,
      fun _ => Nat.le_of_lt hroom⟩ fun _ => ⟨Nat.le_refl _, hroom, .nil⟩).ok hentry
  obtain ⟨m₂, hhoist, hblock⟩ := enterFunction_eq_ok hbody hentry
  have hopen₁ : m₁.IsOpenBut home.frame (Node.lexicalNames body) :=
    isOpenBut_enterBlock (fun _ h => h)
      (isOpenBut_declareHoisted (fun x _ => hopen x) hhoist) hblock
  obtain ⟨hhas, hlive, hconst⟩ := hopen₁ x hfree id₁ hid₁
  -- and the run keeps them
  have hbeyond : m₁.IsBeyond True m₀.cells.size m₁.frames.size :=
    ⟨hkeeps₁.fit, fun _ => (hkeeps₁.guards trivial).cells, fun _ => Nat.le_refl _⟩
  have hawaits : Awaiting True m₀.cells.size home.frame (Node.lexicalNames body ++ []) m₁ :=
    hopening.awaiting
  have hkeeps : m₁.Keeps True m₀.cells.size m₁.frames.size m := by
    rcases List.mem_cons.mp hm with rfl | hm
    · exact .refl hkeeps₁.fit
    rcases hrun with rfl | ⟨depth, rfl⟩
    · exact (triple_runStatements henv body hfit (fun _ => hnodup) m₁ hbeyond
        (by simpa using hawaits)).keeps l htrace m hm
    · exact (triple_execAll (safe_applyWithin depth) henv body hfit
        (fun _ => by simpa using hnodup) _ _ m₁ hbeyond hawaits).keeps l htrace m hm
  have hguards := hkeeps.guards trivial
  obtain rfl : id₁ = id :=
    Option.some.inj ((hguards.own _ _ _ (Machine.lt_of_own? hid₁) hid₁).symm.trans hid)
  exact ⟨Nat.lt_of_lt_of_le hhas hguards.cells, hguards.live id₁ hhas hlive,
    (hguards.isConst id₁ hhas).trans hconst⟩

end Eval

/-! ### Blocks that statements enter -/

/-- The environment ends in the frames of another one, and all its frames are among the first
ones. -/
structure Env.IsWithin (env home : Env) (size : Nat) : Prop where
  frames : ∃ between, env.frames = between ++ home.frames
  room : ∀ f ∈ env.frames, f.slots < size

theorem Env.IsWithin.push {env home : Env} {size size' : Nat} (h : env.IsWithin home size)
    (hsize : size ≤ size') {f : Frame} (hf : f.slots < size') :
    (env.push f).IsWithin home size' := by
  obtain ⟨⟨between, hframes⟩, hroom⟩ := h
  refine ⟨⟨f :: between, congrArg (f :: ·) hframes⟩, List.forall_mem_cons.mpr ⟨hf, ?_⟩⟩
  exact fun g hg => Nat.lt_of_lt_of_le (hroom g hg) hsize

namespace Eval

variable {α β γ : Type} {x : Eval α} {y : Eval β} {m m' m₁ : Machine}

/-- All runs of an action from a machine go through a run of another action from another machine. -/
def Includes (x : Eval α) (m : Machine) (y : Eval β) (m' : Machine) : Prop :=
  ∀ l, x.Trace m l → ∃ before during after, l = before ++ (during ++ after) ∧
    m' ∈ m :: before ∧ y.Trace m' during

namespace Includes

theorem refl (x : Eval α) (m : Machine) : x.Includes m x m :=
  fun l hl => ⟨[], l, [], by simp, List.mem_cons_self, hl⟩

theorem bind_left (h : x.Includes m y m') (f : α → Eval γ) : (x >>= f).Includes m y m' := by
  intro l hl
  cases hx : x m with
  | error s m₁ => exact h l ((trace_bind_error hx).mp hl)
  | ok a m₁ =>
    obtain ⟨l₁, l₂, hl₁, hl₂, rfl⟩ := (trace_bind_ok hx).mp hl
    obtain ⟨before, during, after, rfl, hmem, hy⟩ := h l₁ hl₁
    exact ⟨before, during, after ++ l₂, by simp, hmem, hy⟩

theorem bind_right {a : α} {f : α → Eval γ} (hx : x m = .ok a m₁)
    (h : (f a).Includes m₁ y m') : (x >>= f).Includes m y m' := by
  intro l hl
  obtain ⟨l₁, l₂, hl₁, hl₂, rfl⟩ := (trace_bind_ok hx).mp hl
  obtain ⟨before, during, after, rfl, hmem, hy⟩ := h l₂ hl₂
  have hlast : m₁ ∈ m :: l₁ := by
    have hend := x.getLast_trace hl₁
    rw [hx] at hend
    exact (show _ = m₁ from hend) ▸ List.getLast_mem (List.cons_ne_nil m l₁)
  refine ⟨l₁ ++ before, during, after, by simp, ?_, hy⟩
  rcases List.mem_cons.mp hmem with rfl | hmem
  · exact List.mem_append_left before hlast
  · exact List.mem_append_right (m :: l₁) hmem

theorem trans {z : Eval γ} {m'' : Machine} (h : x.Includes m y m') (h' : y.Includes m' z m'') :
    x.Includes m z m'' := by
  intro l hl
  obtain ⟨before, during, after, rfl, hmem, hy⟩ := h l hl
  obtain ⟨before', during', after', rfl, hmem', hz⟩ := h' during hy
  refine ⟨before ++ before', during', after' ++ after, by simp, ?_, hz⟩
  rcases List.mem_cons.mp hmem' with rfl | hmem'
  · exact List.mem_append_left before' hmem
  · exact List.mem_append_right (m :: before) hmem'

/-- The machine is one of those that the action goes through. -/
theorem mem (h : x.Includes m y m') {l : List Machine} (hl : x.Trace m l) : m' ∈ m :: l := by
  obtain ⟨before, during, after, rfl, hmem, -⟩ := h l hl
  exact List.mem_append_left (during ++ after) hmem

end Includes

/-- What code leaves of frames and names, by the law about them. -/
theorem keepsNames {E : Jump → Prop} {x : Eval α}
    (h : ∀ m₀ : Machine, (Law.minds m₀.namesKept).Obeys E x) (m : Machine) :
    m.KeepsNames (x m).machine := Minds.machine (h m) (.of_same rfl)

/-- The environments that the code of a body comes to, and when: the one of the body, and what is
made of one of them, with a frame more or with a frame renewed. -/
inductive Reaches (home : Env) : Env → Machine → Prop
  | home {m : Machine} (h : ∀ f ∈ home.frames, f.slots < m.frames.size) : Reaches home home m
  | later {env : Env} {m m' : Machine} (h : Reaches home env m) (hm : m.KeepsNames m') :
    Reaches home env m'
  | child {env inner : Env} {m m' : Machine} (h : Reaches home env m)
    (hinner : child env m = .ok inner m') : Reaches home inner m'
  | childOf {env inner : Env} {m m' : Machine} {subject : Value} (h : Reaches home env m)
    (hinner : childOf env subject m = .ok inner m') : Reaches home inner m'
  | copyFrame {env inner : Env} {m m' : Machine} {f : Frame} (h : Reaches home env m)
    (hinner : copyFrame (env.push f) m = .ok inner m') : Reaches home inner m'

variable {apply : Apply} {home env inner : Env} {n : Node} {ns : List Node}

theorem Reaches.isWithin (h : Reaches home env m) : env.IsWithin home m.frames.size := by
  induction h with
  | home h => exact ⟨⟨[], rfl⟩, h⟩
  | later h hm ih => exact ⟨ih.frames, fun f hf => Nat.lt_of_lt_of_le (ih.room f hf) hm.size⟩
  | child h hinner ih | childOf h hinner ih =>
    cases hinner
    exact ih.push (by simp) (by simp)
  | @copyFrame env inner m m' f h hinner ih =>
    obtain ⟨twins, m₁, htwins, hrest⟩ := bind_eq_ok
      (show (copyCells (m.slots (env.push f).frame) >>= fun _ => _) m = .ok inner m' from hinner)
    have hsize := (keepsNames (E := fun _ => False)
      (fun _ => obeys_copyCells (m.slots (env.push f).frame)) m).size
    rw [htwins] at hsize
    cases hrest
    exact ih.push (Nat.le_trans hsize (by simp [Ending.machine])) (by simp)

/-- A frame that is made around here is a new one. -/
theorem Reaches.ne_child (h : Reaches home env m) (hinner : Eval.child env m = .ok inner m') :
    ∀ f ∈ env.frames, f.slots ≠ inner.frame.slots := by
  cases hinner
  exact fun f hf => Nat.ne_of_lt (h.isWithin.room f hf)

/-- The blocks that a statement enters with a frame of their own, and the machines that it has come
to by then. The head of a loop is entered too, but it has no functions. -/
inductive ComesTo (apply : Apply) (env : Env) : Node → Machine → Env → List Node → Machine → Prop
  | block {m m₁ m₂ : Machine} {inner : Env} {ns : List Node} {span : Span}
    (htick : tick m = .ok () m₁) (hinner : child env m₁ = .ok inner m₂) :
    ComesTo apply env (.block ns span) m inner ns m₂
  | handler {m m₁ m₂ m₃ : Machine} {inner : Env} {body finalizer : Node} {param : Option Ident}
    {ns : List Node} {span span' span'' : Span} {v : Value} (htick : tick m = .ok () m₁)
    (hbody : exec apply env body m₁ = .error (.thrown v) m₂)
    (hinner : bindException env param v m₂ = .ok inner m₃) :
    ComesTo apply env
      (.tryStmt body (.catchClause param (.block ns span) span') finalizer span'') m inner ns m₃
  | clause {m m₁ m₂ m₃ m₄ : Machine} {inner : Env} {subject test : Node} {v : Value}
    {before ns after : List Node} {span span' : Span} (htick : tick m = .ok () m₁)
    (hsubject : eval apply env subject m₁ = .ok v m₂) (hinner : child env m₂ = .ok inner m₃)
    (hbefore : enterCases inner env before m₃ = .ok () m₄) :
    ComesTo apply env (.switchStmt subject (before ++ .caseClause test ns span :: after) span') m
      inner ns m₄

theorem includes_enterCases {outer : Env} {before after : List Node} {test : Node} {span : Span}
    (h : enterCases inner outer before m = .ok () m') :
    (enterCases inner outer (before ++ .caseClause test ns span :: after)).Includes m
      (enterBlock inner (some outer) ns) m' := by
  induction before generalizing m with
  | nil =>
    cases h
    exact (Includes.refl _ _).bind_left _
  | cons c rest ih =>
    obtain ⟨⟨⟩, m₁, hfirst, hrest⟩ := bind_eq_ok h
    exact .bind_right hfirst (ih hrest)

theorem ComesTo.includes (h : ComesTo apply env n m inner ns m') :
    (exec apply env n).Includes m (enterBlock inner (some env) ns) m' := by
  cases h with
  | block htick hinner =>
    rw [exec]
    exact .bind_right htick (.bind_right hinner ((Includes.refl _ _).bind_left _))
  | clause htick hsubject hinner hbefore =>
    rw [exec]
    exact .bind_right htick (.bind_right hsubject (.bind_right hinner
      ((includes_enterCases hbefore).bind_left _)))
  | @handler _ m₁ m₂ _ _ body finalizer param _ span span' _ v htick hbody hinner =>
    rw [exec]
    refine .bind_right htick ?_
    dsimp only
    unfold closing
    split
    · exact .bind_right (attempt_error hbody)
        (.bind_right hinner ((Includes.refl _ _).bind_left _))
    · exact Includes.bind_left (x := Eval.attempt _) (Includes.bind_right (attempt_error hbody)
        (.bind_right hinner ((Includes.refl _ _).bind_left _))) _

/-- **How blocks are entered.** A statement that a body comes to, in an environment of the body,
enters its blocks while the body runs, in a new frame around which there are some frames and those
of the body. -/
theorem ComesTo.entered {strict : Prop} {body : List Node} {run : Eval Unit}
    (h : ComesTo apply env n m inner ns m') (hstarts : Starts strict home body run m₁)
    (hrun : run.Includes m₁ (exec apply env n) m) (henv : Reaches home env m)
    (happly : ∀ m₀ : Machine, Law.IsObeyedBy (.minds m₀.namesKept) apply) :
    Runs strict home body m' ∧ (∃ between, env.frames = between ++ home.frames) ∧
      ∀ f ∈ env.frames, f.slots ≠ inner.frame.slots := by
  obtain ⟨l, hl⟩ := run.exists_trace m₁
  refine ⟨.intro hstarts hl ((hrun.trans h.includes).mem hl), henv.isWithin.frames, ?_⟩
  have htick : ∀ {m₁ : Machine}, tick m = .ok () m₁ → Reaches home env m₁ := by
    intro m₁ htick
    have hkeeps := keepsNames (E := fun _ => False)
      (fun m₀ => (Law.minds m₀.namesKept).obeys (Law.minds m₀.namesKept).tick) m
    rw [htick] at hkeeps
    exact henv.later hkeeps
  cases h with
  | block ht hinner => exact (htick ht).ne_child hinner
  | @clause _ m₁ _ _ _ _ subject _ _ _ _ _ _ _ ht hsubject hinner _ =>
    have hkeeps := keepsNames (E := fun _ => False)
      (fun m₀ => obeys_eval (happly m₀) env subject fun h => h.elim) m₁
    rw [hsubject] at hkeeps
    exact ((htick ht).later hkeeps).ne_child hinner
  | @handler _ m₁ _ _ _ body _ _ _ _ _ _ _ ht hbody hinner =>
    have hkeeps := keepsNames (fun m₀ => (Law.minds m₀.namesKept).obeys
      (costs_exec (happly m₀) env body fun h => h.elim)) m₁
    rw [hbody] at hkeeps
    have hreaches := (htick ht).later hkeeps
    obtain ⟨inner', m'', hchild, hrest⟩ := bind_eq_ok hinner
    split at hrest <;> cases hrest <;> exact hreaches.ne_child hchild

end Eval

/-- While a body runs, each of its blocks can be entered with nothing changed but the frame of the
block and the variables that its function has for the functions of the block, as long as these may
be assigned and no frame in between has one of the names. In an orderly run they may be assigned if
they are the hoisted ones: if the body itself declares none of the names with `let` or `const`. But
any frame in between comes first: the functions go to what their names stand for around the block.
If all of that may be assigned it receives the functions, and if something may not, because it is
dead or a constant, entering throws. -/
theorem enterBlock_hands_over {strict : Prop} {home outer inner : Env} {between : List Frame}
    {body ns : List Node} {m : Machine}
    (hbody : ∀ n ∈ body, n.isSorted = true ∧ n.isStatement = true)
    (hplain : home.frame.subject = none) (hruns : Eval.Runs strict home body m)
    (hblock : Node.HasBlock body ns) (hframes : outer.frames = between ++ home.frames)
    (hinner : ∀ f ∈ outer.frames, f.slots ≠ inner.frame.slots) :
    (strict → (∀ p ∈ Node.functions ns, p.1 ∉ Node.lexicalNames body ∧
      ∀ f ∈ between, m.findHere p.1 f = none) →
      Eval.HandsOver inner outer ns (m.HasFor home.frame ns) m) ∧
    ((∀ p ∈ Node.functions ns, ∀ f ∈ between, m.findHere p.1 f = none) →
      (∀ slot, m.HasFor home.frame ns slot → m.MayAssign slot) →
      Eval.HandsOver inner outer ns (m.HasFor home.frame ns) m) ∧
    (∀ p ∈ Node.functions ns, ∃ id, m.own? home.frame p.1 = some id ∧
      m.find outer p.1 = some ((between.findSome? (m.findHere p.1)).getD (.cell id))) ∧
    ((∀ slot, m.Receives outer ns slot → m.MayAssign slot) →
      Eval.HandsOver inner outer ns (m.Receives outer ns) m) ∧
    ∀ slot, m.Receives outer ns slot → ¬(m.content slot).IsAssignable →
      ∃ name ∈ ["ReferenceError", "TypeError"], ∃ message m',
        Eval.enterBlock inner (some outer) ns m = Eval.raise name message m' ∧
          m.SetsUp inner ns (m.Receives outer ns) m' := by
  have hfound : ∀ p ∈ Node.functions ns, ∃ id, m.own? home.frame p.1 = some id ∧
      m.find outer p.1 = some ((between.findSome? (m.findHere p.1)).getD (.cell id)) := by
    intro p hp
    obtain ⟨id, hid⟩ := Option.isSome_iff_exists.mp (hruns.declares hbody (hblock.mem_gathered hp))
    exact ⟨id, hid, Eval.find_of_between hplain hframes hid⟩
  have henters := Eval.enters_enterBlock hinner (hblock.isEnterable fun n hn => (hbody n hn).1)
    fun p hp => ((hfound p hp).elim fun id h => ⟨_, h.2⟩)
  have hdirect : (∀ p ∈ Node.functions ns, ∀ f ∈ between, m.findHere p.1 f = none) →
      (∀ slot, m.HasFor home.frame ns slot → m.MayAssign slot) →
      Eval.HandsOver inner outer ns (m.HasFor home.frame ns) m := by
    intro hfree hopen
    rw [← Eval.receives_eq_hasFor hfound hfree] at hopen ⊢
    exact henters.handsOver hopen
  refine ⟨fun hs hfree => hdirect (fun p hp => (hfree p hp).2) ?_, hdirect, hfound,
    henters.handsOver, fun slot => henters.raises⟩
  rintro slot ⟨p, hp, hslot⟩
  obtain ⟨id, hid, rfl⟩ := Option.map_eq_some_iff.mp hslot
  exact hruns.mayAssign hs hbody (hblock.mem_gathered hp) (hfree p hp).1 hid

/-- `function g() {}`, in a block. -/
def handedBlock : List Node :=
  [.function .declaration (some ⟨"g", .of 11 12⟩) [] [] false (.of 2 17)]

/-- `{ function g() {} }`, as the body of a script. -/
def handingBody : List Node := [.block handedBlock (.of 0 19)]

/-- The environment of a script, in the first frame of a machine. -/
def handingHome : Env := ⟨⟨0, .undefined, none⟩, []⟩

/-- The machine in which the variables of the script have been set up. -/
def handingMachine : Machine :=
  (Eval.enterFunction handingHome handingBody { frames := #[[]] }).machine

theorem enterBlock_hands_over_handingBody :
    Eval.Runs True handingHome handingBody handingMachine ∧
      Node.HasBlock handingBody handedBlock ∧
      (∀ slot, handingMachine.HasFor handingHome.frame handedBlock slot ↔ slot = .cell 0) ∧
      Eval.HandsOver (handingHome.push ⟨1, .undefined, none⟩) handingHome handedBlock
        (handingMachine.HasFor handingHome.frame handedBlock) handingMachine := by
  have hbegins : Eval.Begins handingHome handingBody { frames := #[[]] } := by
    have hnone : ∀ F x, Machine.own? { frames := #[[]] } F x = none := by
      intro F x
      cases hF : F.slots <;> simp [Machine.own?, Machine.slots, hF]
    have horderly : Machine.IsOrderly { frames := #[[]] } := by
      refine ⟨fun hx => ?_, fun hx => ?_, fun hid => ?_⟩
      · cases (hnone _ _).symm.trans hx
      · cases (hnone _ _).symm.trans hx
      · simp [Machine.procedure] at hid
    have hplain : Machine.IsPlain { frames := #[[]] } :=
      (RunOptions.isPlain_machine {}).congr ⟨rfl, rfl, rfl, rfl⟩ rfl rfl
    refine ⟨⟨hplain, fun _ => horderly⟩, ⟨?_, fun _ => rfl⟩, ?_, by decide,
      fun x id hid => by cases (hnone _ x).symm.trans hid⟩
    · exact List.forall_mem_singleton.mpr ⟨trivial, fun _ h => (by cases h)⟩
    · exact List.forall_mem_singleton.mpr ⟨by decide, fun _ => by decide⟩
  have hruns : Eval.Runs True handingHome handingBody handingMachine := by
    obtain ⟨l, hl⟩ := (Eval.runStatements handingHome handingBody).exists_trace handingMachine
    have hentry : Eval.enterFunction handingHome handingBody { frames := #[[]] } =
        .ok () handingMachine := rfl
    exact .intro ⟨fun _ => hbegins, by decide, hentry, .inl rfl⟩ hl List.mem_cons_self
  have hblock : Node.HasBlock handingBody handedBlock :=
    ⟨.block handedBlock (.of 0 19), List.mem_cons_self, .inl rfl, rfl⟩
  have hown : handingMachine.own? handingHome.frame "g" = some 0 := by decide
  have hslot : ∀ slot, handingMachine.HasFor handingHome.frame handedBlock slot ↔
      slot = .cell 0 := by
    refine fun slot => ⟨?_, fun h => ⟨_, List.mem_cons_self, by rw [hown, h]; rfl⟩⟩
    rintro ⟨p, hp, h⟩
    cases List.mem_singleton.mp hp
    rw [hown] at h
    exact (Option.some.inj h).symm
  have hframes : handingHome.frames = [] ++ handingHome.frames := rfl
  exact ⟨hruns, hblock, hslot, (enterBlock_hands_over (by decide) rfl hruns hblock hframes
    (by decide)).1 trivial fun _ _ => ⟨List.not_mem_nil, List.forall_mem_nil _⟩⟩

/-- `let g = 1; { function g() {} } console.log(g);`, from an offset on. -/
def shadowing (i : Int) : List Node :=
  let at_ (l r : Int) : Span := .of (i + l) (i + r)
  let print : Node := .call (.member (.lookup ⟨"console", at_ 31 38⟩)
    (.literal (.json (.str "log")) (at_ 39 42)) false (at_ 31 42)) [.lookup ⟨"g", at_ 43 44⟩]
    (at_ 31 45)
  [.varDecl .letWord [.declarator ⟨"g", at_ 4 5⟩ (.literal (.json (.int 1)) (at_ 8 9)) (at_ 4 9)]
      (at_ 0 10),
    .block [.function .declaration (some ⟨"g", at_ 22 23⟩) [] [] false (at_ 13 28)] (at_ 11 30),
    .exprStmt print (at_ 31 46)]

/-- `{ let g = 1; { function g() {} } console.log(g); }`, where the `let` stands between the
function and the variable that is hoisted for it. -/
def shadowedScript : Node := .program [.block (shadowing 2) (.of 0 50)] (.of 0 50)

/-- Entering the inner block puts the function in the place of the number. -/
theorem shadowedScript_overwritten :
    (runScript shadowedScript {}).toOption =
      some ⟨"undefined", none, ["function g() { [code] }"]⟩ := by
  decide +kernel

/-- The same with no block around it: the `let` has taken the place of the variable that is hoisted
for the function. -/
def replacedScript : Node := .program (shadowing 0) (.of 0 46)

/-- The name is one that the body declares with `let`, and the function goes to that variable. -/
theorem replacedScript_overwritten :
    "g" ∈ Node.lexicalNames (shadowing 0) ∧ (runScript replacedScript {}).toOption =
      some ⟨"undefined", none, ["function g() { [code] }"]⟩ :=
  ⟨by decide, by decide +kernel⟩

end ScopeLowering

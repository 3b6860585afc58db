import ScopeLowering.Machine.Run
import ScopeLowering.Proofs.Entering

/-!
# Logical assignment

`x &&= e` is short for `x && (x = e)`, and so are the forms with `||` and `??`. The machine runs the
short form in its own way: it reads the variable, finds the value to store, which may be the old
one, and stores it, whether it is new or not. To store what a variable holds already changes
nothing, with one exception: a constant may not be assigned at all. So the short form does what the
long one does, but for a constant that the long form leaves alone (`logicalAssign_eq_iff`).
-/

namespace ScopeLowering

/-- An operator that may skip its right side. -/
inductive LogicalOp where
  | both
  | either
  | fallback
  deriving Repr, DecidableEq, Inhabited

namespace LogicalOp

/-- The operator between two operands. -/
def spelling : LogicalOp → String
  | both => "&&"
  | either => "||"
  | fallback => "??"

/-- The operator of an assignment. -/
def assignSpelling (op : LogicalOp) : String := op.spelling ++ "="

/-- Does the operator ask for its right side, after this value on the left? -/
def needs (op : LogicalOp) (v : Value) : Bool := Eval.needsBoth (.str op.spelling) v

/-- `x op= e`, with the spans of the name and of the whole. -/
def short (op : LogicalOp) (x : String) (e : Node) (name place : Span) : Node :=
  .assign (.str op.assignSpelling) (.lookup ⟨x, name⟩) e place

/-- `x op (x = e)`, with the spans of the names, of the assignment and of the whole. -/
def long (op : LogicalOp) (x : String) (e : Node) (name target inner place : Span) : Node :=
  .logical (.str op.spelling) (.lookup ⟨x, name⟩)
    (.assign (.str "=") (.lookup ⟨x, target⟩) e inner) place

end LogicalOp

/-! ### Storing what is there -/

theorem modify_eq_self {α : Type} {xs : Array α} {i : Nat} {f : α → α}
    (h : ∀ a, xs[i]? = some a → f a = a) : xs.modify i f = xs := by
  apply Array.ext_getElem?
  intro j
  rw [Array.getElem?_modify]
  split
  · rename_i hij
    subst hij
    cases hi : xs[i]? with
    | none => rfl
    | some a => rw [Option.map_some, h a hi]
  · rfl

/-- To set a property to what it is changes nothing. -/
theorem Record.set_of_find? {r : Record} {key : Key} {v : Value} (h : r.find? key = some v) :
    r.set key v = r := by
  obtain ⟨⟨k, w⟩, hfind, rfl⟩ := Option.map_eq_some_iff.mp h
  unfold set
  split
  · rename_i i hi
    obtain ⟨-, rfl⟩ := Array.findIdx?_eq_some_iff_findIdx_eq.mp hi
    rw [Array.find?_eq_getElem?_findIdx] at hfind
    rw [modify_eq_self]
    intro p hp
    cases hfind.symm.trans hp
    rfl
  · rename_i hnone
    have hmiss := Array.findIdx?_eq_none_iff.mp hnone _ (Array.mem_of_find?_eq_some hfind)
    rw [Array.find?_some hfind] at hmiss
    cases hmiss

namespace Machine

variable {m : Machine} {env : Env} {x : String} {slot : Slot}

/-- To assign what a name stands for already changes nothing. -/
theorem assign_content (h : m.find env x = some slot) :
    m.assign slot (m.content slot).value = m := by
  cases slot with
  | cell id =>
    have hcells : m.cells.modify id (fun c => { c with value := (m.cell id).value }) = m.cells := by
      refine modify_eq_self fun c hc => ?_
      rw [cell, hc, Option.getD_some]
    rw [content, assign, hcells]
  | property id name =>
    obtain ⟨v, hv⟩ := Option.isSome_iff_exists.mp (contains_of_find h)
    have hrecords : m.records.modify id (·.set (.text name) v) = m.records := by
      refine modify_eq_self fun r hr => Record.set_of_find? ?_
      rwa [record, hr, Option.getD_some] at hv
    rw [content, hv, Option.getD_some, assign, hrecords]

/-- Is this the name of a constant that is alive, and does the operator skip its right side after
it? -/
def SkipsConstant (m : Machine) (env : Env) (op : LogicalOp) (x : String) : Prop :=
  ∃ slot, m.find env x = some slot ∧ (m.content slot).isConst = true ∧
    (m.content slot).value ≠ .uninitialized ∧ op.needs (m.content slot).value = false

end Machine

namespace Eval

variable {m m' : Machine} {env : Env} {x : String} {slot : Slot} {v : Value}

/-! ### Reading and writing -/

theorem get_bind_run {α : Type} (f : Machine → Eval α) :
    ((get : Eval Machine) >>= f) m = f m m := rfl

/-- What is read is the content of a variable that is alive. -/
theorem exists_of_read_ok (h : read env x m = .ok v m') :
    m' = m ∧ ∃ slot, m.find env x = some slot ∧ (m.content slot).value = v ∧
      v ≠ .uninitialized := by
  rw [read, get_bind_run] at h
  cases hfind : m.find env x with
  | none =>
    rw [hfind] at h
    cases h
  | some slot =>
    rw [hfind] at h
    dsimp only at h
    split at h
    · cases h
    · rename_i w hlive
      cases h
      exact ⟨rfl, slot, rfl, rfl, hlive⟩

theorem read_live (hfind : m.find env x = some slot)
    (hlive : (m.content slot).value ≠ .uninitialized) :
    read env x m = .ok (m.content slot).value m := by
  rw [read, get_bind_run, hfind]
  dsimp only
  split
  · exact absurd ‹_› hlive
  · rfl

theorem write_live (hfind : m.find env x = some slot)
    (hlive : (m.content slot).value ≠ .uninitialized) :
    write env x v m =
      if (m.content slot).isConst then raise "TypeError" "Assignment to constant variable." m
      else .ok () (m.assign slot v) := by
  rw [write, get_bind_run, hfind]
  dsimp only
  split
  · exact absurd ‹_› hlive
  · split <;> rfl

/-! ### The two forms -/

/-- The value that a logical assignment stores is the old one, or else that of its right side. -/
theorem combine_logical (op : LogicalOp) (old : Value) (value : Eval Value) :
    combine (.str op.assignSpelling) old value = if op.needs old then value else pure old := by
  cases op with
  | both => rfl
  | either =>
    show (if old.truthy then pure old else value) = if !old.truthy then value else pure old
    cases old.truthy <;> rfl
  | fallback => rfl

section

variable (apply : Apply) (env : Env) (op : LogicalOp) (x : String) (e : Node)

/-- Evaluate the right side and store its value. -/
def store : Eval Value := do
  let v ← eval apply env e
  write env x v
  return v

theorem eval_long (name target inner place : Span) :
    eval apply env (op.long x e name target inner place) =
      read env x >>= fun old => if op.needs old then store apply env x e else pure old := rfl

theorem eval_short (name place : Span) :
    eval apply env (op.short x e name place) =
      (read env x >>= fun old => if op.needs old then eval apply env e else pure old) >>=
        fun v => write env x v >>= fun _ => pure v := by
  have hop : (Json.str op.assignSpelling).isText "=" = false := by cases op <;> rfl
  show assigned _ _ _ >>= _ = _
  rw [assigned, if_neg (by rw [hop]; exact Bool.false_ne_true)]
  simp only [combine_logical]

end

section

variable {apply : Apply} {op : LogicalOp} {e : Node} {name target inner place place' : Span}

/-- What cannot be read fails in the same way in both forms. -/
theorem eval_short_of_read_error {s : Signal} (h : read env x m = .error s m') :
    eval apply env (op.short x e name place) m =
      eval apply env (op.long x e name target inner place') m := by
  rw [eval_short, eval_long, bind_error h, bind_error (bind_error h)]

/-- Where the right side is asked for, both forms store its value. -/
theorem eval_short_of_needs (h : read env x m = .ok v m) (hneeds : op.needs v = true) :
    eval apply env (op.short x e name place) m =
      eval apply env (op.long x e name target inner place') m := by
  have hvalue : (read env x >>= fun old => if op.needs old then eval apply env e else pure old) m =
      eval apply env e m := by rw [bind_ok h, if_pos hneeds]
  rw [eval_short, eval_long, bind_ok h, if_pos hneeds, store]
  cases he : eval apply env e m with
  | ok w m₁ => rw [bind_ok (hvalue.trans he), bind_ok he]
  | error s m₁ => rw [bind_error (hvalue.trans he), bind_error he]

/-- Where the right side is skipped, the long form is done. -/
theorem eval_long_of_not_needs (h : read env x m = .ok v m) (hneeds : op.needs v = false) :
    eval apply env (op.long x e name target inner place) m = .ok v m := by
  rw [eval_long, bind_ok h, if_neg (by simp [hneeds])]
  rfl

/-- Where the right side is skipped, the short form stores the old value. -/
theorem eval_short_of_not_needs (h : read env x m = .ok v m) (hneeds : op.needs v = false) :
    eval apply env (op.short x e name place) m = (write env x v >>= fun _ => pure v) m := by
  have hvalue : (read env x >>= fun old => if op.needs old then eval apply env e else pure old) m =
      .ok v m := by
    rw [bind_ok h, if_neg (by simp [hneeds])]
    rfl
  rw [eval_short, bind_ok hvalue]

/-- Everything but a constant holds the value that the short form stores. -/
theorem eval_short_of_not_skipsConstant (h : ¬m.SkipsConstant env op x) :
    eval apply env (op.short x e name place) m =
      eval apply env (op.long x e name target inner place') m := by
  cases hread : read env x m with
  | error s m' => exact eval_short_of_read_error hread
  | ok v m' =>
    obtain ⟨rfl, slot, hfind, rfl, hlive⟩ := exists_of_read_ok hread
    cases hneeds : op.needs (m'.content slot).value with
    | true => exact eval_short_of_needs hread hneeds
    | false =>
      have hconst : ¬(m'.content slot).isConst = true := fun hconst =>
        h ⟨slot, hfind, hconst, hlive, hneeds⟩
      have hwrite := (write_live (v := (m'.content slot).value) hfind hlive).trans (if_neg hconst)
      rw [Machine.assign_content hfind] at hwrite
      rw [eval_long_of_not_needs hread hneeds, eval_short_of_not_needs hread hneeds, bind_ok hwrite]
      rfl

end

/-- A constant that is skipped is left alone by the long form only. -/
theorem eval_short_of_skipsConstant (apply : Apply) {op : LogicalOp} (e : Node)
    (name target inner place place' : Span) (h : m.SkipsConstant env op x) :
    ∃ v, eval apply env (op.long x e name target inner place') m = .ok v m ∧
      eval apply env (op.short x e name place) m =
        raise "TypeError" "Assignment to constant variable." m := by
  obtain ⟨slot, hfind, hconst, hlive, hneeds⟩ := h
  have hread := read_live hfind hlive
  have hwrite := (write_live (v := (m.content slot).value) hfind hlive).trans (if_pos hconst)
  refine ⟨_, eval_long_of_not_needs hread hneeds, ?_⟩
  rw [eval_short_of_not_needs hread hneeds]
  exact bind_error hwrite

end Eval

/-- **Logical assignment and its expansion.** From any machine, `x op= e` does what `x op (x = e)`
does: it has the same value or the same error, and leaves the same machine. This is so for a name
that stands for nothing, for a dead variable, a live one and a property in a `with` statement. There
is one exception: `x` is a constant that is alive, and its value lets the operator skip the right
side. Then the long form has the value of the constant and changes nothing, but the short one tries
to store that value, and so it throws an error. -/
theorem logicalAssign_eq_iff (apply : Apply) (env : Env) (op : LogicalOp) (x : String) (e : Node)
    (name target inner place place' : Span) (m : Machine) :
    (Eval.eval apply env (op.short x e name place) m =
        Eval.eval apply env (op.long x e name target inner place') m ↔
      ¬m.SkipsConstant env op x) ∧
    (m.SkipsConstant env op x → ∃ v,
      Eval.eval apply env (op.long x e name target inner place') m = .ok v m ∧
      Eval.eval apply env (op.short x e name place) m =
        Eval.raise "TypeError" "Assignment to constant variable." m) := by
  have hskipped := @Eval.eval_short_of_skipsConstant m env x apply op e name
    target inner place place'
  refine ⟨⟨fun heq hskips => ?_, Eval.eval_short_of_not_skipsConstant⟩, hskipped⟩
  obtain ⟨v, hlong, hshort⟩ := hskipped hskips
  cases hshort.symm.trans (heq.trans hlong)

/-- A machine with a constant `x` that is 1. -/
def constantMachine : Machine := { cells := #[⟨.int 1, true⟩], frames := #[[("x", 0)]] }

theorem logicalAssign_eq_iff_constantMachine :
    let env : Env := ⟨⟨0, .undefined, none⟩, []⟩
    let two : Node := .literal (.json (.int 2)) (.of 6 7)
    constantMachine.SkipsConstant env .either "x" ∧
    ∃ v, Eval.eval Eval.applyFunction env
        (LogicalOp.either.long "x" two (.of 0 1) (.of 6 7) (.of 6 11) (.of 0 12)) constantMachine =
          .ok v constantMachine ∧
      Eval.eval Eval.applyFunction env (LogicalOp.either.short "x" two (.of 0 1) (.of 0 7))
        constantMachine =
          Eval.raise "TypeError" "Assignment to constant variable." constantMachine := by
  intro env two
  have hskips : constantMachine.SkipsConstant env .either "x" := by
    refine ⟨.cell 0, by decide, rfl, fun h => ?_, rfl⟩
    cases h
  exact ⟨hskips, (logicalAssign_eq_iff Eval.applyFunction env .either "x" two (.of 0 1) (.of 6 7)
    (.of 6 11) (.of 0 7) (.of 0 12) constantMachine).2 hskips⟩

/-- `const x = 1; x ||= 2;`, or with the long form `x || (x = 2)`. -/
def keepingScript (isLong : Bool) : Node :=
  let number (v start stop : Int) : Node := .literal (.json (.int v)) (.of start stop)
  let one : Node := .varDecl .constWord [.declarator ⟨"x", .of 6 7⟩ (number 1 10 11) (.of 6 11)]
    (.of 0 12)
  let assign : Node :=
    if isLong then
      LogicalOp.either.long "x" (number 2 23 24) (.of 13 14) (.of 19 20) (.of 19 24) (.of 13 25)
    else LogicalOp.either.short "x" (number 2 19 20) (.of 13 14) (.of 13 20)
  .program [one, .exprStmt assign (.of 13 (if isLong then 26 else 21))]
    (.of 0 (if isLong then 26 else 21))

/-- The two forms do not agree on a constant. -/
theorem keepingScript_differs :
    (runScript (keepingScript false) {}).toOption =
      some ⟨"undefined", some "TypeError: Assignment to constant variable.", []⟩ ∧
    (runScript (keepingScript true) {}).toOption = some ⟨"1", none, []⟩ := by
  constructor <;> decide +kernel

end ScopeLowering

import ScopeLowering.Proofs.Confinement
import ScopeLowering.Proofs.Orderliness

/-!
# Constants are written once

In a run of a script without the two tags that stand for clashing and for unframed declarations,
variables settle (`constants_settle`): a constant gets its value once, by its declaration, and a
variable that has come to life never dies. This is the stronger of the two laws that runs obey, for
machines and code that are orderly.

## The model

The hosts are set up before the script runs. They bring arrays, records and functions, built-in ones
or their own (`Eval.Furnishes`), but no variables, since these belong to the frames of scripts, and
no functions that scripts define.
-/

namespace ScopeLowering

namespace Eval

variable {strict : Prop} {α : Type}

/-- The action makes neither variables nor functions of scripts. -/
def Furnishes (a : Eval α) : Prop := ∀ m l, a.Trace m l → ∀ m' ∈ l, m.Furnished m'

/-- Furnishing is safe. -/
theorem IsDiscreet.safe_of_furnishes {a : Eval α} {Q : α → Prop} (h : a.IsDiscreet Q)
    (hf : a.Furnishes) : a.Safe strict Q := by
  refine h.safe_of_keeps fun m l hm hl => ?_
  have hsame : ∀ x ∈ m :: l, m.Furnished x :=
    List.forall_mem_cons.mpr ⟨⟨rfl, rfl, fun _ _ _ hid => hid⟩, hf m l hl⟩
  refine fun x hx y hy => ⟨⟨h.plain hm.plain hl y hy, fun hs => ?_⟩, fun _ => .of_same ?_ ?_⟩
  · exact (hm.orderly hs).furnished (hsame y hy)
  · rw [(hsame x hx).cells, (hsame y hy).cells]
  · rw [(hsame x hx).frames, (hsame y hy).frames]

/-- An assignment leaves constants alone, and it does not bring variables to life. -/
theorem cell_write (env : Env) (name : String) (v : Value) {m : Machine} {id : Nat}
    (hid : id < m.cells.size)
    (hfixed : (m.cell id).isConst = true ∨ (m.cell id).value = .uninitialized) :
    (write env name v m).machine.cell id = m.cell id := by
  rw [write, bind_ok (show (get : Eval Machine) m = .ok m m from rfl)]
  split
  · exact Machine.cell_declare hid _ _ _
  · rename_i slot _
    dsimp only
    split
    · rfl
    · rename_i hlive
      split
      · rfl
      · rename_i hconst
        cases slot with
        | property => rfl
        | cell j =>
          have hne : j ≠ id := by
            rintro rfl
            exact hfixed.elim hconst hlive
          exact (Machine.cell_assign hid j v).trans (if_neg hne)

end Eval

theorem RunOptions.isOrderly_machine (options : RunOptions) : options.machine.IsOrderly := by
  refine ⟨fun hx => ?_, fun hx => ?_, fun hid => ?_⟩
  · simp [Machine.own?, Machine.slots, machine] at hx
  · simp [Machine.own?, Machine.slots, machine] at hx
  · simp [Machine.procedure, machine] at hid

/-- **Constants are written once, and dead variables that come to life stay alive.** Say that no
binding of a sorted script is tagged as a duplicate or for missing braces, and that neither the
script nor the hosts mention the marker. Then in every run, timers included, from each state to each
later one: no variable that is alive dies, and a constant that is alive keeps its value. So its
value changes at most once, from the marker to what it is from then on. That is the work of its
declaration, since an assignment changes neither a constant nor a dead variable. -/
theorem constants_settle (script : Node) (options : RunOptions) (s : Scoping)
    (hsorted : script.isSorted = true) (hplain : script.IsPlain)
    (h : Scoping.ofScript script = .ok s)
    (htags : ∀ b ∈ s.table.bindings,
      .duplicateBlockBinding ∉ b.hazards ∧ .unbracedDeclaration ∉ b.hazards)
    (hhosts : options.hosts.IsDiscreet fun _ => True) (hfurnishes : options.hosts.Furnishes) :
    (∀ l, (Eval.runScript script options.hosts).Trace options.machine l →
      (options.machine :: l).Pairwise Machine.Settles) ∧
    ∀ env name v (m : Machine) id, id < m.cells.size →
      (m.cell id).isConst = true ∨ (m.cell id).value = .uninitialized →
      (Eval.write env name v m).machine.cell id = m.cell id := by
  refine ⟨fun l hl => ?_, fun env name v m id => Eval.cell_write env name v⟩
  have hscript : script.IsFit True := ⟨hplain, fun _ => Scoping.isOrderly h hsorted htags⟩
  have hmachine : options.machine.IsFit True :=
    ⟨options.isPlain_machine, fun _ => options.isOrderly_machine⟩
  have hrun := Eval.safe_runScript hscript (hhosts.safe_of_furnishes hfurnishes)
  exact ((hrun _ hmachine).pairwise hl).imp fun hstep => hstep.settles trivial

/-- `for (const k of [1, 2]) setTimeout(function () { console.log(k); });`, where each timer has a
constant of its own. -/
def timerScript : Node :=
  let number (v start stop : Int) : Node := .literal (.json (.int v)) (.of start stop)
  let print : Node := .call (.member (.lookup ⟨"console", .of 49 56⟩)
    (.literal (.json (.str "log")) (.of 57 60)) false (.of 49 60)) [.lookup ⟨"k", .of 61 62⟩]
    (.of 49 63)
  let task : Node := .function .expression none [] [.exprStmt print (.of 49 64)] false (.of 35 66)
  .program [.forEachStmt
    (.varDecl .constWord [.declarator ⟨"k", .of 11 12⟩ .absent (.of 11 12)] (.of 5 12))
    (.arrayLit [number 1 17 18, number 2 20 21] (.of 16 22))
    (.exprStmt (.call (.lookup ⟨"setTimeout", .of 24 34⟩) [task] (.of 24 67)) (.of 24 68)) true
    (.of 0 68)] (.of 0 68)

theorem arrayHost_furnishes : arrayHost.hosts.Furnishes := by
  intro m l hl
  obtain ⟨l₁, l₂, hl₁, hl₂, rfl⟩ := (Eval.trace_bind_ok rfl).mp hl
  cases (show l₂ = [] from hl₂)
  cases (show l₁ = [_] from hl₁)
  exact List.forall_mem_singleton.mpr ⟨rfl, rfl, fun _ _ _ hid => hid⟩

theorem constants_settle_timerScript :
    timerScript.isSorted = true ∧ timerScript.IsPlain ∧
    (runScript timerScript arrayHost).toOption = some ⟨"undefined", none, ["1", "2"]⟩ ∧
    ∃ l, (Eval.runScript timerScript arrayHost.hosts).Trace arrayHost.machine l ∧
      (arrayHost.machine :: l).Pairwise Machine.Settles := by
  have hsorted : timerScript.isSorted = true := by decide
  have hplain : timerScript.IsPlain := by decide
  obtain ⟨s, hs, htags⟩ := exists_ok_of_any (show (Scoping.ofScript timerScript).toOption.any
    (fun s => s.table.bindings.all fun b =>
      .duplicateBlockBinding ∉ b.hazards ∧ .unbracedDeclaration ∉ b.hazards) = true
    by decide +kernel)
  obtain ⟨l, hl⟩ := (Eval.runScript timerScript arrayHost.hosts).exists_trace arrayHost.machine
  simp only [List.all_eq_true, decide_eq_true_eq] at htags
  exact ⟨hsorted, hplain, by decide +kernel, l, hl,
    (constants_settle timerScript arrayHost s hsorted hplain hs htags arrayHost_isDiscreet
      arrayHost_furnishes).1 l hl⟩

end ScopeLowering

import Mathlib.Data.List.Chain
import ScopeLowering.Proofs.Lifetimes

/-!
# Discreet actions

What the actions of a machine do with the marker and with variables, and how that is put together.

## The model

`Eval.Safe` says that an action takes a fit machine through fit machines only, with nothing in its
hands but plain values, and that variables settle on the way. `Eval.Triple` says so of an action
that is run while the variables of a frame are set up or await their declarations: it has a
condition for the machine before it and one for the machine after it.

All this comes in two strengths. A fit machine is a plain one, and if the laws are `strict`, an
orderly one too; only then they speak of variables.
-/

namespace ScopeLowering

variable {strict : Prop} {α β : Type}

/-! ### Fit things -/

/-- Is the tree plain, and orderly if that is asked for? -/
structure Node.IsFit (strict : Prop) (n : Node) : Prop where
  plain : n.IsPlain
  orderly : strict → n.IsOrderly

/-- Is the environment plain, and rooted if that is asked for? -/
structure Env.IsFit (strict : Prop) (env : Env) : Prop where
  plain : env.IsPlain
  rooted : strict → env.IsRooted

/-- Is the code plain, and orderly if that is asked for? -/
structure Code.IsFit (strict : Prop) (code : Code) : Prop where
  plain : ∀ n ∈ code.body, n.IsPlain
  orderly : strict → code.IsOrderly

/-- Is the machine plain, and orderly if that is asked for? -/
structure Machine.IsFit (strict : Prop) (m : Machine) : Prop where
  plain : m.IsPlain
  orderly : strict → m.IsOrderly

theorem Node.IsFit.slot {n : Node} (h : n.IsFit strict) {c : Node} (hc : c ∈ n.slots) :
    c.IsFit strict := ⟨h.plain.slot hc, fun hs => (h.orderly hs).slot hc⟩

theorem Node.IsFit.inPlace {n : Node} (h : n.IsFit strict) {c : Node} (hc : c ∈ n.inPlace)
    (hs : strict) : c.lexicalHere = [] := by
  cases n with
  | absent => cases hc
  | _ => exact ((h.orderly hs).here rfl).inPlace c hc

/-- The code of a function, made from its node. -/
theorem Node.IsFit.code {form : FunctionForm} {name : Option Ident} {params : List Ident}
    {body : List Node} {isArrow : Bool} {span : Span}
    (h : (Node.function form name params body isArrow span).IsFit strict) :
    Code.IsFit strict ⟨name, params, body, isArrow⟩ := by
  have hslot : ∀ n ∈ body, n.IsFit strict := fun n hn => h.slot (by simp [hn])
  exact ⟨fun n hn => (hslot n hn).plain, fun hs =>
    ⟨fun n hn => (hslot n hn).orderly hs, ((h.orderly hs).here rfl).nodup⟩⟩

theorem Env.IsFit.push {env : Env} (h : env.IsFit strict) {f : Frame} (hf : f.IsPlain) :
    (env.push f).IsFit strict := ⟨h.plain.push hf, fun hs => (h.rooted hs).push f⟩

theorem Env.IsFit.withFrame {env : Env} (h : env.IsFit strict) {f : Frame} (hf : f.IsPlain)
    (hsubject : f.subject = none) : (env.withFrame f).IsFit strict :=
  ⟨h.plain.withFrame hf, fun hs => (h.rooted hs).withFrame hsubject⟩

/-! ### What an action does to the machine -/

namespace Machine

/-- One step of a run: to a fit machine, in which variables have settled. -/
structure Step (strict : Prop) (m m' : Machine) : Prop where
  fit : m'.IsFit strict
  settles : strict → m.Settles m'

/-- The machine becomes another fit one, and its variables are guarded. -/
structure Keeps (strict : Prop) (c f : Nat) (m m' : Machine) : Prop where
  fit : m'.IsFit strict
  guards : strict → m.Guards c f m'

/-- Is the machine fit, with at least so many variables and frames? -/
structure IsBeyond (strict : Prop) (c f : Nat) (m : Machine) : Prop where
  fit : m.IsFit strict
  cells : strict → c ≤ m.cells.size
  frames : strict → f ≤ m.frames.size

variable {c f : Nat} {m m' m'' : Machine}

theorem Step.trans (h : m.Step strict m') (h' : m'.Step strict m'') : m.Step strict m'' :=
  ⟨h'.fit, fun hs => (h.settles hs).trans (h'.settles hs)⟩

instance : Trans (Step strict) (Step strict) (Step strict) := ⟨Step.trans⟩

namespace Keeps

theorem step (h : m.Keeps strict c f m') : m.Step strict m' :=
  ⟨h.fit, fun hs => (h.guards hs).toSettles⟩

theorem refl (h : m.IsFit strict) : m.Keeps strict c f m := ⟨h, fun _ => .refl⟩

theorem trans (h : m.Keeps strict c f m') (h' : m'.Keeps strict c f m'') :
    m.Keeps strict c f m'' := ⟨h'.fit, fun hs => (h.guards hs).trans (h'.guards hs)⟩

theorem mono {c' f' : Nat} (h : m.Keeps strict c f m') (hc : strict → c' ≤ c)
    (hf : strict → f' ≤ f) : m.Keeps strict c' f' m' :=
  ⟨h.fit, fun hs => (h.guards hs).mono (hc hs) (hf hs)⟩

/-- What becomes of a machine if its variables and functions stay as they are. -/
theorem of_same (h : m.IsFit strict) (hplain : m'.IsPlain) (hcells : m'.cells = m.cells)
    (hframes : m'.frames = m.frames) (hprocedures : m'.procedures = m.procedures) :
    m.Keeps strict c f m' :=
  ⟨⟨hplain, fun hs => (h.orderly hs).congr hcells hframes hprocedures⟩,
    fun _ => .of_same hcells hframes⟩

end Keeps

namespace IsBeyond

theorem keeps (h : m.IsBeyond strict c f) (hkeeps : m.Keeps strict c f m') :
    m'.IsBeyond strict c f :=
  ⟨hkeeps.fit, fun hs => Nat.le_trans (h.cells hs) (hkeeps.guards hs).cells,
    fun hs => Nat.le_trans (h.frames hs) (hkeeps.guards hs).frames⟩

theorem self (h : m.IsFit strict) : m.IsBeyond strict m.cells.size m.frames.size :=
  ⟨h, fun _ => Nat.le_refl _, fun _ => Nat.le_refl _⟩

end IsBeyond

end Machine

/-! ### Laws about actions -/

namespace Eval

/-- From this machine, the action goes through steps of a run and keeps the machine all along. If it
gives a value, that has the property, and if it gives a signal, that is plain. -/
structure Holds (strict : Prop) (c f : Nat) (a : Eval α) (Q : α → Machine → Prop)
    (m : Machine) : Prop where
  trace : ∀ l, a.Trace m l → List.IsChain (Machine.Step strict) (m :: l)
  keeps : ∀ l, a.Trace m l → ∀ m' ∈ l, m.Keeps strict c f m'
  ok : ∀ {v m'}, a m = .ok v m' → m.Keeps strict c f m' ∧ Q v m'
  error : ∀ {s m'}, a m = .error s m' → m.Keeps strict c f m' ∧ s.IsPlain

/-- The law of an action that is run while a frame is set up or its variables await their
declarations. -/
def Triple (strict : Prop) (c f : Nat) (P : Machine → Prop) (a : Eval α)
    (Q : α → Machine → Prop) : Prop :=
  ∀ m : Machine, m.IsBeyond strict c f → P m → a.Holds strict c f Q m

/-- The law of an action that is run at any time. -/
def Safe (strict : Prop) (a : Eval α) (Q : α → Prop) : Prop :=
  ∀ m : Machine, m.IsFit strict →
    a.Holds strict m.cells.size m.frames.size (fun v _ => Q v) m

/-- What no safe action can make false. -/
def Steady (strict : Prop) (P : Machine → Prop) : Prop :=
  ∀ m m' : Machine, m.IsFit strict → m.Keeps strict m.cells.size m.frames.size m' → P m → P m'

/-- What holds of a value, or else the signal is plain. -/
def OrPlain (Q : α → Prop) : Except Signal α → Prop
  | .ok v => Q v
  | .error s => s.IsPlain

variable {c f : Nat} {m : Machine} {x : Eval α} {k : α → Eval β}

namespace Holds

variable {Q Q' : α → Machine → Prop} {R : β → Machine → Prop}

/-- Of the machines that the action goes through, each one has come out of each earlier one. -/
theorem pairwise (h : x.Holds strict c f Q m) {l : List Machine} (hl : x.Trace m l) :
    (m :: l).Pairwise (Machine.Step strict) := (h.trace l hl).pairwise

theorem imp (h : x.Holds strict c f Q m) {c' f' : Nat} (hc : strict → c' ≤ c)
    (hf : strict → f' ≤ f) (hQ : ∀ v m', m.Keeps strict c f m' → Q v m' → Q' v m') :
    x.Holds strict c' f' Q' m where
  trace := h.trace
  keeps l hl m' hm' := (h.keeps l hl m' hm').mono hc hf
  ok hv := by
    obtain ⟨hkeeps, hq⟩ := h.ok hv
    exact ⟨hkeeps.mono hc hf, hQ _ _ hkeeps hq⟩
  error hs := (h.error hs).imp (·.mono hc hf) id

theorem bind (hx : x.Holds strict c f Q m)
    (hk : ∀ a m', m.Keeps strict c f m' → Q a m' → (k a).Holds strict c f R m') :
    (x >>= k).Holds strict c f R m := by
  cases hm : x m with
  | error s m' =>
    refine ⟨fun l hl => hx.trace l ((trace_bind_error hm).mp hl),
      fun l hl => hx.keeps l ((trace_bind_error hm).mp hl), fun hv => ?_, fun ht => ?_⟩
    · rw [bind_error hm] at hv
      cases hv
    · rw [bind_error hm] at ht
      cases ht
      exact hx.error hm
  | ok a m' =>
    obtain ⟨hkeeps, hq⟩ := hx.ok hm
    have hka := hk a m' hkeeps hq
    refine ⟨fun l hl => ?_, fun l hl y hy => ?_, fun hv => ?_, fun ht => ?_⟩
    · obtain ⟨l₁, l₂, hl₁, hl₂, rfl⟩ := (trace_bind_ok hm).mp hl
      have hlast := x.getLast_trace hl₁
      rw [hm] at hlast
      obtain ⟨hhead, htail⟩ := List.isChain_cons.mp (hka.trace l₂ hl₂)
      refine List.isChain_append.mpr ⟨hx.trace l₁ hl₁, htail, fun y hy z hz => ?_⟩
      rw [List.getLast?_eq_some_getLast (List.cons_ne_nil m l₁), hlast] at hy
      cases hy
      exact hhead z hz
    · obtain ⟨l₁, l₂, hl₁, hl₂, rfl⟩ := (trace_bind_ok hm).mp hl
      rcases List.mem_append.mp hy with hy | hy
      · exact hx.keeps l₁ hl₁ y hy
      · exact hkeeps.trans (hka.keeps l₂ hl₂ y hy)
    · rw [bind_ok hm] at hv
      obtain ⟨hkeeps', hr⟩ := hka.ok hv
      exact ⟨hkeeps.trans hkeeps', hr⟩
    · rw [bind_ok hm] at ht
      obtain ⟨hkeeps', hplain⟩ := hka.error ht
      exact ⟨hkeeps.trans hkeeps', hplain⟩

theorem attempt (h : x.Holds strict c f Q m) :
    (attempt x).Holds strict c f (fun r m' => OrPlain (Q · m') r) m := by
  cases hm : x m with
  | ok a m' =>
    refine ⟨h.trace, h.keeps, fun hv => ?_, fun hs => ?_⟩
    · rw [attempt_ok hm] at hv
      cases hv
      exact h.ok hm
    · rw [attempt_ok hm] at hs
      cases hs
  | error s m' =>
    refine ⟨h.trace, h.keeps, fun hv => ?_, fun ht => ?_⟩
    · rw [attempt_error hm] at hv
      cases hv
      exact h.error hm
    · rw [attempt_error hm] at ht
      cases ht

theorem inspect {g : Machine → Except Signal α} (hm : m.IsFit strict)
    (hok : ∀ a, g m = .ok a → Q a m) (herror : ∀ s, g m = .error s → s.IsPlain) :
    (Eval.inspect g).Holds strict c f Q m := by
  refine ⟨fun l hl => ?_, fun l hl => ?_, fun hv => ?_, fun hs => ?_⟩
  · cases (show l = [] from hl)
    exact List.isChain_singleton m
  · cases (show l = [] from hl)
    exact fun _ => nofun
  · obtain ⟨hg, rfl⟩ := inspect_eq_ok hv
    exact ⟨.refl hm, hok _ hg⟩
  · cases hg : g m with
    | ok a =>
      rw [inspect_ok hg] at hs
      cases hs
    | error t =>
      rw [inspect_error hg] at hs
      cases hs
      exact ⟨.refl hm, herror _ hg⟩

theorem pure {a : α} (hm : m.IsFit strict) (hq : Q a m) :
    (Pure.pure a : Eval α).Holds strict c f Q m :=
  .inspect (g := fun _ => .ok a) hm (fun b hb => by cases hb; exact hq) fun _ hs => by cases hs

theorem modifyGet {g : Machine → α × Machine} (hkeeps : m.Keeps strict c f (g m).2)
    (hq : Q (g m).1 (g m).2) : (modifyGet g : Eval α).Holds strict c f Q m := by
  refine ⟨fun l hl => ?_, fun l hl => ?_, fun hv => ?_, fun hs => ?_⟩
  · cases (show l = [(g m).2] from hl)
    exact List.isChain_pair.mpr hkeeps.step
  · cases (show l = [(g m).2] from hl)
    exact List.forall_mem_singleton.mpr hkeeps
  · cases hv
    exact ⟨hkeeps, hq⟩
  · cases hs

/-- An action that looks at the machine. -/
theorem get_bind {g : Machine → Eval β} (h : (g m).Holds strict c f R m) :
    ((get : Eval Machine) >>= g).Holds strict c f R m := by
  have htail : ∀ l, ((get : Eval Machine) >>= g).Trace m l → (g m).Trace m l := by
    rintro l ⟨l₁, l₂, hl₁, hl₂, rfl⟩
    cases (show l₁ = [] from hl₁)
    exact hl₂
  exact ⟨fun l hl => h.trace l (htail l hl), fun l hl => h.keeps l (htail l hl), h.ok, h.error⟩

end Holds

namespace Triple

variable {P : Machine → Prop} {Q Q' : α → Machine → Prop} {R : β → Machine → Prop}

theorem of_imp {P' : Machine → Prop} (h : Triple strict c f P x Q) (hP : ∀ m, P' m → P m) :
    Triple strict c f P' x Q := fun m hm hp => h m hm (hP m hp)

theorem imp (h : Triple strict c f P x Q) (hQ : ∀ v m, Q v m → Q' v m) :
    Triple strict c f P x Q' :=
  fun m hm hp => (h m hm hp).imp (fun _ => Nat.le_refl c) (fun _ => Nat.le_refl f)
    fun v m' _ hq => hQ v m' hq

theorem bind (hx : Triple strict c f P x Q) (hk : ∀ a, Triple strict c f (Q a) (k a) R) :
    Triple strict c f P (x >>= k) R :=
  fun m hm hp => (hx m hm hp).bind fun a m' hkeeps hq => hk a m' (hm.keeps hkeeps) hq

/-- A condition that does not depend on the machine. -/
theorem assuming {A : Prop} (h : A → Triple strict c f P x Q) :
    Triple strict c f (fun m => A ∧ P m) x Q := fun m hm hp => h hp.1 m hm hp.2

theorem attempt (h : Triple strict c f P x Q) :
    Triple strict c f P (attempt x) fun r m => OrPlain (Q · m) r :=
  fun m hm hp => (h m hm hp).attempt

theorem get_bind {g : Machine → Eval β} (h : ∀ m, Triple strict c f P (g m) R) :
    Triple strict c f P ((get : Eval Machine) >>= g) R :=
  fun m hm hp => .get_bind (h m m hm hp)

theorem throw {s : Signal} (hs : s.IsPlain) : Triple strict c f P (throw s : Eval α) Q :=
  fun _ hm _ => .inspect (g := fun _ => .error s) hm.fit (fun _ h => by cases h)
    fun t ht => by cases ht; exact hs

theorem fault (e : Fault) : Triple strict c f P (fault e : Eval α) Q := throw trivial

theorem pure {a : α} (h : ∀ m, P m → Q a m) : Triple strict c f P (pure a) Q :=
  fun m hm hp => .pure hm.fit (h m hp)

end Triple

namespace Safe

variable {Q Q' : α → Prop} {R : β → Prop}

theorem imp (h : x.Safe strict Q) (hQ : ∀ v, Q v → Q' v) : x.Safe strict Q' :=
  fun m hm => (h m hm).imp (fun _ => Nat.le_refl _) (fun _ => Nat.le_refl _)
    fun v _ _ hq => hQ v hq

theorem of_triple (h : ∀ c f, Triple strict c f (fun _ => True) x fun v _ => Q v) :
    x.Safe strict Q := fun m hm => h _ _ m (.self hm) trivial

theorem frame {P : Machine → Prop} (h : x.Safe strict Q) (hP : Steady strict P) :
    Triple strict c f P x fun v m => Q v ∧ P m :=
  fun m hm hp => (h m hm.fit).imp hm.cells hm.frames fun _ m' hkeeps hq =>
    ⟨hq, hP m m' hm.fit hkeeps hp⟩

theorem triple (h : x.Safe strict Q) : Triple strict c f (fun _ => True) x fun v _ => Q v :=
  (h.frame fun _ _ _ _ _ => trivial).imp fun _ _ => And.left

/-- A safe action before one that relies on something steady. -/
theorem before {P : Machine → Prop} {S : β → Machine → Prop} (hx : x.Safe strict Q)
    (hP : Steady strict P) (hk : ∀ a, Q a → Triple strict c f P (k a) S) :
    Triple strict c f P (x >>= k) S :=
  (hx.frame hP).bind fun a => .assuming (hk a)

/-- A safe action in the place of one that relies on something steady. -/
theorem during {P : Machine → Prop} (hx : x.Safe strict Q) (hP : Steady strict P) :
    Triple strict c f P x fun _ => P :=
  (hx.frame hP).imp fun _ _ => And.right

theorem bind (hx : x.Safe strict Q) (hk : ∀ a, Q a → (k a).Safe strict R) :
    (x >>= k).Safe strict R :=
  .of_triple fun _ _ m hm _ => (hx.triple m hm trivial).bind fun a m' hkeeps hq =>
    (hk a hq).triple m' (hm.keeps hkeeps) trivial

theorem attempt (h : x.Safe strict Q) : (attempt x).Safe strict (OrPlain Q) :=
  .of_triple fun _ _ => h.triple.attempt

theorem inspect {g : Machine → Except Signal α}
    (hok : ∀ m : Machine, m.IsFit strict → ∀ a, g m = .ok a → Q a)
    (herror : ∀ m s, g m = .error s → s.IsPlain) : (Eval.inspect g).Safe strict Q :=
  fun m hm => .inspect hm (hok m hm) (herror m)

theorem calculates {g : Machine → Except Signal α} (hg : Machine.Calculates g)
    (hQ : ∀ m : Machine, m.IsFit strict → ∀ a, g m = .ok a → Q a) :
    (Eval.inspect g).Safe strict Q := inspect hQ fun _ _ hs => (hg.mild hs).isPlain

theorem get_bind {g : Machine → Eval β}
    (h : ∀ m : Machine, m.IsFit strict → (g m).Safe strict R) :
    ((get : Eval Machine) >>= g).Safe strict R := fun m hm => .get_bind (h m hm m hm)

theorem pure {a : α} (h : Q a) : (pure a : Eval α).Safe strict Q :=
  .of_triple fun _ _ => .pure fun _ _ => h

theorem throw {s : Signal} (hs : s.IsPlain) : (throw s : Eval α).Safe strict Q :=
  .of_triple fun _ _ => .throw hs

theorem fault (e : Fault) : (fault e : Eval α).Safe strict Q := throw trivial

theorem modifyGet {g : Machine → α × Machine}
    (h : ∀ m : Machine, m.IsFit strict →
      m.Keeps strict m.cells.size m.frames.size (g m).2 ∧ Q (g m).1) :
    (modifyGet g : Eval α).Safe strict Q := fun m hm => .modifyGet (h m hm).1 (h m hm).2

theorem modify {g : Machine → Machine}
    (h : ∀ m : Machine, m.IsFit strict → m.Keeps strict m.cells.size m.frames.size (g m)) :
    (modify g : Eval PUnit).Safe strict fun _ => True :=
  modifyGet fun m hm => ⟨h m hm, trivial⟩

theorem compute {e : Except Fault α} (h : ∀ a, e = .ok a → Q a) :
    (compute e).Safe strict Q := by
  cases e with
  | ok a => exact pure (h a rfl)
  | error e => exact fault e

end Safe

/-! ### Actions on the machine -/

section

variable {Q : α → Prop}

theorem safe_newArray {xs : Array Value} (hxs : ArePlain xs.toList) :
    (newArray xs).Safe strict Value.IsPlain :=
  .modifyGet fun _ hm => ⟨.of_same hm (hm.plain.pushArray hxs) rfl rfl rfl, trivial⟩

theorem safe_newRecord {r : Record} (hr : r.IsPlain) : (newRecord r).Safe strict Value.IsPlain :=
  .modifyGet fun _ hm => ⟨.of_same hm (hm.plain.pushRecord hr) rfl rfl rfl, trivial⟩

theorem safe_newNative {fn : Native} (hfn : fn.IsPlain) :
    (newNative fn).Safe strict Value.IsPlain :=
  .modifyGet fun _ hm => ⟨⟨⟨hm.plain.pushProcedure hfn, fun hs =>
    (hm.orderly hs).pushProcedure fun h => by cases h⟩, fun _ => .of_same rfl rfl⟩, trivial⟩

theorem safe_newClosureIn {env : Env} {code : Code} (henv : env.IsFit strict)
    (hcode : code.IsFit strict) :
    (newFunction (.closure env code)).Safe strict Value.IsPlain :=
  .modifyGet fun _ hm => ⟨⟨⟨hm.plain.pushProcedure ⟨henv.plain, hcode.plain⟩, fun hs =>
    (hm.orderly hs).pushProcedure fun h => by cases h; exact ⟨henv.rooted hs, hcode.orderly hs⟩⟩,
    fun _ => .of_same rfl rfl⟩, trivial⟩

theorem safe_modifyArray {id : Nat} {g : Array Value → Array Value}
    (hg : ∀ xs : Array Value, ArePlain xs.toList → ArePlain (g xs).toList) :
    (modifyArray id g).Safe strict fun _ => True :=
  .modify fun _ hm => .of_same hm (hm.plain.modifyArray (hg _)) rfl rfl rfl

theorem safe_modifyRecord {id : Nat} {g : Record → Record}
    (hg : ∀ r : Record, r.IsPlain → (g r).IsPlain) :
    (modifyRecord id g).Safe strict fun _ => True :=
  .modify fun _ hm => .of_same hm (hm.plain.modifyRecord (hg _)) rfl rfl rfl

/-- A change of something that holds no values. -/
theorem safe_modify_same {g : Machine → Machine} (hobjects : ∀ m : Machine, m.SameObjects (g m))
    (hcells : ∀ m, (g m).cells = m.cells) (hframes : ∀ m, (g m).frames = m.frames)
    (hpending : ∀ m, (g m).pending = m.pending)
    (hcompletion : ∀ m, (g m).completion = m.completion) :
    (modify g : Eval PUnit).Safe strict fun _ => True :=
  .modify fun m hm => .of_same hm (hm.plain.congr (hobjects m) (hpending m) (hcompletion m))
    (hcells m) (hframes m) (hobjects m).procedures.symm

theorem safe_raise (name message : String) : (raise name message : Eval α).Safe strict Q :=
  (safe_newRecord (Record.isPlain_error name message)).bind fun _ hv => .throw hv

theorem safe_tick : tick.Safe strict fun _ => True := by
  refine .bind (safe_modify_same (fun _ => ⟨rfl, rfl, rfl, rfl⟩) (fun _ => rfl) (fun _ => rfl)
    (fun _ => rfl) fun _ => rfl) fun _ _ => .get_bind fun m _ => ?_
  split
  · exact .throw trivial
  · exact .pure trivial

theorem safe_toText (v : Value) : (toText v).Safe strict fun _ => True :=
  .calculates (Machine.calculates_textOf v) fun _ _ _ _ => trivial

theorem safe_toNumber (v : Value) : (toNumber v).Safe strict fun _ => True :=
  .calculates (Machine.calculates_numberOf v) fun _ _ _ _ => trivial

end

end Eval

/-! ### Frames -/

/-- The frame is new, and the variables it has for some names await their declarations. -/
structure Machine.Opens (c f : Nat) (F : Frame) (names : List String) (m : Machine) : Prop where
  new : f ≤ F.slots
  room : F.slots < m.frames.size
  awaits : m.Awaits c F names

/-- A frame is being set up, and has variables for some names. -/
def Opening (strict : Prop) (c f : Nat) (F : Frame) (names : List String) (m : Machine) : Prop :=
  strict → m.Opens c f F names

/-- Some names of a frame await their declarations. -/
def Awaiting (strict : Prop) (c : Nat) (F : Frame) (names : List String) (m : Machine) : Prop :=
  strict → m.Awaits c F names

variable {c f : Nat} {F : Frame} {names : List String} {m : Machine}

theorem Opening.awaiting (h : Opening strict c f F names m) : Awaiting strict c F names m :=
  fun hs => (h hs).awaits

theorem Awaiting.of_subset (h : Awaiting strict c F names m) {names' : List String}
    (hsub : ∀ x ∈ names', x ∈ names) : Awaiting strict c F names' m :=
  fun hs x hx => h hs x (hsub x hx)

theorem Opening.of_subset (h : Opening strict c f F names m) {names' : List String}
    (hsub : ∀ x ∈ names', x ∈ names) : Opening strict c f F names' m :=
  fun hs => ⟨(h hs).new, (h hs).room, fun x hx => (h hs).awaits x (hsub x hx)⟩

theorem steady_awaiting : Eval.Steady strict (Awaiting strict c F names) :=
  fun _ _ hm hkeeps hawaits hs => (hawaits hs).keep (hm.orderly hs) (hkeeps.guards hs)

theorem steady_opening : Eval.Steady strict (Opening strict c f F names) :=
  fun _ _ hm hkeeps hopens hs =>
    ⟨(hopens hs).new, Nat.lt_of_lt_of_le (hopens hs).room (hkeeps.guards hs).frames,
      (hopens hs).awaits.keep (hm.orderly hs) (hkeeps.guards hs)⟩

namespace Eval

/-- Room for variables that are in cells of their own. -/
theorem holds_newSlots {slots : List (String × Nat)} (hm : m.IsBeyond strict c f)
    (hslots : strict → (∀ p ∈ slots, p.2 < m.cells.size) ∧ (slots.map (·.2)).Nodup) :
    (newSlots slots).Holds strict c f (fun s m => strict → f ≤ s ∧ s < m.frames.size) m := by
  refine .modifyGet ⟨⟨?_, fun hs => ?_⟩, fun hs => ?_⟩ fun hs => ⟨hm.frames hs, by simp⟩
  · exact hm.fit.plain.congr ⟨rfl, rfl, rfl, rfl⟩ rfl rfl
  · exact (hm.fit.orderly hs).pushFrame (hslots hs).1 (hslots hs).2
  · exact .pushFrame (hm.frames hs) slots

theorem triple_newSlots :
    Triple strict c f (fun _ => True) (newSlots []) fun s m =>
      strict → f ≤ s ∧ s < m.frames.size :=
  fun _ hm _ => holds_newSlots hm fun _ => by simp

section

variable {env : Env} {v : Value} {name : String}

theorem triple_childWith (henv : env.IsFit strict) (hv : v.IsPlain) :
    Triple strict c f (fun _ => True) (childWith env v) fun inner m =>
      inner.IsFit strict ∧ Opening strict c f inner.frame [] m :=
  triple_newSlots.bind fun _ => .pure fun _ hroom =>
    ⟨henv.push ⟨hv, by simp⟩, fun hs => ⟨(hroom hs).1, (hroom hs).2, .nil⟩⟩

theorem triple_child (henv : env.IsFit strict) :
    Triple strict c f (fun _ => True) (child env) fun inner m =>
      inner.IsFit strict ∧ Opening strict c f inner.frame [] m :=
  triple_childWith henv henv.plain.this

theorem safe_childOf (henv : env.IsFit strict) (hv : v.IsPlain) :
    (childOf env v).Safe strict (Env.IsFit strict) :=
  .of_triple fun _ _ => triple_newSlots.bind fun _ => .pure fun _ _ =>
    henv.push ⟨henv.plain.this, by simpa using hv⟩

/-- The copies are in new cells, each in one of its own. -/
theorem holds_copyCells (slots : List (String × Nat)) (m : Machine) (hm : m.IsBeyond strict c f) :
    (copyCells slots).Holds strict c f
      (fun twins m' => strict → (∀ p ∈ twins, m.cells.size ≤ p.2 ∧ p.2 < m'.cells.size) ∧
        (twins.map (·.2)).Nodup) m := by
  induction slots generalizing m with
  | nil => exact .pure hm.fit (by simp)
  | cons p rest ih =>
    have hpush : (modifyGet fun (m : Machine) =>
        (m.cells.size, { m with cells := m.cells.push (m.cell p.2) }) : Eval Nat).Holds strict c f
        (fun twin m' => twin = m.cells.size ∧ m'.cells.size = m.cells.size + 1) m := by
      refine .modifyGet ⟨⟨?_, fun hs => ?_⟩, fun hs => ?_⟩ ⟨rfl, by simp⟩
      · exact hm.fit.plain.congr ⟨rfl, rfl, rfl, rfl⟩ rfl rfl
      · exact (hm.fit.orderly hs).pushCell _
      · exact .pushCell (hm.cells hs) _
    refine hpush.bind fun twin m' hkeeps htwin => ?_
    obtain ⟨rfl, hsize⟩ := htwin
    have hm' := hm.keeps hkeeps
    refine (ih m' hm').bind fun twins m'' hkeeps' htwins =>
      .pure hkeeps'.fit fun hs => ⟨?_, ?_⟩
    · have hgrows := (hkeeps'.guards hs).cells
      intro q hq
      rcases List.mem_cons.mp hq with rfl | hq
      · exact ⟨Nat.le_refl _, by omega⟩
      · have := (htwins hs).1 q hq
        omega
    · simp only [List.map_cons, List.nodup_cons, List.mem_map, not_exists, not_and]
      refine ⟨fun q hq heq => ?_, (htwins hs).2⟩
      have := (htwins hs).1 q hq
      omega

theorem safe_copyFrame (henv : env.IsFit strict) :
    (copyFrame env).Safe strict (Env.IsFit strict) := by
  refine .of_triple fun c f m hm _ => .get_bind ?_
  refine (holds_copyCells (m.slots env.frame) m hm).bind fun twins m' hkeeps htwins => ?_
  have hm' := hm.keeps hkeeps
  refine (holds_newSlots hm' fun hs =>
    ⟨fun p hp => ((htwins hs).1 p hp).2, (htwins hs).2⟩).bind fun s m'' hkeeps' _ => ?_
  exact .pure hkeeps'.fit (henv.withFrame ⟨henv.plain.this, by simp⟩ rfl)

/-! ### Variables -/

theorem keeps_declare (hm : m.IsBeyond strict c f)
    (hF : strict → f ≤ F.slots ∨ m.own? F name = none) (cell : Cell) :
    m.Keeps strict c f (m.declare F name cell) := by
  refine ⟨⟨?_, fun hs => ?_⟩, fun hs => ?_⟩
  · exact hm.fit.plain.congr ⟨rfl, rfl, rfl, rfl⟩ rfl rfl
  · exact (hm.fit.orderly hs).declare F name _
  · exact .declare (hm.cells hs) (hF hs) _

/-- A new variable of a frame that is being set up awaits its declaration too. -/
theorem triple_declare {isConst : Bool} (hopen : Cell.IsOpen ⟨v, isConst⟩) (name : String) :
    Triple strict c f (Opening strict c f F names) (declare F name v isConst) fun _ =>
      Opening strict c f F (name :: names) := by
  intro m hm hopens
  refine .modifyGet (keeps_declare hm (fun hs => .inl (hopens hs).new) _) fun hs => ?_
  obtain ⟨hnew, hroom, hawaits⟩ := hopens hs
  refine ⟨hnew, ?_, hawaits.declare (hm.fit.orderly hs) (hm.cells hs) hroom name hopen⟩
  simpa [Machine.declare] using hroom

/-- A new variable that has its value already. -/
theorem triple_declareLive (name : String) (v : Value) (isConst : Bool) :
    Triple strict c f (Opening strict c f F names) (declare F name v isConst) fun _ _ => True :=
  fun _ hm hopens => .modifyGet (keeps_declare hm (fun hs => .inl (hopens hs).new) _) trivial

theorem safe_read (env : Env) (name : String) :
    (read env name).Safe strict Value.IsPlain := by
  refine .get_bind fun m hm => ?_
  split
  · exact safe_raise _ _
  · split
    · exact safe_raise _ _
    · rename_i hlive
      exact .pure (Value.isPlain_iff.mpr hlive)

/-- A name that stands for nothing is not in the outermost frame. -/
theorem own?_root_of_find (hroot : env.IsRooted) (h : m.find env name = none) :
    m.own? env.root name = none := by
  have hnone := List.findSome?_eq_none_iff.mp h env.root env.root_mem_frames
  rw [Machine.findHere, hroot] at hnone
  exact Option.map_eq_none_iff.mp hnone

theorem safe_write (henv : env.IsFit strict) (name : String) (hv : v.IsPlain) :
    (write env name v).Safe strict fun _ => True := by
  intro m hm
  refine .get_bind ?_
  split
  · rename_i hnone
    exact .modifyGet (keeps_declare (.self hm)
      (fun hs => .inr (own?_root_of_find (henv.rooted hs) hnone)) _) trivial
  · rename_i slot _
    dsimp only
    split
    · exact safe_raise _ _ m hm
    · rename_i hlive
      split
      · exact safe_raise _ _ m hm
      · rename_i hconst
        cases slot with
        | cell id =>
          refine .modifyGet ⟨⟨?_, fun hs => ?_⟩, fun hs => ?_⟩ trivial
          · exact hm.plain.congr ⟨rfl, rfl, rfl, rfl⟩ rfl rfl
          · exact (hm.orderly hs).assign _ _
          · exact .assign hv (fun h => absurd h hconst) (fun _ => Value.isPlain_iff.mpr hlive)
              (Nat.le_refl _)
        | property id key =>
          have hkey : (Key.text key).IsPlain := trivial
          exact safe_modifyRecord (fun r hr => hr.set hkey hv) m hm

/-! ### Scopes -/

theorem triple_declareDead (isConst : Bool) (ds : List Node) (names : List String) :
    Triple strict c f (Opening strict c f F names) (declareDead F isConst ds) fun _ =>
      Opening strict c f F (boundNames ds ++ names) := by
  induction ds generalizing names with
  | nil => exact .pure fun _ h => h
  | cons d rest ih =>
    cases d with
    | declarator name init span =>
      refine (triple_declare (.inl rfl) name.text).bind fun _ => (ih _).imp fun _ _ h => ?_
      refine h.of_subset fun x hx => ?_
      simp only [boundNames, List.filterMap_cons, Node.declared?, Option.map_some, List.cons_append,
        List.mem_cons, List.mem_append] at hx ⊢
      grind
    | _ => exact .fault _

variable {outer : Option Env}

theorem safe_handOver (houter : ∀ up ∈ outer, up.IsFit strict) (name : String) (hv : v.IsPlain) :
    (handOver outer name v).Safe strict fun _ => True := by
  cases outer with
  | some up => exact safe_write (houter up rfl) name hv
  | none => exact .pure trivial

theorem triple_enterStatement (henv : env.IsFit strict) (houter : ∀ up ∈ outer, up.IsFit strict)
    {n : Node} (hn : n.IsFit strict) (names : List String) :
    Triple strict c f (Opening strict c f env.frame names) (enterStatement env outer n) fun _ =>
      Opening strict c f env.frame (n.lexicalHere ++ names) := by
  cases n with
  | varDecl keyword ds span =>
    cases keyword with
    | varWord => exact .pure fun _ h => h
    | letWord | constWord => exact triple_declareDead _ ds names
  | function form name params body isArrow span =>
    cases form with
    | expression => exact .pure fun _ h => h
    | declaration =>
      cases name with
      | none => exact .fault _
      | some name =>
        refine (safe_newClosureIn henv hn.code).before steady_opening fun fn hfn => ?_
        refine (triple_declare (.inr rfl) name.text).bind fun _ => ?_
        refine ((safe_handOver houter name.text hfn).during steady_opening).imp fun _ _ h => ?_
        exact h.of_subset fun x hx => List.mem_cons_of_mem _ hx
  | _ => exact .pure fun _ h => h

theorem triple_enterBlock (henv : env.IsFit strict) (houter : ∀ up ∈ outer, up.IsFit strict)
    (ns : List Node) (hns : ∀ n ∈ ns, n.IsFit strict) (names : List String) :
    Triple strict c f (Opening strict c f env.frame names) (enterBlock env outer ns) fun _ =>
      Opening strict c f env.frame (Node.lexicalNames ns ++ names) := by
  induction ns generalizing names with
  | nil => exact .pure fun _ h => h
  | cons n rest ih =>
    obtain ⟨hn, hrest⟩ := List.forall_mem_cons.mp hns
    refine (triple_enterStatement henv houter hn names).bind fun _ =>
      (ih hrest _).imp fun _ _ h => h.of_subset fun x hx => ?_
    simp only [Node.lexicalNames, List.flatMap_cons, List.mem_append] at hx ⊢
    grind

theorem triple_declareMissing (name : String) :
    Triple strict c f (Opening strict c f F names) (declareMissing F name) fun _ =>
      Opening strict c f F names := by
  refine .get_bind fun m => ?_
  split
  · exact .pure fun _ h => h
  · exact (triple_declare (.inr rfl) name).imp fun _ _ h =>
      h.of_subset fun x hx => List.mem_cons_of_mem _ hx

theorem triple_declareHoisted (hoisted : List String) :
    Triple strict c f (Opening strict c f F names) (declareHoisted F hoisted) fun _ =>
      Opening strict c f F names := by
  induction hoisted with
  | nil => exact .pure fun _ h => h
  | cons name rest ih => exact (triple_declareMissing name).bind fun _ => ih

theorem triple_enterFunction (henv : env.IsFit strict) {body : List Node}
    (hbody : ∀ n ∈ body, n.IsFit strict) :
    Triple strict c f (Opening strict c f env.frame names) (enterFunction env body) fun _ =>
      Opening strict c f env.frame (Node.lexicalNames body ++ names) := by
  have hcompute : (compute (hoistedAll body)).Safe strict fun _ => True :=
    .compute fun _ _ => trivial
  exact hcompute.before steady_opening fun hoisted _ =>
    (triple_declareHoisted hoisted).bind fun _ => triple_enterBlock henv (by simp) body hbody _

theorem triple_enterCase {outer : Env} (henv : env.IsFit strict) (houter : outer.IsFit strict)
    {n : Node} (hn : n.IsFit strict) (names : List String) :
    Triple strict c f (Opening strict c f env.frame names) (enterCase env outer n) fun _ =>
      Opening strict c f env.frame (Node.lexicalNames n.statements ++ names) := by
  have hup : ∀ up ∈ some outer, up.IsFit strict := by simpa using houter
  cases n with
  | block body | program body | caseClause _ body | function _ _ _ body =>
    exact triple_enterBlock henv hup body (fun n h => hn.slot (by simp [h])) names
  | _ => exact .fault _

theorem triple_enterCases {outer : Env} (henv : env.IsFit strict) (houter : outer.IsFit strict)
    (ns : List Node) (hns : ∀ n ∈ ns, n.IsFit strict) (names : List String) :
    Triple strict c f (Opening strict c f env.frame names) (enterCases env outer ns) fun _ =>
      Opening strict c f env.frame
        ((ns.flatMap fun n => Node.lexicalNames n.statements) ++ names) := by
  induction ns generalizing names with
  | nil => exact .pure fun _ h => h
  | cons n rest ih =>
    obtain ⟨hn, hrest⟩ := List.forall_mem_cons.mp hns
    refine (triple_enterCase henv houter hn names).bind fun _ =>
      (ih hrest _).imp fun _ _ h => h.of_subset fun x hx => ?_
    simp only [List.flatMap_cons, List.mem_append] at hx ⊢
    grind

end

end Eval

end ScopeLowering

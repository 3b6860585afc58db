import Mathlib.Data.List.Perm.Subperm
import Mathlib.Logic.Relation
import ScopeLowering.Proofs.Conversions
import ScopeLowering.Proofs.Magnitudes

/-!
# Laws of equality

Equality without conversion is symmetric, and every value but the one that is not a number equals
itself. Equality with conversion is symmetric too, it holds wherever the other one does, and it
comes to an end (`equality_laws`).

## The model

The text of an array or an error takes the texts of what it holds, so a comparison follows values to
some depth. A greater depth never changes an answer, unless the smaller one was too small
(`Approximates`). A value that nowhere contains itself nests no deeper than there are arrays and
records in the machine, so that depth is always enough (`Machine.Nests.textWithin_concludes`).
-/

namespace ScopeLowering

/-! ### Calculations that are cut off -/

section

variable {α β : Type}

/-- Is the first calculation cut off, or else the same as the second one? -/
def Approximates (x y : Except Signal α) : Prop := x = .error .tooDeep ∨ x = y

/-- Does the calculation come to an end? It may still fail, where a number has too many digits to be
written down. -/
def Concludes (x : Except Signal α) : Prop := (∃ a, x = .ok a) ∨ x = .error (.fault .badNumeral)

theorem Approximates.bind {x y : Except Signal α} {f g : α → Except Signal β}
    (h : Approximates x y) (hf : ∀ a, Approximates (f a) (g a)) :
    Approximates (x >>= f) (y >>= g) := by
  rcases h with rfl | rfl
  · exact .inl rfl
  · cases x with
    | ok a => exact hf a
    | error s => exact .inr rfl

theorem Approximates.mapM {f g : α → Except Signal β} {xs : List α}
    (h : ∀ x ∈ xs, Approximates (f x) (g x)) : Approximates (xs.mapM f) (xs.mapM g) := by
  induction xs with
  | nil => exact .inr rfl
  | cons x rest ih =>
    obtain ⟨hx, hrest⟩ := List.forall_mem_cons.mp h
    rw [List.mapM_cons, List.mapM_cons]
    exact hx.bind fun _ => (ih hrest).bind fun _ => .inr rfl

theorem Concludes.ok (a : α) : Concludes (.ok a) := .inl ⟨a, rfl⟩

theorem Concludes.bind {x : Except Signal α} {f : α → Except Signal β} (h : Concludes x)
    (hf : ∀ a, Concludes (f a)) : Concludes (x >>= f) := by
  rcases h with ⟨a, rfl⟩ | rfl
  · exact hf a
  · exact .inr rfl

theorem Concludes.mapM {f : α → Except Signal β} {xs : List α} (h : ∀ x ∈ xs, Concludes (f x)) :
    Concludes (xs.mapM f) := by
  induction xs with
  | nil => exact .ok []
  | cons x rest ih =>
    obtain ⟨hx, hrest⟩ := List.forall_mem_cons.mp h
    rw [List.mapM_cons]
    exact hx.bind fun _ => (ih hrest).bind fun _ => .ok _

/-- What comes to an end is not cut off. -/
theorem Approximates.eq {x y : Except Signal α} (h : Approximates x y) (hx : Concludes x) :
    x = y := by
  rcases h with rfl | h
  · rcases hx with ⟨a, ha⟩ | hx
    · cases ha
    · cases hx
  · exact h

end

/-! ### Texts -/

theorem Number.text_concludes (n : Number) : Concludes (n.text.mapError Signal.fault) := by
  have hint : ∀ k, Concludes ((intText k).mapError Signal.fault) := by
    intro k
    unfold intText
    split
    · exact .ok _
    · exact .inr rfl
  cases n with
  | int k => exact hint k
  | float x =>
    unfold text
    dsimp only
    split
    · exact .ok _
    · exact .ok _
    · split
      · split
        · exact hint _
        · exact .ok _
      · exact .ok _

namespace Machine

variable {m : Machine}

/-- Does the first value hold the second one? Arrays hold their elements and records the values of
their properties. -/
inductive Contains (m : Machine) : Value → Value → Prop where
  | element {id : Nat} {w : Value} (h : w ∈ m.array id) : Contains m (.array id) w
  | property {id : Nat} {k : Key} {w : Value} (h : (k, w) ∈ (m.record id).fields) :
    Contains m (.record id) w

/-- Does the value nowhere contain itself, and nothing inside it either? -/
def IsAcyclic (m : Machine) (v : Value) : Prop :=
  ∀ w, Relation.ReflTransGen m.Contains v w → ¬ Relation.TransGen m.Contains w w

theorem IsAcyclic.inside {v w : Value} (h : m.IsAcyclic v) (hw : m.Contains v w) :
    m.IsAcyclic w := fun u hu => h u (.head hw hu)

/-- Values that can be ranked, each above all that it holds, have no cycles. -/
theorem isAcyclic_of_rank (rank : Value → Nat) (h : ∀ v w, m.Contains v w → rank w < rank v)
    (v : Value) : m.IsAcyclic v := by
  intro w _ hcycle
  have hlower : ∀ u, Relation.TransGen m.Contains w u → rank u < rank w := by
    intro u hu
    induction hu with
    | single hu => exact h w _ hu
    | tail _ hstep ih => exact Nat.lt_trans (h _ _ hstep) ih
  exact Nat.lt_irrefl _ (hlower w hcycle)

/-- Do values go no further than so many levels down? -/
def Nests (m : Machine) : Nat → Value → Prop
  | 0, v => ∀ w, ¬ m.Contains v w
  | n + 1, v => ∀ w, m.Contains v w → m.Nests n w

/-- The arrays and the records of a machine. -/
def containers (m : Machine) : List Value :=
  (List.range m.arrays.size).map .array ++ (List.range m.records.size).map .record

theorem length_containers : m.containers.length = m.arrays.size + m.records.size := by
  simp [containers]

theorem Contains.mem_containers {v w : Value} (h : m.Contains v w) : v ∈ m.containers := by
  cases h with
  | @element id w h =>
    have hid : id < m.arrays.size := by
      apply Decidable.byContradiction
      intro hid
      simp [array, Array.getElem?_eq_none (Nat.le_of_not_lt hid)] at h
    simp [containers, hid]
  | @property id k w h =>
    have hid : id < m.records.size := by
      apply Decidable.byContradiction
      intro hid
      simp [record, Array.getElem?_eq_none (Nat.le_of_not_lt hid)] at h
    simp [containers, hid]

/-- Are these different containers, each of which has the value somewhere inside it? -/
structure IsPathTo (m : Machine) (v : Value) (path : List Value) : Prop where
  nodup : path.Nodup
  containers : path ⊆ m.containers
  inside : ∀ w ∈ path, Relation.TransGen m.Contains w v

/-- One level down, the value itself is one more container on the way. -/
theorem IsPathTo.cons {v w : Value} {path : List Value} (h : m.IsPathTo v path)
    (hv : m.IsAcyclic v) (hw : m.Contains v w) : m.IsPathTo w (v :: path) where
  nodup := List.nodup_cons.mpr ⟨fun hmem => hv v .refl (h.inside v hmem), h.nodup⟩
  containers := List.cons_subset.mpr ⟨hw.mem_containers, h.containers⟩
  inside := List.forall_mem_cons.mpr ⟨.single hw, fun u hu => (h.inside u hu).tail hw⟩

/-- There are at most as many levels left as there are containers that have not been met. -/
theorem IsAcyclic.nests_below {n : Nat} {v : Value} (h : m.IsAcyclic v) {path : List Value}
    (hpath : m.IsPathTo v path) (hn : m.containers.length ≤ n + path.length) : m.Nests n v := by
  induction n generalizing v path with
  | zero =>
    intro w hw
    have hdeeper := hpath.cons h hw
    have hlength := (List.subperm_of_subset hdeeper.nodup hdeeper.containers).length_le
    rw [List.length_cons] at hlength
    omega
  | succ n ih =>
    intro w hw
    refine ih (h.inside hw) (hpath.cons h hw) ?_
    rw [List.length_cons]
    omega

/-- A value without cycles nests no deeper than there are arrays and records. -/
theorem IsAcyclic.nests {v : Value} (h : m.IsAcyclic v) :
    m.Nests (m.arrays.size + m.records.size) v := by
  have hstart : m.IsPathTo v [] := ⟨.nil, List.nil_subset _, List.forall_mem_nil _⟩
  refine h.nests_below hstart ?_
  rw [length_containers]
  exact Nat.le_refl _

/-- To follow values further down does not change their texts. -/
theorem textWithin_approximates {depth depth' : Nat} (h : depth ≤ depth') (v : Value) :
    Approximates (m.textWithin depth v) (m.textWithin depth' v) := by
  induction depth generalizing depth' v with
  | zero => exact .inl rfl
  | succ depth ih =>
    obtain ⟨depth', rfl⟩ : ∃ d, depth' = d + 1 := ⟨depth' - 1, by omega⟩
    have ih := fun v => ih (Nat.le_of_succ_le_succ h) v
    cases v with
    | array id =>
      refine Approximates.bind (.mapM fun x _ => ?_) fun _ => .inr rfl
      split
      · exact .inr rfl
      · exact ih x
    | record id =>
      show Approximates (if (m.record id).isError then _ else _)
        (if (m.record id).isError then _ else _)
      split
      · exact (ih _).bind fun _ => (ih _).bind fun _ => .inr rfl
      · exact .inr rfl
    | _ => exact .inr rfl

/-- A value has a text if all that it holds have. -/
theorem textWithin_concludes_of {depth : Nat} {v : Value}
    (h : ∀ w, m.Contains v w → Concludes (m.textWithin (depth + 1) w)) :
    Concludes (m.textWithin (depth + 2) v) := by
  cases v with
  | array id =>
    refine Concludes.bind (.mapM fun x hx => ?_) fun _ => .ok _
    split
    · exact .ok _
    · exact h x (.element (Array.mem_toList_iff.mp hx))
  | record id =>
    have hproperty : ∀ (key : Key) (default : String),
        Concludes (m.textWithin (depth + 1) (((m.record id).find? key).getD (.text default))) := by
      intro key default
      cases hfind : (m.record id).find? key with
      | none => exact .ok default
      | some w =>
        obtain ⟨⟨k, w⟩, hk, rfl⟩ := Option.map_eq_some_iff.mp hfind
        exact h w (.property (Array.mem_of_find?_eq_some hk))
    show Concludes (if (m.record id).isError then _ else _)
    split
    · exact (hproperty _ _).bind fun _ => (hproperty _ _).bind fun _ => .ok _
    · exact .ok _
  | number n => exact n.text_concludes
  | _ => exact .ok _

/-- Two levels more than a value nests are enough for its text: one for what is innermost, and one
for the texts that stand in for missing properties of an error. -/
theorem Nests.textWithin_concludes {n : Nat} {v : Value} (h : m.Nests n v) :
    Concludes (m.textWithin (n + 2) v) := by
  induction n generalizing v with
  | zero => exact textWithin_concludes_of fun w hw => absurd hw (h w)
  | succ n ih => exact textWithin_concludes_of fun w hw => ih (h w hw)

/-! ### Equality -/

end Machine

namespace Value

/-- Is this a value that scripts compute with? A complex number, a piece of a document and the
content of a dead variable are none. -/
def isOrdinary : Value → Bool
  | complex .. | document _ | uninitialized => false
  | _ => true

/-- Is this the value that is not a number? -/
def isNaN : Value → Bool
  | number n => n.isNaN
  | _ => false

theorem strictEquals_comm {a b : Value} (ha : a.isOrdinary = true) (hb : b.isOrdinary = true) :
    a.strictEquals b = b.strictEquals a := by
  cases a with
  | complex | document | uninitialized => cases ha
  | number n =>
    cases b with
    | number k => exact n.equals_comm k
    | _ => rfl
  | array id | record id | function id | bool id | text id =>
    cases b with
    | array | record | function | bool | text => first | rfl | exact BEq.comm
    | _ => rfl
  | undefined | null => cases b <;> rfl

theorem strictEquals_self {a : Value} (ha : a.isOrdinary = true) (hnan : a.isNaN = false) :
    a.strictEquals a = true := by
  cases a with
  | complex | document | uninitialized => cases ha
  | number n => exact Number.equals_self hnan
  | undefined | null => rfl
  | _ => exact beq_self_eq_true _

/-- Values that are equal without conversion are of the same type. -/
theorem typeName_eq_of_strictEquals {a b : Value} (h : a.strictEquals b = true) :
    a.typeName = b.typeName := by
  cases a <;> cases b <;> first | rfl | cases h

end Value

namespace Machine

variable {m : Machine}

/-- What a value is compared as, where texts are followed so far down. -/
def comparableWithin (m : Machine) (depth : Nat) : Value → Except Signal Value
  | .bool b => .ok (.int b.toInt)
  | .array id => do return .text (← m.textWithin depth (.array id))
  | .record id => do return .text (← m.textWithin depth (.record id))
  | v => .ok v

/-- Equality with conversion, where texts are followed so far down. -/
def looseEqualsWithin (m : Machine) (depth : Nat) (a b : Value) : Except Signal Bool :=
  if a.isNullish || b.isNullish then .ok (a.isNullish && b.isNullish)
  else if a.typeName == b.typeName && !a.isNumber then .ok (a.strictEquals b)
  else do
    let a ← m.comparableWithin depth a
    let b ← m.comparableWithin depth b
    return equalAsNumbers a b

theorem comparable_eq_within (v : Value) :
    m.comparable v = m.comparableWithin m.platform.nesting v := by
  cases v <;> rfl

/-- Equality follows texts as far down as texts are followed at all. -/
theorem looseEquals_eq_within (a b : Value) :
    m.looseEquals a b = m.looseEqualsWithin m.platform.nesting a b := by
  simp only [looseEquals_eq, looseEqualsWithin, comparable_eq_within]

theorem looseEqualsWithin_approximates {depth depth' : Nat} (h : depth ≤ depth') (a b : Value) :
    Approximates (m.looseEqualsWithin depth a b) (m.looseEqualsWithin depth' a b) := by
  have hcomparable : ∀ v,
      Approximates (m.comparableWithin depth v) (m.comparableWithin depth' v) := by
    intro v
    cases v with
    | array id | record id => exact (textWithin_approximates h _).bind fun _ => .inr rfl
    | _ => exact .inr rfl
  unfold looseEqualsWithin
  split
  · exact .inr rfl
  · split
    · exact .inr rfl
    · exact (hcomparable a).bind fun _ => (hcomparable b).bind fun _ => .inr rfl

theorem looseEqualsWithin_concludes {depth : Nat} {a b : Value}
    (ha : Concludes (m.textWithin depth a)) (hb : Concludes (m.textWithin depth b)) :
    Concludes (m.looseEqualsWithin depth a b) := by
  have hcomparable : ∀ v, Concludes (m.textWithin depth v) →
      Concludes (m.comparableWithin depth v) := by
    intro v hv
    cases v with
    | array id | record id => exact hv.bind fun _ => .ok _
    | _ => exact .ok _
  unfold looseEqualsWithin
  split
  · exact .ok _
  · split
    · exact .ok _
    · exact (hcomparable a ha).bind fun _ => (hcomparable b hb).bind fun _ => .ok _

theorem equalAsNumbers_comm (a b : Value) : equalAsNumbers a b = equalAsNumbers b a := by
  cases a with
  | number n =>
    cases b with
    | number k => exact n.equals_comm k
    | text t => exact n.equals_comm _
    | _ => rfl
  | text s =>
    cases b with
    | number k => exact Number.equals_comm _ k
    | text t => exact BEq.comm
    | _ => rfl
  | _ => cases b <;> rfl

/-- Of two values of different types at most one has a text to be found. -/
theorem comparable_ok {a b : Value} (h : a.typeName ≠ b.typeName) :
    (∃ v, m.comparable a = .ok v) ∨ ∃ v, m.comparable b = .ok v := by
  cases a with
  | array | record =>
    cases b with
    | array | record => exact absurd rfl h
    | _ => exact .inr ⟨_, rfl⟩
  | _ => exact .inl ⟨_, rfl⟩

/-- Between values of the same type there is nothing to convert. -/
theorem looseEquals_of_typeName_eq {a b : Value} (h : a.typeName = b.typeName) :
    m.looseEquals a b = .ok (a.strictEquals b) := by
  cases hnull : a.isNullish || b.isNullish with
  | true =>
    rw [looseEquals_eq, if_pos hnull]
    cases a <;> cases b <;> first | rfl | exact absurd h (by decide) | cases hnull
  | false =>
    cases hnumber : a.isNumber with
    | false => simp [looseEquals_eq, hnull, h, hnumber]
    | true =>
      cases a with
      | number n =>
        cases b with
        | number k => exact looseEquals_eq m _ _
        | _ => simp [Value.typeName] at h
      | _ => cases hnumber

/-- Equality with conversion is symmetric, also where it fails. -/
theorem looseEquals_comm {a b : Value} (ha : a.isOrdinary = true) (hb : b.isOrdinary = true) :
    m.looseEquals a b = m.looseEquals b a := by
  by_cases htype : a.typeName = b.typeName
  · rw [looseEquals_of_typeName_eq htype, looseEquals_of_typeName_eq htype.symm,
      Value.strictEquals_comm ha hb]
  · rw [looseEquals_eq, looseEquals_eq, Bool.or_comm, Bool.and_comm]
    split
    · rfl
    · rw [if_neg (by simp [htype]), if_neg (by simp [Ne.symm htype])]
      -- whichever of the two is converted first, the other one cannot fail
      rcases comparable_ok (m := m) htype with ⟨v, hv⟩ | ⟨v, hv⟩
      · rw [hv]
        show (m.comparable b >>= fun b => pure (equalAsNumbers v b)) =
          (m.comparable b >>= fun b => pure (equalAsNumbers b v))
        simp only [equalAsNumbers_comm v]
      · rw [hv]
        show (m.comparable a >>= fun a => pure (equalAsNumbers a v)) =
          (m.comparable a >>= fun a => pure (equalAsNumbers v a))
        simp only [equalAsNumbers_comm v]

end Machine

/-- **Laws of the equality operators.** Let `a` and `b` be values that scripts compute with.

If neither contains itself, comparing them with conversion comes to an end: there is an answer that
it gives at every depth from some depth on, and the depth that is used gives this answer or, for
values that nest more deeply, the signal for that. Comparing with conversion is symmetric, also
where it fails, and so is comparing without. What is equal without conversion is equal with it. And
every value but the one that is not a number equals itself. -/
theorem equality_laws (m : Machine) {a b : Value} (ha : a.isOrdinary = true)
    (hb : b.isOrdinary = true) (hacyclic : m.IsAcyclic a ∧ m.IsAcyclic b) :
    (∃ answer, Concludes answer ∧
      (∀ depth, m.arrays.size + m.records.size + 2 ≤ depth →
        m.looseEqualsWithin depth a b = answer) ∧
      (m.looseEquals a b = answer ∨ m.looseEquals a b = .error .tooDeep)) ∧
    m.looseEquals a b = m.looseEquals b a ∧
    a.strictEquals b = b.strictEquals a ∧
    (a.strictEquals b = true → m.looseEquals a b = .ok true) ∧
    (a.isNaN = false → a.strictEquals a = true) := by
  refine ⟨?_, Machine.looseEquals_comm ha hb, Value.strictEquals_comm ha hb, fun h => ?_,
    Value.strictEquals_self ha⟩
  · have hends := Machine.looseEqualsWithin_concludes hacyclic.1.nests.textWithin_concludes
      hacyclic.2.nests.textWithin_concludes
    refine ⟨_, hends, fun depth hdepth => ?_, ?_⟩
    · exact ((Machine.looseEqualsWithin_approximates hdepth a b).eq hends).symm
    · rw [Machine.looseEquals_eq_within]
      rcases Nat.le_total (m.arrays.size + m.records.size + 2) m.platform.nesting with hle | hle
      · exact .inl ((Machine.looseEqualsWithin_approximates hle a b).eq hends).symm
      · exact (Machine.looseEqualsWithin_approximates hle a b).symm
  · rw [Machine.looseEquals_of_typeName_eq (Value.typeName_eq_of_strictEquals h), h]

/-- A machine with the array `[[1], null, 2]`. -/
def nestingMachine : Machine :=
  { arrays := #[#[.int 1], #[.array 0, .null, .int 2]] }

/-- Later arrays may hold earlier ones. -/
def arrayRank : Value → Nat
  | .array id => id + 1
  | _ => 0

theorem nestingMachine_isAcyclic (v : Value) : nestingMachine.IsAcyclic v := by
  refine Machine.isAcyclic_of_rank arrayRank (fun v w h => ?_) v
  cases h with
  | @element id w h =>
    rcases id with _ | _ | id
    · have hw : w = .int 1 := by simpa [Machine.array, nestingMachine] using h
      subst hw
      decide
    · have hw : w = .array 0 ∨ w = .null ∨ w = .int 2 := by
        simpa [Machine.array, nestingMachine] using h
      rcases hw with rfl | rfl | rfl <;> decide
    · simp [Machine.array, nestingMachine] at h
  | property h => simp [Machine.record, nestingMachine] at h

theorem equality_laws_nestingMachine :
    nestingMachine.IsAcyclic (.array 1) ∧
    (nestingMachine.looseEquals (.array 1) (.text "1,,2")).toOption = some true ∧
    nestingMachine.looseEquals (.array 1) (.text "1,,2") =
      nestingMachine.looseEquals (.text "1,,2") (.array 1) := by
  have hacyclic := nestingMachine_isAcyclic
  exact ⟨hacyclic _, by decide +kernel,
    (equality_laws nestingMachine rfl rfl ⟨hacyclic _, hacyclic _⟩).2.1⟩

end ScopeLowering

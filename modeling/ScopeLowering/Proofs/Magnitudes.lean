import ScopeLowering.Machine.Value

/-!
# The order of numbers

Numbers are compared exactly, also a whole number with a double (`Number.order?`). Any two of them
can be compared unless one is not a number, and the comparison is an order in which the two zeros
are level, and so are a whole number and a double of the same value.

## The model

A finite number is `± m · 2^e`. Brought to an exponent that is low enough, it is a whole number, and
so two finite numbers compare as whole numbers. Which exponent that is does not matter, so any
number of them can be brought to the same one. The infinities are on tiers of their own, below and
above the finite numbers. `Number.order?_eq_compare` says all this at once.
-/

namespace ScopeLowering

/-- A comparison of whole numbers does not depend on their unit. -/
theorem compare_mul_right (x y : Int) {k : Int} (hk : 0 < k) :
    compare (x * k) (y * k) = compare x y := by
  have hlt : x * k < y * k ↔ x < y := Int.mul_lt_mul_right hk
  have heq : x * k = y * k ↔ x = y := Int.mul_eq_mul_right_iff (Int.ne_of_gt hk)
  simp only [compare, compareOfLessAndEq, hlt, heq]

namespace Decimal.Parts

/-- Below the finite numbers, among them or above them. -/
def tier : Parts → Int
  | infinite negative => if negative then -1 else 1
  | _ => 0

/-- The exponent of a finite number. -/
def exponent : Parts → Int
  | finite _ _ e => e
  | _ => 0

/-- A finite number as a multiple of `2^base`. -/
def scaled (base : Int) : Parts → Int
  | finite negative m e => Number.signed negative m * twoPow (e - base).toNat
  | _ => 0

/-- Multiples of a lower power of two are larger. -/
theorem scaled_eq_mul {p : Parts} {base low : Int} (hlow : low ≤ base) (hbase : base ≤ p.exponent) :
    p.scaled low = p.scaled base * twoPow (base - low).toNat := by
  cases p with
  | nan => exact (Int.zero_mul _).symm
  | infinite => exact (Int.zero_mul _).symm
  | finite negative m e =>
    rw [exponent] at hbase
    have hexp : (e - low).toNat = (e - base).toNat + (base - low).toNat := by omega
    rw [scaled, scaled, hexp, twoPow, twoPow, twoPow, Nat.pow_eq, Nat.pow_eq, Nat.pow_eq,
      Nat.pow_add, Int.natCast_mul, Int.mul_assoc]

end Decimal.Parts

namespace Number

open Decimal

/-- Exact numbers compare by their tiers, and on the same tier as whole numbers. -/
theorem orderParts?_eq_compare {p q : Parts} (hp : p ≠ .nan) (hq : q ≠ .nan) {base : Int}
    (hbase : base ≤ p.exponent ∧ base ≤ q.exponent) :
    orderParts? p q =
      some ((compare p.tier q.tier).then (compare (p.scaled base) (q.scaled base))) := by
  cases p with
  | nan => exact absurd rfl hp
  | infinite s =>
    cases q with
    | nan => exact absurd rfl hq
    | infinite t => cases s <;> cases t <;> rfl
    | finite => cases s <;> rfl
  | finite s m e =>
    cases q with
    | nan => exact absurd rfl hq
    | infinite t => cases t <;> rfl
    | finite t n f =>
      have hlow : base ≤ min e f := Int.le_min.mpr hbase
      have hpos : (0 : Int) < twoPow (min e f - base).toNat :=
        Int.natCast_pos.mpr (Nat.two_pow_pos _)
      rw [Parts.scaled_eq_mul (p := .finite s m e) hlow (Int.min_le_left e f),
        Parts.scaled_eq_mul (p := .finite t n f) hlow (Int.min_le_right e f),
        compare_mul_right _ _ hpos]
      rfl

theorem signed_natAbs (n : Int) : signed (n < 0) n.natAbs = n := by
  simp only [signed, decide_eq_true_eq]
  omega

/-- Whole numbers are compared as all other numbers are. -/
theorem order?_eq (a b : Number) : order? a b = orderParts? a.parts b.parts := by
  cases a with
  | float x => rfl
  | int m =>
    cases b with
    | float y => rfl
    | int n => simp [order?, parts, orderParts?, signed_natAbs]

theorem isNaN_eq_false {a : Number} : a.isNaN = false ↔ a.parts ≠ .nan := by
  simp [isNaN]

/-- Numbers compare by their tiers, and on the same tier as whole numbers. -/
theorem order?_eq_compare {a b : Number} (ha : a.isNaN = false) (hb : b.isNaN = false) {base : Int}
    (hbase : base ≤ a.parts.exponent ∧ base ≤ b.parts.exponent) :
    order? a b = some ((compare a.parts.tier b.parts.tier).then
      (compare (a.parts.scaled base) (b.parts.scaled base))) := by
  rw [order?_eq]
  exact orderParts?_eq_compare (isNaN_eq_false.mp ha) (isNaN_eq_false.mp hb) hbase

section

variable {a b : Number} (ha : a.isNaN = false) (hb : b.isNaN = false) {base : Int}
  (hbase : base ≤ a.parts.exponent ∧ base ≤ b.parts.exponent)

include ha hb hbase

theorem equals_iff : a.equals b = true ↔
    a.parts.tier = b.parts.tier ∧ a.parts.scaled base = b.parts.scaled base := by
  rw [equals, order?_eq_compare ha hb hbase, beq_iff_eq, Option.some_inj, Ordering.then_eq_eq,
    Int.compare_eq_eq, Int.compare_eq_eq]

theorem less_iff : a.less b = true ↔ a.parts.tier < b.parts.tier ∨
    a.parts.tier = b.parts.tier ∧ a.parts.scaled base < b.parts.scaled base := by
  rw [less, order?_eq_compare ha hb hbase, beq_iff_eq, Option.some_inj, Ordering.then_eq_lt,
    Int.compare_eq_lt, Int.compare_eq_lt, Int.compare_eq_eq]

end

/-- What is not a number equals nothing. -/
theorem equals_of_isNaN {a b : Number} (h : a.isNaN = true ∨ b.isNaN = true) :
    a.equals b = false := by
  simp only [isNaN, beq_iff_eq] at h
  rw [equals, order?_eq]
  rcases h with h | h
  · rw [h]
    rfl
  · rw [h]
    cases a.parts <;> rfl

theorem equals_comm (a b : Number) : a.equals b = b.equals a := by
  by_cases h : a.isNaN = true ∨ b.isNaN = true
  · rw [equals_of_isNaN h, equals_of_isNaN h.symm]
  · obtain ⟨ha, hb⟩ := not_or.mp h
    rw [Bool.not_eq_true] at ha hb
    have hmin := And.intro (Int.min_le_left a.parts.exponent b.parts.exponent)
      (Int.min_le_right a.parts.exponent b.parts.exponent)
    rw [Bool.eq_iff_iff, equals_iff ha hb hmin, equals_iff hb ha hmin.symm, eq_comm,
      eq_comm (a := a.parts.scaled _)]

/-- A number equals itself. -/
theorem equals_self {a : Number} (h : a.isNaN = false) : a.equals a = true :=
  (equals_iff h h ⟨Int.le_refl a.parts.exponent, Int.le_refl _⟩).mpr ⟨rfl, rfl⟩

end Number

end ScopeLowering

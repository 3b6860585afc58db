import Mathlib.Data.Int.Bitwise
import Mathlib.Data.Int.ModEq
import ScopeLowering.Machine.Operator
import ScopeLowering.Proofs.Magnitudes

/-!
# Operators on words

The bitwise operators act on words of 32 bits, whatever the size of their operands
(`bitwise_on_words`).

## The model

There are two ways to read such an operator. It works on whole numbers with all their bits, of which
a negative one has infinitely many, and wraps the result (`BinaryOp.onWholes`); or it takes the
words of its operands and works on those (`BinaryOp.onWords`). The two agree because the bits of a
word are the low bits of its number (`getElem_ofInt`), and because `32` divides `2^32`, so that the
word of a number is enough to know how far it says to shift (`toNat_ofInt_mod`).
-/

namespace ScopeLowering

/-! ### Whole numbers as words -/

theorem toInt_ofInt_eq_wrap (k : Int) : (BitVec.ofInt 32 k).toInt = wrap k := BitVec.toInt_ofInt k

theorem wrap_bounds (k : Int) : -2 ^ 31 ≤ wrap k ∧ wrap k < 2 ^ 31 := by
  rw [← toInt_ofInt_eq_wrap]
  exact ⟨BitVec.le_toInt _, BitVec.toInt_lt⟩

/-- Whole numbers have the same word if they differ by a multiple of `2^32`. -/
theorem ofInt_eq_iff_modEq {k l : Int} :
    BitVec.ofInt 32 k = BitVec.ofInt 32 l ↔ k ≡ l [ZMOD 2 ^ 32] := by
  rw [← BitVec.toNat_inj, BitVec.toNat_ofInt, BitVec.toNat_ofInt, Int.ModEq]
  omega

/-- There is just one signed number of 32 bits with a given word. -/
theorem eq_wrap_iff {k r : Int} :
    r = wrap k ↔ (-2 ^ 31 ≤ r ∧ r < 2 ^ 31) ∧ r ≡ k [ZMOD 2 ^ 32] := by
  constructor
  · rintro rfl
    refine ⟨wrap_bounds k, ofInt_eq_iff_modEq.mp ?_⟩
    rw [← toInt_ofInt_eq_wrap, BitVec.ofInt_toInt]
  · rintro ⟨⟨hlow, hhigh⟩, h⟩
    rw [← toInt_ofInt_eq_wrap, ← ofInt_eq_iff_modEq.mpr h, BitVec.toInt_ofInt]
    exact (Int.bmod_eq_of_le (by omega) (by omega)).symm

theorem ofInt_wrap (k : Int) : BitVec.ofInt 32 (wrap k) = BitVec.ofInt 32 k :=
  ofInt_eq_iff_modEq.mpr (eq_wrap_iff.mp rfl).2

/-- The bits of a word are the low bits of the number. -/
theorem getElem_ofInt {w : Nat} (k : Int) {i : Nat} (hi : i < w) :
    (BitVec.ofInt w k)[i] = k.testBit i := by
  have hnat : ∀ n, (BitVec.ofNat w n)[i] = n.testBit i := by
    intro n
    simp [BitVec.getElem_eq_testBit_toNat, hi]
  cases k with
  | ofNat n => exact hnat n
  | negSucc n =>
    simp only [BitVec.ofInt_negSucc_eq_not_ofNat, BitVec.getElem_not, hnat]
    rfl

theorem not_eq_lnot (k : Int) : k.not = k.lnot := by
  cases k <;> rfl

theorem testBit_and (k l : Int) (i : Nat) :
    (Whole.and k l).testBit i = (k.testBit i && l.testBit i) := by
  cases k <;> cases l <;> simp [Whole.and, Int.testBit] <;> grind

theorem testBit_or (k l : Int) (i : Nat) :
    (Whole.or k l).testBit i = (k.testBit i || l.testBit i) := by
  simp [Whole.or, not_eq_lnot, testBit_and, Int.testBit_lnot]

theorem testBit_xor (k l : Int) (i : Nat) :
    (Whole.xor k l).testBit i = (k.testBit i ^^ l.testBit i) := by
  cases k <;> cases l <;> simp [Whole.xor, Int.testBit]

theorem ofInt_and (w : Nat) (k l : Int) :
    BitVec.ofInt w (Whole.and k l) = BitVec.ofInt w k &&& BitVec.ofInt w l := by
  ext i hi
  simp [getElem_ofInt, testBit_and]

theorem ofInt_or (w : Nat) (k l : Int) :
    BitVec.ofInt w (Whole.or k l) = BitVec.ofInt w k ||| BitVec.ofInt w l := by
  ext i hi
  simp [getElem_ofInt, testBit_or]

theorem ofInt_xor (w : Nat) (k l : Int) :
    BitVec.ofInt w (Whole.xor k l) = BitVec.ofInt w k ^^^ BitVec.ofInt w l := by
  ext i hi
  simp [getElem_ofInt, testBit_xor]

theorem ofInt_lnot (w : Nat) (k : Int) : BitVec.ofInt w k.lnot = ~~~BitVec.ofInt w k := by
  ext i hi
  simp [getElem_ofInt, Int.testBit_lnot]

/-- The complement of a number of 32 bits is one too. -/
theorem lnot_wrap (k : Int) : (wrap k).lnot = wrap k.lnot := by
  have hlnot : ∀ j : Int, j.lnot = -j - 1 := by
    intro j
    cases j with
    | ofNat n => show Int.negSucc n = -(n : Int) - 1; omega
    | negSucc n => show (n : Int) = -Int.negSucc n - 1; omega
  obtain ⟨hbounds, hmod⟩ := eq_wrap_iff.mp (rfl : wrap k = wrap k)
  refine eq_wrap_iff.mpr ⟨by rw [hlnot]; omega, ?_⟩
  rw [hlnot, hlnot]
  exact hmod.neg.sub_right 1

theorem ofInt_mul_two_pow (w : Nat) (k : Int) (s : Nat) :
    BitVec.ofInt w (k * 2 ^ s) = BitVec.ofInt w k <<< s := by
  have htwo : BitVec.ofInt w (2 ^ s) = BitVec.twoPow w s := by
    refine BitVec.eq_of_toNat_eq ?_
    rw [BitVec.toNat_ofInt, BitVec.toNat_twoPow]
    norm_cast
  rw [BitVec.ofInt_mul, htwo, BitVec.shiftLeft_eq_mul_twoPow]

theorem toNat_ofInt_mod (l : Int) : (BitVec.ofInt 32 l).toNat % 32 = shiftCount l := by
  rw [shiftCount, BitVec.toNat_ofInt]
  omega

/-! ### Operators -/

namespace BinaryOp

/-- Does the operator act on words? -/
def isBitwise : BinaryOp → Bool
  | bitAnd | bitOr | bitXor | shiftLeft | shiftRight | shiftRightUnsigned => true
  | _ => false

/-- A bitwise operation on two words, as a signed number, or an unsigned one for the unsigned
shift. -/
def onWords : BinaryOp → BitVec 32 → BitVec 32 → Int
  | bitAnd, a, b => (a &&& b).toInt
  | bitOr, a, b => (a ||| b).toInt
  | bitXor, a, b => (a ^^^ b).toInt
  | shiftLeft, a, b => (a <<< (b.toNat % 32)).toInt
  | shiftRight, a, b => (a.sshiftRight (b.toNat % 32)).toInt
  | _, a, b => (a >>> (b.toNat % 32)).toNat

/-- An operation on words is the operation on whole numbers, wrapped. -/
theorem onWords_ofInt {op : BinaryOp} (hop : op.isBitwise = true) (k l : Int) :
    op.onWords (.ofInt 32 k) (.ofInt 32 l) = op.onWholes k l := by
  cases op with
  | bitAnd => rw [onWords, ← ofInt_and, toInt_ofInt_eq_wrap, onWholes]
  | bitOr => rw [onWords, ← ofInt_or, toInt_ofInt_eq_wrap, onWholes]
  | bitXor => rw [onWords, ← ofInt_xor, toInt_ofInt_eq_wrap, onWholes]
  | shiftLeft =>
    rw [onWords, toNat_ofInt_mod, ← ofInt_mul_two_pow, toInt_ofInt_eq_wrap, onWholes]
    norm_cast
  | shiftRight =>
    rw [onWords, toNat_ofInt_mod, BitVec.toInt_sshiftRight, toInt_ofInt_eq_wrap, onWholes,
      Int.shiftRight_eq_div_pow]
    norm_cast
  | shiftRightUnsigned =>
    have hmod : ((k % 2 ^ 32).toNat : Int) = k % 2 ^ 32 := by omega
    show (((BitVec.ofInt 32 k >>> ((BitVec.ofInt 32 l).toNat % 32)).toNat : Nat) : Int) =
      k % 2 ^ 32 / 2 ^ shiftCount l
    rw [toNat_ofInt_mod, BitVec.toNat_ushiftRight, BitVec.toNat_ofInt, Nat.shiftRight_eq_div_pow,
      Int.natCast_ediv, Int.natCast_pow, ← hmod]
    rfl
  | _ => cases hop

/-- The results are numbers of 32 bits. -/
theorem onWords_bounds (op : BinaryOp) (v w : BitVec 32) :
    if op = shiftRightUnsigned then 0 ≤ op.onWords v w ∧ op.onWords v w < 2 ^ 32
    else op.isBitwise = true → -2 ^ 31 ≤ op.onWords v w ∧ op.onWords v w < 2 ^ 31 := by
  cases op with
  | shiftRightUnsigned =>
    exact ⟨Int.natCast_nonneg _, Int.ofNat_lt.mpr (BitVec.isLt _)⟩
  | bitAnd | bitOr | bitXor | shiftLeft | shiftRight =>
    exact fun _ => ⟨BitVec.le_toInt _, BitVec.toInt_lt⟩
  | _ => exact nofun

end BinaryOp

/-! ### Values that count as whole numbers -/

/-- A whole number is its own whole part, also when it is a double. -/
theorem Decimal.truncate?_of_equals {x : Float} {k : Int}
    (h : (Number.float x).equals (.int k) = true) : truncate? x = some k := by
  have hnan : (Number.float x).isNaN = false := by
    rw [← Bool.not_eq_true]
    exact fun hx => absurd h (by rw [Number.equals_of_isNaN (.inl hx)]; exact Bool.false_ne_true)
  have hmin := And.intro (Int.min_le_left (Number.float x).parts.exponent 0)
    (Int.min_le_right (Number.float x).parts.exponent 0)
  obtain ⟨htier, hscaled⟩ := (Number.equals_iff hnan rfl hmin).mp h
  unfold truncate?
  change (parts x).tier = 0 at htier
  change (parts x).scaled (min (parts x).exponent 0) =
    Number.signed (k < 0) k.natAbs * twoPow (0 - min (parts x).exponent 0).toNat at hscaled
  cases hx : parts x with
  | nan => exact absurd hx (Number.isNaN_eq_false.mp hnan)
  | infinite s =>
    rw [hx] at htier
    cases s <;> cases htier
  | finite s m e =>
    rw [hx, Number.signed_natAbs, Parts.exponent, Parts.scaled] at hscaled
    dsimp only
    by_cases he : 0 ≤ e
    · rw [Int.min_eq_right he, Int.sub_zero] at hscaled
      rw [if_pos he, Option.some_inj]
      cases s <;> simpa [Number.signed] using hscaled
    · -- the significand is a multiple of what it is divided by
      have hpos : (twoPow (-e).toNat : Int) ≠ 0 := Int.natCast_ne_zero.mpr (Nat.two_pow_pos _).ne'
      rw [Int.min_eq_left (by omega), Int.sub_self, Int.zero_sub] at hscaled
      rw [if_neg he, Option.some_inj, Int.natCast_ediv]
      cases s with
      | false =>
        have hm : (m : Int) = k * twoPow (-e).toNat := by simpa [Number.signed] using hscaled
        rw [hm, Int.mul_ediv_cancel _ hpos]
        rfl
      | true =>
        have hm : (m : Int) = -k * twoPow (-e).toNat := by
          rw [Int.neg_mul, ← hscaled]
          simp [Number.signed]
        rw [hm, Int.mul_ediv_cancel _ hpos, if_pos rfl, Int.neg_neg]

theorem Number.toWord_of_equals {n : Number} {k : Int} (h : n.equals (.int k) = true) :
    n.toWord = wrap k := by
  cases n with
  | int j =>
    have hj : compare j k = .eq := by simpa [equals, order?] using h
    rw [toWord, Int.compare_eq_eq.mp hj]
  | float x =>
    rw [toWord, Decimal.truncate?_of_equals h, Option.getD_some]

namespace Machine

variable {m : Machine}

/-- Does the value count as the whole number? It may be a double, or a text that reads as one. -/
def CountsAs (m : Machine) (v : Value) (k : Int) : Prop :=
  ∃ n, m.numberOf v = .ok n ∧ n.equals (.int k) = true

theorem CountsAs.wordOf {v : Value} {k : Int} (h : m.CountsAs v k) :
    m.wordOf v = .ok (wrap k) := by
  obtain ⟨n, hn, hk⟩ := h
  rw [Machine.wordOf, hn, ← Number.toWord_of_equals hk]
  rfl

theorem CountsAs.binary {op : BinaryOp} (hop : op.isBitwise = true) {a b : Value} {k l : Int}
    (ha : m.CountsAs a k) (hb : m.CountsAs b l) :
    m.binary op a b = .ok (.int (op.onWords (.ofInt 32 k) (.ofInt 32 l))) := by
  cases op with
  | bitAnd | bitOr | bitXor | shiftLeft | shiftRight | shiftRightUnsigned =>
    rw [Machine.binary, ha.wordOf, hb.wordOf, ← ofInt_wrap k, ← ofInt_wrap l,
      BinaryOp.onWords_ofInt hop]
    rfl
  | _ => cases hop

theorem CountsAs.complement {a : Value} {k : Int} (ha : m.CountsAs a k) :
    m.unary .complement a = .ok (.int (~~~BitVec.ofInt 32 k).toInt) := by
  rw [Machine.unary, ha.wordOf, ← ofInt_lnot, toInt_ofInt_eq_wrap, ← lnot_wrap, ← not_eq_lnot]
  rfl

end Machine

/-- **The bitwise operators act on words of 32 bits.** Let `a` and `b` be values that count as the
whole numbers `k` and `l`.

The number of 32 bits that `a` counts as is the only one from `-2^31` up to `2^31` that differs from
`k` by a multiple of `2^32`. Each operator gives the result of the operation on words,
which is signed for all but the unsigned shift; shifts go by `l` modulo `32` places. It is the
result of working on `k` and `l` themselves and wrapping only what comes out, or of wrapping them
before as well. It is in the range of 32 bits. And it stays the same when an operand is replaced by
one that differs from it by a multiple of `2^32`. -/
theorem bitwise_on_words (m : Machine) {a b : Value} {k l : Int} (ha : m.CountsAs a k)
    (hb : m.CountsAs b l) :
    (∃ w, m.wordOf a = .ok w ∧
      ∀ r, r = w ↔ (-2 ^ 31 ≤ r ∧ r < 2 ^ 31) ∧ r ≡ k [ZMOD 2 ^ 32]) ∧
    (m.binary .bitAnd a b = .ok (.int (.ofInt 32 k &&& .ofInt 32 l : BitVec 32).toInt) ∧
      m.binary .bitOr a b = .ok (.int (.ofInt 32 k ||| .ofInt 32 l : BitVec 32).toInt) ∧
      m.binary .bitXor a b = .ok (.int (.ofInt 32 k ^^^ .ofInt 32 l : BitVec 32).toInt) ∧
      m.binary .shiftLeft a b = .ok (.int (BitVec.ofInt 32 k <<< (l % 32).toNat).toInt) ∧
      m.binary .shiftRight a b =
        .ok (.int ((BitVec.ofInt 32 k).sshiftRight (l % 32).toNat).toInt) ∧
      m.binary .shiftRightUnsigned a b =
        .ok (.int (BitVec.ofInt 32 k >>> (l % 32).toNat).toNat) ∧
      m.unary .complement a = .ok (.int (~~~BitVec.ofInt 32 k).toInt)) ∧
    (∀ op, op.isBitwise = true → ∃ r, m.binary op a b = .ok (.int r) ∧
      r = op.onWholes k l ∧ r = op.onWholes (wrap k) (wrap l) ∧
      if op = .shiftRightUnsigned then 0 ≤ r ∧ r < 2 ^ 32 else -2 ^ 31 ≤ r ∧ r < 2 ^ 31) ∧
    (∃ r, m.unary .complement a = .ok (.int r) ∧ r = wrap k.lnot ∧ r = (wrap k).lnot ∧
      -2 ^ 31 ≤ r ∧ r < 2 ^ 31) ∧
    ∀ a' k', m.CountsAs a' k' → k' ≡ k [ZMOD 2 ^ 32] →
      m.unary .complement a' = m.unary .complement a ∧
      ∀ op, op.isBitwise = true →
        m.binary op a' b = m.binary op a b ∧ m.binary op b a' = m.binary op b a := by
  refine ⟨⟨_, ha.wordOf, fun r => eq_wrap_iff⟩, ⟨ha.binary rfl hb, ha.binary rfl hb,
    ha.binary rfl hb, ?_, ?_, ?_, ha.complement⟩, fun op hop => ?_, ?_, fun a' k' ha' hk => ?_⟩
  iterate 3 rw [ha.binary rfl hb, ← shiftCount, ← toNat_ofInt_mod]; rfl
  · refine ⟨_, ha.binary hop hb, BinaryOp.onWords_ofInt hop k l, ?_, ?_⟩
    · rw [← BinaryOp.onWords_ofInt hop, ofInt_wrap, ofInt_wrap]
    · have hbounds := op.onWords_bounds (.ofInt 32 k) (.ofInt 32 l)
      split at hbounds
      · rwa [if_pos ‹_›]
      · rw [if_neg ‹_›]
        exact hbounds hop
  · have hnot : (~~~BitVec.ofInt 32 k).toInt = wrap k.lnot := by
      rw [← ofInt_lnot, toInt_ofInt_eq_wrap]
    exact ⟨_, ha.complement, hnot, hnot.trans (lnot_wrap k).symm, BitVec.le_toInt _,
      BitVec.toInt_lt⟩
  · have hword : BitVec.ofInt 32 k' = BitVec.ofInt 32 k := ofInt_eq_iff_modEq.mpr hk
    refine ⟨by rw [ha'.complement, ha.complement, hword], fun op hop => ⟨?_, ?_⟩⟩
    · rw [ha'.binary hop hb, ha.binary hop hb, hword]
    · rw [hb.binary hop ha', hb.binary hop ha, hword]

/-- The text counts as one less than `-2^32`, whose word is that of `-1`, and the number says to
shift by three places. -/
theorem bitwise_on_words_hugeOperands :
    ({} : Machine).CountsAs (.text " -4294967297 ") (-4294967297) ∧
    ({} : Machine).binary .shiftLeft (.text " -4294967297 ") (.int (2 ^ 40 + 35)) =
      .ok (.int (-8)) ∧
    ({} : Machine).binary .shiftRight (.text " -4294967297 ") (.int (2 ^ 40 + 35)) =
      .ok (.int (-1)) ∧
    ({} : Machine).binary .shiftRightUnsigned (.text " -4294967297 ") (.int (2 ^ 40 + 35)) =
      .ok (.int (2 ^ 29 - 1)) := by
  have ha : ({} : Machine).CountsAs (.text " -4294967297 ") (-4294967297) :=
    ⟨_, rfl, by decide +kernel⟩
  have hb : ({} : Machine).CountsAs (.int (2 ^ 40 + 35)) (2 ^ 40 + 35) :=
    ⟨_, rfl, by decide +kernel⟩
  obtain ⟨_, _, _, hleft, hright, hunsigned, _⟩ := (bitwise_on_words {} ha hb).2.1
  exact ⟨ha, hleft, hright, hunsigned⟩

end ScopeLowering

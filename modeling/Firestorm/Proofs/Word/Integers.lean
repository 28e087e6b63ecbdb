import Mathlib.Algebra.BigOperators.ModEq
import Mathlib.Algebra.Order.Ring.Int
import Mathlib.Data.Int.ModEq
import Mathlib.Data.Nat.Bitwise
import Mathlib.Tactic.Positivity
import Firestorm.Word

/-!
# Word arithmetic on the integers

The operators on words are described by what they do to the signed numbers that the words stand for.
Two words with congruent numbers modulo `2 ^ 64` are equal, so what wraps around is stated as a
congruence and what does not as an equation.

## Main definitions

* `Word.place`, `Word.IsDivision`.

## Main results

* `Word.toInt_shiftLeft_modEq`, `Word.toInt_shiftRight`, `Word.bitTest_ne_zero_iff`,
  `Word.sum_bitTest_modEq`.
* `Word.arithmetic_on_integers`: when operators have a value, and which.
-/

namespace Firestorm.Word

/-! ### Places -/

/-- The place in a word that another word selects: its number modulo sixty-four, also when it is
negative. -/
def place (index : Word) : Nat :=
  (index.toInt % 64).toNat

theorem coe_place (index : Word) : (place index : Int) = index.toInt % 64 :=
  Int.toNat_of_nonneg (Int.emod_nonneg _ (by decide))

theorem place_lt (index : Word) : place index < 64 := by
  have hplace := coe_place index
  omega

/-- The lowest six bits of a word select the place. -/
theorem place_eq (index : Word) : place index = index.toBitVec.toNat % 64 := by
  have hplace := coe_place index
  have hindex := BitVec.toInt_eq_toNat_cond index.toBitVec
  rw [Int64.toInt_toBitVec] at hindex
  split at hindex <;> omega

theorem toNat_smod_64 (amount : Word) : (amount.toBitVec.smod 64).toNat = place amount := by
  have hsmod : (amount.toBitVec.smod 64).toInt = amount.toBitVec.toInt.fmod 64 := BitVec.toInt_smod
  rw [Int.fmod_eq_emod_of_nonneg _ (by decide), Int64.toInt_toBitVec, ← coe_place] at hsmod
  have hresult := BitVec.toInt_eq_toNat_cond (amount.toBitVec.smod 64)
  have hlt := (amount.toBitVec.smod 64).isLt
  have hplace := place_lt amount
  split at hresult <;> omega

theorem toBitVec_shiftLeft (a amount : Word) :
    (a <<< amount).toBitVec = a.toBitVec <<< place amount := by
  rw [← toNat_smod_64]
  exact Int64.toBitVec_shiftLeft ..

theorem toBitVec_shiftRight (a amount : Word) :
    (a >>> amount).toBitVec = a.toBitVec.sshiftRight (place amount) := by
  rw [← toNat_smod_64]
  exact Int64.toBitVec_shiftRight ..

/-! ### Shifts -/

/-- The signed and the unsigned number of a word are congruent. -/
theorem toInt_modEq (a : Word) : a.toInt ≡ a.toBitVec.toNat [ZMOD 2 ^ 64] := by
  rw [Int.ModEq, ← Int64.toInt_toBitVec, BitVec.toInt_eq_toNat_bmod]
  exact Int.bmod_emod

/-- A shift to the left multiplies by a power of two. -/
theorem toInt_shiftLeft_modEq (a amount : Word) :
    (a <<< amount).toInt ≡ a.toInt * 2 ^ place amount [ZMOD 2 ^ 64] := by
  calc (a <<< amount).toInt
    _ ≡ ((a.toBitVec <<< place amount).toNat : Int) [ZMOD 2 ^ 64] := by
      rw [← toBitVec_shiftLeft]
      exact toInt_modEq _
    _ ≡ (a.toBitVec.toNat : Int) * 2 ^ place amount [ZMOD 2 ^ 64] := by
      rw [BitVec.toNat_shiftLeft, Nat.shiftLeft_eq]
      push_cast
      exact Int.mod_modEq _ _
    _ ≡ a.toInt * 2 ^ place amount [ZMOD 2 ^ 64] := (toInt_modEq a).symm.mul_right _

/-- A shift to the right divides by a power of two and rounds down. -/
theorem toInt_shiftRight (a amount : Word) :
    (a >>> amount).toInt = a.toInt.fdiv (2 ^ place amount) := by
  rw [← Int64.toInt_toBitVec, toBitVec_shiftRight, BitVec.toInt_sshiftRight,
    Int.shiftRight_eq_div_pow, Int.fdiv_eq_ediv_of_nonneg _ (by positivity), Int64.toInt_toBitVec]
  norm_cast

/-! ### Bits -/

/-- A bit test keeps one binary digit at its place. -/
theorem toNat_bitTest (a index : Word) :
    (bitTest a index).toBitVec.toNat = 2 ^ place index *
    (a.toBitVec.toNat / 2 ^ place index % 2) := by
  have hone : ((1 : Word) <<< index).toBitVec.toNat = 2 ^ place index := by
    rw [toBitVec_shiftLeft, BitVec.toNat_shiftLeft, Nat.shiftLeft_eq]
    exact (congrArg (· % 2 ^ 64) (Nat.one_mul _)).trans
      (Nat.mod_eq_of_lt (Nat.pow_lt_pow_right (by decide) (place_lt index)))
  rw [bitTest, Int64.toBitVec_and, BitVec.toNat_and, hone, Nat.and_two_pow, Nat.toNat_testBit,
    Nat.mul_comm]

/-- A bit test tells whether the digit at its place is one. -/
theorem bitTest_ne_zero_iff (a index : Word) :
    bitTest a index ≠ 0 ↔ a.toInt.fdiv (2 ^ place index) % 2 = 1 := by
  have hzero : bitTest a index = 0 ↔ (bitTest a index).toBitVec.toNat = 0 := by
    rw [← Int64.toBitVec_inj, ← BitVec.toNat_inj]
    rfl
  -- The digit is the lowest one of the word shifted to the right, and congruent numbers have the
  -- same parity.
  have hlowest : (a >>> index).toBitVec.toNat % 2 = a.toBitVec.toNat / 2 ^ place index % 2 := by
    calc (a >>> index).toBitVec.toNat % 2
      _ = ((a >>> index).toBitVec.toNat.testBit 0).toNat := by
        rw [Nat.toNat_testBit, Nat.pow_zero, Nat.div_one]
      _ = (a.toBitVec.toNat.testBit (place index)).toNat := by
        rw [BitVec.testBit_toNat, BitVec.testBit_toNat, toBitVec_shiftRight,
          BitVec.getLsbD_sshiftRight]
        simp [place_lt]
      _ = a.toBitVec.toNat / 2 ^ place index % 2 := Nat.toNat_testBit ..
  have hparity : (a >>> index).toInt % 2 = ((a >>> index).toBitVec.toNat : Int) % 2 :=
    (toInt_modEq (a >>> index)).of_mul_right (2 ^ 63)
  have hpower : 2 ^ place index ≠ 0 := by positivity
  rw [Ne, hzero, toNat_bitTest, ← toInt_shiftRight, hparity, Nat.mul_eq_zero, or_iff_right hpower]
  omega

/-- The binary digits of a number, each at its place, add up to the number. -/
theorem sum_digits (x n : Nat) : ∑ i ∈ Finset.range n, 2 ^ i * (x / 2 ^ i % 2) = x % 2 ^ n := by
  induction n with
  | zero => simp [Nat.mod_one]
  | succ n ih => rw [Finset.sum_range_succ, ih, Nat.mod_pow_succ]

/-- The bit tests of a word add up to the word. -/
theorem sum_bitTest_modEq (a : Word) :
    ∑ i ∈ Finset.range 64, (bitTest a (Int64.ofNat i)).toInt ≡ a.toInt [ZMOD 2 ^ 64] := by
  have hplace : ∀ i ∈ Finset.range 64, place (Int64.ofNat i) = i := by decide
  calc ∑ i ∈ Finset.range 64, (bitTest a (Int64.ofNat i)).toInt
    _ ≡ ∑ i ∈ Finset.range 64, ((bitTest a (Int64.ofNat i)).toBitVec.toNat : Int) [ZMOD 2 ^ 64] :=
      Int.ModEq.sum fun i _ => toInt_modEq _
    _ = (∑ i ∈ Finset.range 64, 2 ^ i * (a.toBitVec.toNat / 2 ^ i % 2) : Nat) := by
      rw [Nat.cast_sum]
      exact Finset.sum_congr rfl fun i hi => by rw [toNat_bitTest, hplace i hi]
    _ = (a.toBitVec.toNat : Int) := by rw [sum_digits, Nat.mod_eq_of_lt a.toBitVec.isLt]
    _ ≡ a.toInt [ZMOD 2 ^ 64] := (toInt_modEq a).symm

/-! ### Quotients and remainders -/

/-- A quotient and a remainder of words. The quotient is truncated toward zero, except that the
quotient of the least word by `-1`, which is no word, wraps around. -/
structure IsDivision (a b quotient remainder : Word) : Prop where
  modEq : a.toInt ≡ quotient.toInt * b.toInt + remainder.toInt [ZMOD 2 ^ 64]
  abs_lt : |remainder.toInt| < |b.toInt|
  sign : remainder.toInt = 0 ∨ remainder.toInt.sign = a.toInt.sign
  truncated : quotient.toInt =
    if a = Int64.minValue ∧ b = -1 then Int64.minValue.toInt else a.toInt.tdiv b.toInt

theorem toInt_div_eq_ite (a b : Word) : (a / b).toInt =
    if a = Int64.minValue ∧ b = -1 then Int64.minValue.toInt else a.toInt.tdiv b.toInt := by
  split
  next h =>
    obtain ⟨rfl, rfl⟩ := h
    decide
  next h =>
    rcases Classical.not_and_iff_not_or_not.1 h with ha | hb
    · exact Int64.toInt_div_of_ne_left a b ha
    · exact Int64.toInt_div_of_ne_right a b hb

theorem isDivision {a b : Word} (hb : b ≠ 0) : IsDivision a b (a / b) (a % b) where
  modEq := by
    have hexact : a.toInt = a.toInt.tdiv b.toInt * b.toInt + a.toInt.tmod b.toInt :=
      (Int.tdiv_mul_add_tmod _ _).symm
    have hwrap : a.toInt.tdiv b.toInt ≡ (a.toInt.tdiv b.toInt).bmod (2 ^ 64) [ZMOD 2 ^ 64] :=
      Int.bmod_emod.symm
    rw [Int64.toInt_mod, Int64.toInt_div]
    nth_rewrite 1 [hexact]
    exact (hwrap.mul_right _).add_right _
  abs_lt := by
    have hb' : b.toInt ≠ 0 := fun h => hb (Int64.toInt_inj.1 h)
    rw [Int64.toInt_mod, ← Int.natCast_natAbs, ← Int.natCast_natAbs, Int.natAbs_tmod]
    exact_mod_cast Nat.mod_lt _ (Int.natAbs_pos.2 hb')
  sign := by
    rw [Int64.toInt_mod, Int.sign_tmod]
    by_cases hdvd : b.toInt ∣ a.toInt
    · exact .inl (Int.tmod_eq_zero_of_dvd hdvd)
    · exact .inr (if_neg hdvd)
  truncated := toInt_div_eq_ite a b

/-- Only a quotient and a remainder by zero have no value. Division truncates toward zero, shifts
multiply by and divide by `2 ^ (b mod 64)`, and the bit tests of a word are its binary digits. -/
theorem arithmetic_on_integers (a b : Word) :
    (∀ op : BinaryOp, op.eval a b = none ↔ (op = .div ∨ op = .mod) ∧ b = 0) ∧
    (b ≠ 0 → ∃ quotient remainder, BinaryOp.div.eval a b = some quotient ∧
      BinaryOp.mod.eval a b = some remainder ∧ IsDivision a b quotient remainder) ∧
    (place b : Int) = b.toInt % 64 ∧
    (∃ x, BinaryOp.shiftLeft.eval a b = some x ∧ x.toInt ≡ a.toInt * 2 ^ place b [ZMOD 2 ^ 64]) ∧
    (∃ x, BinaryOp.shiftRight.eval a b = some x ∧ x.toInt = a.toInt.fdiv (2 ^ place b)) ∧
    (bitTest a b ≠ 0 ↔ a.toInt.fdiv (2 ^ place b) % 2 = 1) ∧
    ∑ i ∈ Finset.range 64, (bitTest a (Int64.ofNat i)).toInt ≡ a.toInt [ZMOD 2 ^ 64] := by
  refine ⟨fun op => ?_, fun hb => ?_, coe_place b, ⟨_, rfl, toInt_shiftLeft_modEq a b⟩,
    ⟨_, rfl, toInt_shiftRight a b⟩, bitTest_ne_zero_iff a b, sum_bitTest_modEq a⟩
  · cases op <;> simp [BinaryOp.eval]
  · exact ⟨a / b, a % b, if_neg hb, if_neg hb, isDivision hb⟩

example : BinaryOp.div.eval Int64.minValue (-1) = some Int64.minValue ∧
    BinaryOp.shiftRight.eval (-16) (-62) = some (-4) := by decide

end Firestorm.Word

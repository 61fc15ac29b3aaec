import Udipe.Benchmark.Accumulator
import Udipe.Lib.Positional
import Mathlib.Data.Nat.Bitwise

/-!
# Decoding a `binary64` number

The value of a finite bit pattern is an integer number of smallest subnormals. Decoding gives its sign
and two words of the accumulator with exactly this value.
-/

namespace Udipe

open Function Checked

/-! ## What a bit pattern stands for -/

namespace Binary64

/-- The biased exponent field. -/
def biasedExponent (bits : BitVec 64) : ℕ := bits.toNat / 2 ^ 52 % 2 ^ 11

/-- The fraction field. -/
def fraction (bits : BitVec 64) : ℕ := bits.toNat % 2 ^ 52

/-- Neither an infinity nor a NaN. -/
def Finite (bits : BitVec 64) : Prop := biasedExponent bits ≠ 2 ^ 11 - 1

instance (bits : BitVec 64) : Decidable (Finite bits) := inferInstanceAs (Decidable (_ ≠ _))

/-- The magnitude, in units of the smallest subnormal number. -/
def magnitude (bits : BitVec 64) : ℕ :=
  if biasedExponent bits = 0 then fraction bits
  else (2 ^ 52 + fraction bits) * 2 ^ (biasedExponent bits - 1)

end Binary64

/-- The integer with the given sign and magnitude. -/
def signedMagnitude (negative : Bool) (magnitude : ℕ) : ℤ :=
  if negative then -magnitude else magnitude

/-- The value, in units of the smallest subnormal number. -/
def Binary64.units (bits : BitVec 64) : ℤ := signedMagnitude bits.msb (Binary64.magnitude bits)

/-! ## The fields -/

theorem toNat_and_fractionMaskF64 (bits : BitVec 64) :
    (bits &&& fractionMaskF64).toNat = Binary64.fraction bits := by
  have hmask : fractionMaskF64.toNat = 2 ^ 52 - 1 := by decide
  rw [BitVec.toNat_and, hmask, Nat.and_two_pow_sub_one_eq_mod, Binary64.fraction]

theorem and_exponentMaskF64 (bits : BitVec 64) :
    bits &&& exponentMaskF64
      = ((bits >>> exponentShiftF64) &&& 2047#64) <<< exponentShiftF64 := by
  have hmask : exponentMaskF64 = 2047#64 <<< 52 := by decide
  rw [hmask, BitVec.shiftLeft_and_distrib]
  ext i hi
  simp only [exponentShiftF64, fractionBitsF64, BitVec.getElem_and, BitVec.getElem_shiftLeft,
    BitVec.getElem_ushiftRight]
  by_cases hlow : i < 52
  · simp [hlow]
  · simp [hlow, BitVec.getLsbD_eq_getElem hi, show 52 + (i - 52) = i by omega]

theorem toNat_exponentField (bits : BitVec 64) :
    ((bits >>> exponentShiftF64) &&& 2047#64).toNat = Binary64.biasedExponent bits := by
  have hmask : (2047#64).toNat = 2 ^ 11 - 1 := by decide
  rw [BitVec.toNat_and, hmask, Nat.and_two_pow_sub_one_eq_mod, BitVec.toNat_ushiftRight,
    Nat.shiftRight_eq_div_pow]
  rfl

theorem biasedExponent_lt (bits : BitVec 64) : Binary64.biasedExponent bits < 2 ^ 11 :=
  Nat.mod_lt _ (by norm_num)

theorem toNat_and_exponentMaskF64 (bits : BitVec 64) :
    (bits &&& exponentMaskF64).toNat = Binary64.biasedExponent bits * 2 ^ 52 := by
  have hlt := biasedExponent_lt bits
  rw [and_exponentMaskF64, BitVec.toNat_shiftLeft, toNat_exponentField, Nat.shiftLeft_eq]
  exact Nat.mod_eq_of_lt (by simp only [exponentShiftF64, fractionBitsF64]; omega)

theorem and_signBitF64_ne_zero (bits : BitVec 64) :
    decide (bits &&& signBitF64 ≠ 0#64) = bits.msb := by
  have hmask : signBitF64 = BitVec.twoPow 64 63 := by decide
  rw [hmask, BitVec.and_twoPow, BitVec.msb_eq_getLsbD_last]
  cases bits.getLsbD 63 <;> decide

/-- The number with the implicit leading bit. -/
theorem toNat_normalSignificand (bits : BitVec 64) :
    ((bits &&& fractionMaskF64) ||| (1#64 <<< fractionBitsF64)).toNat
      = 2 ^ 52 + Binary64.fraction bits := by
  have hbit : (1#64 <<< fractionBitsF64).toNat = 2 ^ 52 := by decide
  have hlt : Binary64.fraction bits < 2 ^ 52 := Nat.mod_lt _ (by norm_num)
  have hor := Nat.two_pow_add_eq_or_of_lt hlt 1
  rw [BitVec.toNat_or, toNat_and_fractionMaskF64, hbit, Nat.or_comm]
  simpa using hor.symm

/-! ## Decoding -/

/-- The significand and the exponent of a finite number, as `accumulate_decoded_f64` receives them. -/
structure DecodedF64 (bits significand : BitVec 64) (zeroBasedExponent : ℕ) : Prop where
  value : significand.toNat * 2 ^ zeroBasedExponent = Binary64.magnitude bits
  significand_lt : significand.toNat < 2 ^ 53
  exponent_lt : zeroBasedExponent < numFiniteExponentsF64

/-- A finite number is passed on with its significand, its exponent and its sign. -/
theorem accumulatorAddF64_decodes {bits : BitVec 64} (hfinite : Binary64.Finite bits)
    (asserts : Bool) (acc : Accumulator) :
    ∃ significand zeroBasedExponent, DecodedF64 bits significand zeroBasedExponent ∧
      accumulatorAddF64 asserts acc bits
        = accumulateDecodedF64 asserts acc significand zeroBasedExponent bits.msb := by
  have hraw := toNat_and_exponentMaskF64 bits
  have hexp := biasedExponent_lt bits
  have hfraction : Binary64.fraction bits < 2 ^ 52 := Nat.mod_lt _ (by norm_num)
  have hnum : numFiniteExponentsF64 = 2046 := by decide
  by_cases hzero : Binary64.biasedExponent bits = 0
  · have hsub : bits &&& exponentMaskF64 = rawSubnormalExponentF64 :=
      BitVec.eq_of_toNat_eq (by rw [hraw, hzero]; rfl)
    refine ⟨bits &&& fractionMaskF64, 0, ⟨?_, ?_, by omega⟩, ?_⟩
    · rw [toNat_and_fractionMaskF64, Binary64.magnitude, if_pos hzero]
      simp
    · rw [toNat_and_fractionMaskF64]
      omega
    · simp only [accumulatorAddF64, if_pos hsub, and_signBitF64_ne_zero]
  · have hsub : bits &&& exponentMaskF64 ≠ rawSubnormalExponentF64 := fun h => by
      have := congrArg BitVec.toNat h
      rw [hraw, rawSubnormalExponentF64] at this
      simp [hzero] at this
    have hnonfinite : bits &&& exponentMaskF64 ≠ rawNonfiniteExponentF64 := fun h => by
      have hnat := congrArg BitVec.toNat h
      have hmask : rawNonfiniteExponentF64.toNat = (2 ^ 11 - 1) * 2 ^ 52 := by decide
      rw [hraw, hmask] at hnat
      exact hfinite (Nat.eq_of_mul_eq_mul_right (by norm_num) hnat)
    have hshift : ((bits &&& exponentMaskF64) >>> exponentShiftF64).toNat
        = Binary64.biasedExponent bits := by
      rw [BitVec.toNat_ushiftRight, hraw, Nat.shiftRight_eq_div_pow]
      exact Nat.mul_div_cancel _ (by norm_num)
    have hmax : Binary64.biasedExponent bits ≠ 2 ^ 11 - 1 := hfinite
    refine ⟨(bits &&& fractionMaskF64) ||| (1#64 <<< fractionBitsF64),
      Binary64.biasedExponent bits - 1, ⟨?_, ?_, by omega⟩, ?_⟩
    · rw [toNat_normalSignificand, Binary64.magnitude, if_neg hzero]
    · rw [toNat_normalSignificand]
      omega
    · simp only [accumulatorAddF64, if_neg hsub, if_neg hnonfinite, hshift, and_signBitF64_ne_zero]

/-! ## Placing a significand in two words -/

namespace UnsignedAddend

/-- The number that an addend stands for. -/
def value (magnitude : UnsignedAddend) : ℕ :=
  magnitude.lowWord.toNat * (2 ^ 64) ^ magnitude.lowWordIdx
    + magnitude.highWord.toNat * (2 ^ 64) ^ (magnitude.lowWordIdx + 1)

/-- Not zero, with a free bit in the high word, and with room for the high word. -/
structure Valid (magnitude : UnsignedAddend) : Prop where
  value_pos : 0 < magnitude.value
  highWord_lt : magnitude.highWord.toNat < 2 ^ 63
  highWordIdx_lt : magnitude.lowWordIdx + 1 < numAccumulatorWords

end UnsignedAddend

theorem numAccumulatorWords_eq : numAccumulatorWords = 33 := by decide

theorem significandMaskF64_of_lt {significand : BitVec 64} (h : significand.toNat < 2 ^ 53) :
    significand &&& significandMaskF64 = significand := by
  have hmask : significandMaskF64.toNat = 2 ^ 53 - 1 := by decide
  apply BitVec.eq_of_toNat_eq
  rw [BitVec.toNat_and, hmask, Nat.and_two_pow_sub_one_eq_mod, Nat.mod_eq_of_lt h]

/-- The two words hold the shifted significand. -/
theorem toNat_shifted_words (significand : BitVec 64) {lowBitIdx : ℕ} (hbit : lowBitIdx < 64) :
    (significand <<< lowBitIdx).toNat
      + (if lowBitIdx ≠ 0 then significand >>> (64 - lowBitIdx) else 0#64).toNat * 2 ^ 64
      = significand.toNat * 2 ^ lowBitIdx := by
  have hlt := significand.isLt
  rw [BitVec.toNat_shiftLeft, Nat.shiftLeft_eq]
  split
  · -- the high word is the quotient by `2 ^ 64` of which the low word is the remainder
    have hquot : (significand >>> (64 - lowBitIdx)).toNat
        = significand.toNat * 2 ^ lowBitIdx / 2 ^ 64 := by
      have hpow : (2 : ℕ) ^ 64 = 2 ^ (64 - lowBitIdx) * 2 ^ lowBitIdx := by
        rw [← pow_add]
        congr 1
        omega
      rw [BitVec.toNat_ushiftRight, Nat.shiftRight_eq_div_pow, hpow,
        Nat.mul_div_mul_right _ _ (Nat.two_pow_pos _)]
    rw [hquot, Nat.mul_comm (_ / _)]
    exact Nat.mod_add_div _ _
  · have hzero : lowBitIdx = 0 := by omega
    subst hzero
    rw [pow_zero, Nat.mul_one, Nat.mod_eq_of_lt hlt]
    simp

/-- `compute_unsigned_addend` answers an addend with the value of the number. -/
theorem computeUnsignedAddend_spec (asserts : Bool) {significand : BitVec 64}
    {zeroBasedExponent : ℕ} (hpos : significand ≠ 0#64) (hlt : significand.toNat < 2 ^ 53)
    (hexp : zeroBasedExponent < numFiniteExponentsF64) :
    ∃ magnitude, computeUnsignedAddend asserts significand zeroBasedExponent = .ok magnitude ∧
      magnitude.Valid ∧ magnitude.value = significand.toNat * 2 ^ zeroBasedExponent := by
  have hnum : numFiniteExponentsF64 = 2046 := by decide
  have hwords := numAccumulatorWords_eq
  have hbit : zeroBasedExponent % 64 < 64 := Nat.mod_lt _ (by norm_num)
  have hlow : zeroBasedExponent / 64 < 32 := by omega
  have hshifted := toNat_shifted_words significand hbit
  set lowWord := significand <<< (zeroBasedExponent % 64)
  set highWord :=
    if zeroBasedExponent % 64 ≠ 0 then significand >>> (64 - zeroBasedExponent % 64) else 0#64
    with hhigh
  have hvalue : (⟨lowWord, highWord, zeroBasedExponent / 64⟩ : UnsignedAddend).value
      = significand.toNat * 2 ^ zeroBasedExponent := by
    calc lowWord.toNat * (2 ^ 64) ^ (zeroBasedExponent / 64)
          + highWord.toNat * (2 ^ 64) ^ (zeroBasedExponent / 64 + 1)
        = (lowWord.toNat + highWord.toNat * 2 ^ 64) * 2 ^ (64 * (zeroBasedExponent / 64)) := by
          rw [pow_mul]
          ring
      _ = significand.toNat * 2 ^ (zeroBasedExponent % 64 + 64 * (zeroBasedExponent / 64)) := by
          rw [hshifted, pow_add, Nat.mul_assoc]
      _ = significand.toNat * 2 ^ zeroBasedExponent := by rw [Nat.mod_add_div]
  refine ⟨⟨lowWord, highWord, zeroBasedExponent / 64⟩, ?_, ⟨?_, ?_, by simp only; omega⟩, hvalue⟩
  · have hidx : zeroBasedExponent / 64 < numAccumulatorWords := by omega
    have hmask := decide_eq_true (significandMaskF64_of_lt hlt)
    rw [computeUnsignedAddend, assertion_of_true asserts _ hmask, ok_bind,
      assertion_of_true asserts _ (decide_eq_true hexp), ok_bind]
    exact congrArg (· >>= _) (assertion_of_true asserts _ (decide_eq_true hidx))
  · rw [hvalue]
    have hne : significand.toNat ≠ 0 := fun h => hpos (BitVec.eq_of_toNat_eq h)
    exact Nat.mul_pos (Nat.pos_of_ne_zero hne) (Nat.two_pow_pos _)
  · simp only [hhigh]
    split
    · rw [BitVec.toNat_ushiftRight, Nat.shiftRight_eq_div_pow]
      exact (Nat.div_le_self _ _).trans_lt (hlt.trans (by norm_num))
    · simp

end Udipe

import Mathlib.Data.BitVec
import Mathlib.Data.Nat.Nth

/-!
# Bits of a machine word

Reference: `bits.h`.
-/

namespace Udipe

variable {n : ℕ} {word : BitVec n}

/-- `count_trailing_zeros`. -/
def countTrailingZeros {n : ℕ} (word : BitVec n) : ℕ :=
  ((List.range n).find? word.getLsbD).getD 0

/-- `population_count`. -/
def populationCount {n : ℕ} (word : BitVec n) : ℕ := (List.range n).countP word.getLsbD

/-- Bit `i` of the word is set. -/
abbrev SetBit (word : BitVec n) (i : ℕ) : Prop := word.getLsbD i = true

/-- `count_trailing_zeros` finds the first set bit. -/
theorem countTrailingZeros_spec (h : word ≠ 0) :
    SetBit word (countTrailingZeros word) ∧ ∀ j < countTrailingZeros word, word.getLsbD j = false := by
  obtain ⟨i, hi⟩ : ∃ i, (List.range n).find? word.getLsbD = some i := by
    rw [← Option.isSome_iff_exists, List.find?_isSome]
    by_contra hnone
    refine h (BitVec.eq_of_getLsbD_eq fun i hi => ?_)
    simpa using fun hset => hnone ⟨i, by simpa using hi, hset⟩
  rw [countTrailingZeros, hi, Option.getD_some]
  obtain ⟨hset, -, hbelow⟩ := List.find?_range_eq_some.mp hi
  exact ⟨hset, fun j hj => by simpa using hbelow j hj⟩

theorem countTrailingZeros_lt (h : word ≠ 0) : countTrailingZeros word < n :=
  BitVec.lt_of_getLsbD (countTrailingZeros_spec h).1

theorem populationCount_eq_count (word : BitVec n) : populationCount word = Nat.count (SetBit word) n := by
  rw [populationCount, Nat.count]
  congr
  funext i
  simp

/-- Up to the first set bit, there is one. -/
theorem count_countTrailingZeros (h : word ≠ 0) :
    Nat.count (SetBit word) (countTrailingZeros word + 1) = 1 := by
  obtain ⟨hset, hbelow⟩ := countTrailingZeros_spec h
  have hzero : Nat.count (SetBit word) (countTrailingZeros word) = 0 :=
    Nat.count_of_forall_not fun j hj => by simp [hbelow j hj]
  rw [Nat.count_succ, if_pos hset, hzero]

/-- The set bits of a word that has been shifted. -/
theorem setBit_ushiftRight {i k : ℕ} : SetBit (word >>> k) i ↔ SetBit word (k + i) := by
  rw [SetBit, BitVec.getLsbD_ushiftRight]

/-- Set bit number `k` is a set bit. -/
theorem setBit_nth {k : ℕ} (h : k < populationCount word) : SetBit word (Nat.nth (SetBit word) k) := by
  refine Nat.nth_mem k fun hf => ?_
  rw [populationCount_eq_count] at h
  exact h.trans_le (Nat.count_le_card hf n)

/-! ## One bit -/

/-- The word `1 << i`. -/
theorem getLsbD_one_shiftLeft (i j : ℕ) :
    (BitVec.ofNat n 1 <<< i).getLsbD j = decide (i = j ∧ j < n) := by
  rw [BitVec.getLsbD_shiftLeft, BitVec.getLsbD_one]
  by_cases hj : j < n
  · have hpos : 0 < n := by omega
    by_cases hij : i = j
    · subst hij
      simp [hj, hpos]
    · by_cases hlt : j < i
      · simp [hlt, hij]
      · have hsub : j - i ≠ 0 := by omega
        simp [hlt, hij, hsub]
  · simp [hj]

/-- A word with bit `i` cleared. -/
theorem getLsbD_and_not_bit (word : BitVec n) (i j : ℕ) :
    (word &&& ~~~(BitVec.ofNat n 1 <<< i)).getLsbD j = (word.getLsbD j && decide (i ≠ j)) := by
  rw [BitVec.getLsbD_and, BitVec.getLsbD_not, getLsbD_one_shiftLeft]
  by_cases hj : j < n
  · by_cases hij : i = j <;> simp [hj, hij]
  · simp [BitVec.getLsbD_of_ge word j (by omega)]

/-- A word with bit `i` set. -/
theorem getLsbD_or_bit (word : BitVec n) (i j : ℕ) :
    (word ||| BitVec.ofNat n 1 <<< i).getLsbD j = (word.getLsbD j || decide (i = j ∧ j < n)) := by
  rw [BitVec.getLsbD_or, getLsbD_one_shiftLeft]

/-- The test of a bit. -/
theorem and_bit_eq_zero (word : BitVec n) (i : ℕ) :
    word &&& BitVec.ofNat n 1 <<< i = 0 ↔ word.getLsbD i = false := by
  have hbit : ∀ j, (word &&& BitVec.ofNat n 1 <<< i).getLsbD j
      = (word.getLsbD j && decide (i = j ∧ j < n)) := fun j => by
    rw [BitVec.getLsbD_and, getLsbD_one_shiftLeft]
  constructor
  · intro h
    by_cases hi : i < n
    · have hclear := hbit i
      rw [h, decide_eq_true (And.intro rfl hi), Bool.and_true] at hclear
      exact hclear.symm.trans BitVec.getLsbD_zero
    · exact BitVec.getLsbD_of_ge word i (by omega)
  · intro h
    refine BitVec.eq_of_getLsbD_eq fun j hj => (hbit j).trans ?_
    have hzero : (0 : BitVec n).getLsbD j = false := BitVec.getLsbD_zero
    rw [hzero]
    by_cases hij : i = j
    · subst hij
      simp [h]
    · simp [hij]

/-- The word whose bits below `k` are set. -/
theorem getLsbD_lowMask {k : ℕ} (hk : k < n) (j : ℕ) :
    (BitVec.ofNat n 1 <<< k - 1).getLsbD j = decide (j < k) := by
  have hpow : 2 ^ k < 2 ^ n := Nat.pow_lt_pow_right (by decide) hk
  have hone : 1 < 2 ^ n := Nat.one_lt_two_pow (by omega)
  have hshift : (BitVec.ofNat n 1 <<< k).toNat = 2 ^ k := by
    rw [BitVec.toNat_shiftLeft, BitVec.toNat_ofNat, Nat.mod_eq_of_lt hone, Nat.shiftLeft_eq, one_mul,
      Nat.mod_eq_of_lt hpow]
  have hone' : (1 : BitVec n).toNat = 1 := Nat.mod_eq_of_lt hone
  have hsub : (BitVec.ofNat n 1 <<< k - 1).toNat = 2 ^ k - 1 := by
    rw [BitVec.toNat_sub_of_le, hshift, hone']
    rw [BitVec.le_def, hshift, hone']
    exact Nat.one_le_two_pow
  rw [BitVec.getLsbD, hsub, Nat.testBit_two_pow_sub_one]

end Udipe

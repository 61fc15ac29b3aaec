import Udipe.Memory.BitArray

/-!
# Searching a bit array

Reference: `bit_array.h`, `bits.h`.

The search skips the words in which the value does not occur. In the word that it stops at, the padding does not
count.
-/

namespace Udipe

open Checked PackedBits

variable (assertions : Bool)

/-- `count_trailing_zeros`, with its assertion. -/
def checkedTrailingZeros (word : Word) : Except BitArrayFailure ℕ := do
  assertion assertions (word != 0) .noTrailingBit
  pure (countTrailingZeros word)

/-- The loop of `bit_array_find_first`, with `n` words left from `word` on: the first one in which the value
occurs. -/
def skipEmptyWords (words : List Word) (emptyWord : Word) : ℕ → ℕ → Except BitArrayFailure ℕ
  | 0, word => pure word
  | n + 1, word => do
      let loaded ← loadWord words word
      if loaded ≠ emptyWord then pure word else skipEmptyWords words emptyWord n (word + 1)

/-- `bit_array_find_first`. -/
def bitArrayFindFirst (words : List Word) (length : ℕ) (value : Bool) :
    Except BitArrayFailure BitPos := do
  let endWord := bitArrayWords length
  let word ← skipEmptyWords words (bitBroadcast !value) endWord 0
  if word = endWord then pure noBitPos
  else
    let numFullWords := length / bitsPerWord
    let remainingBits := length % bitsPerWord
    let loaded ← loadWord words word
    let foundWord := normalize value loaded
    if word = numFullWords ∧ remainingBits ≠ 0 then
      let mask ← lowMask remainingBits
      let foundWord := foundWord &&& mask
      if foundWord = 0 then pure noBitPos
      else
        let offset ← checkedTrailingZeros assertions foundWord
        pure ⟨word, offset⟩
    else
      let offset ← checkedTrailingZeros assertions foundWord
      pure ⟨word, offset⟩

variable {assertions} {words : List Word} {word n length : ℕ} {value : Bool}

/-- A word is not the empty one when the value occurs in it. -/
theorem eq_bitBroadcast_not_iff {loaded : Word} :
    loaded = bitBroadcast (!value) ↔ ∀ j < bitsPerWord, loaded.getLsbD j ≠ value := by
  constructor
  · rintro rfl j hj
    rw [getLsbD_bitBroadcast hj]
    cases value <;> decide
  · intro h
    refine BitVec.eq_of_getLsbD_eq fun j hj => ?_
    rw [getLsbD_bitBroadcast hj]
    exact Bool.eq_not.mpr (h j hj)

theorem skipEmptyWords_spec (value : Bool) (hn : word + n ≤ words.length) :
    ∃ word', skipEmptyWords words (bitBroadcast !value) n word = .ok word' ∧
      word ≤ word' ∧ word' ≤ word + n ∧
      (∀ i, word * bitsPerWord ≤ i → i < word' * bitsPerWord → bitAt words i ≠ value) ∧
      (word' < word + n → words.getD word' 0 ≠ bitBroadcast (!value)) := by
  induction n generalizing word with
  | zero => exact ⟨word, rfl, le_rfl, le_rfl, fun i hle hlt => absurd hlt (by omega), fun h => absurd h (by omega)⟩
  | succ n ih =>
      rw [skipEmptyWords, loadWord_eq (by omega), ok_bind]
      split
      · rename_i hoccurs
        exact ⟨word, rfl, le_rfl, Nat.le_add_right .., fun i hle hlt => absurd hlt (by omega), fun _ => hoccurs⟩
      · rename_i hempty
        obtain ⟨word', hok, hle, hlast, hskipped, hoccurs⟩ := ih (show word + 1 + n ≤ words.length by omega)
        refine ⟨word', hok, by omega, by omega, fun i hi hlt => ?_, fun h => hoccurs (by omega)⟩
        rcases Nat.lt_or_ge i ((word + 1) * bitsPerWord) with hthis | hlater
        · exact (forall_word_iff words word fun _ bit => bit ≠ value).mp
            (eq_bitBroadcast_not_iff.mp (not_not.mp hempty)) i hi hthis
        · exact hskipped i hlater hlt

/-- When nothing is found in a word, its bits below the length differ from the value. -/
theorem ne_value_of_found_zero {found : Word} (hzero : found = 0)
    (hbits : ∀ j < bitsPerWord, (found.getLsbD j = true ↔
      word * bitsPerWord + j < length ∧ (words.getD word 0).getLsbD j = value))
    {j : ℕ} (hj : j < bitsPerWord) (hin : word * bitsPerWord + j < length) :
    (words.getD word 0).getLsbD j ≠ value := by
  intro heq
  have hset := (hbits j hj).mpr ⟨hin, heq⟩
  rw [hzero] at hset
  exact absurd (BitVec.getLsbD_zero.symm.trans hset) Bool.false_ne_true

/-- A set bit of the found word is a bit of the array with the value; the first one is the answer. -/
theorem checkedTrailingZeros_spec (assertions : Bool) {found : Word} (hne : found ≠ 0)
    (hskipped : ∀ i, i < word * bitsPerWord → bitAt words i ≠ value)
    (hbits : ∀ j < bitsPerWord, (found.getLsbD j = true ↔
      word * bitsPerWord + j < length ∧ (words.getD word 0).getLsbD j = value)) :
    ∃ offset, checkedTrailingZeros assertions found = .ok offset ∧
      ∃ i < length, bitAt words i = value ∧ (∀ j < i, bitAt words j ≠ value) ∧
        (⟨word, offset⟩ : BitPos) = bitPos i := by
  obtain ⟨hset, hbelow⟩ := countTrailingZeros_spec hne
  have hlt := countTrailingZeros_lt hne
  set offset := countTrailingZeros found with hoffset
  obtain ⟨hin, hvalue⟩ := (hbits offset hlt).mp hset
  refine ⟨offset, ?_, word * bitsPerWord + offset, hin, ?_, fun j hj => ?_, ?_⟩
  · rw [checkedTrailingZeros, assertion_of_true _ _ (by simpa using hne)]
    rfl
  · rw [bitAt_word hlt, hvalue]
  · rcases Nat.lt_or_ge j (word * bitsPerWord) with hskip | hthis
    · exact hskipped j hskip
    · obtain ⟨k, rfl⟩ := Nat.exists_eq_add_of_le hthis
      have hk : k < offset := by omega
      rw [bitAt_word (hk.trans hlt)]
      intro heq
      have hclear := hbelow k hk
      rw [(hbits k (hk.trans hlt)).mpr ⟨by omega, heq⟩] at hclear
      cases hclear
  · rw [bitPos, BitPos.mk.injEq]
    unfold bitsPerWord at *
    omega

/-- `bit_array_find_first` finds the first bit with the value, or says that there is none. -/
theorem bitArrayFindFirst_spec (assertions : Bool) (hsize : bitArrayWords length ≤ words.length)
    (value : Bool) :
    (∃ i < length, bitAt words i = value ∧ (∀ j < i, bitAt words j ≠ value) ∧
        bitArrayFindFirst assertions words length value = .ok (bitPos i)) ∨
      ((∀ i < length, bitAt words i ≠ value) ∧
        bitArrayFindFirst assertions words length value = .ok noBitPos) := by
  obtain ⟨word, hok, -, hlast, hskipped, hoccurs⟩ :=
    skipEmptyWords_spec value (show 0 + bitArrayWords length ≤ words.length by omega)
  have hskipped' : ∀ i, i < word * bitsPerWord → bitAt words i ≠ value := fun i hi =>
    hskipped i (by simp) hi
  rw [Nat.zero_add] at hlast hoccurs
  simp only [bitArrayFindFirst, hok, ok_bind]
  split
  · rename_i hend
    -- every word was skipped
    refine .inr ⟨fun i hi => hskipped' i ?_, rfl⟩
    rw [hend, bitArrayWords_eq]
    unfold bitsPerWord
    omega
  · rename_i hend
    have hword : word < bitArrayWords length := by omega
    rw [loadWord_eq (by omega), ok_bind]
    split
    · rename_i hpartial
      -- the last word, of which only the bits below the length count
      obtain ⟨hfull, hremaining⟩ := hpartial
      obtain ⟨mask, hmask, hmaskBits⟩ := lowMask_spec (Nat.mod_lt length (show 0 < bitsPerWord by decide))
      have hbits : ∀ j < bitsPerWord, ((normalize value (words.getD word 0) &&& mask).getLsbD j = true ↔
          word * bitsPerWord + j < length ∧ (words.getD word 0).getLsbD j = value) := by
        intro j hj
        have hin : word * bitsPerWord + j < length ↔ j < length % bitsPerWord := by
          unfold bitsPerWord at *
          omega
        rw [BitVec.getLsbD_and, getLsbD_normalize hj, hmaskBits, Bool.and_eq_true, beq_iff_eq,
          decide_eq_true_iff, hin, and_comm]
      rw [hmask, ok_bind]
      split
      · rename_i hzero
        refine .inr ⟨fun i hi => ?_, rfl⟩
        rcases Nat.lt_or_ge i (word * bitsPerWord) with hskip | hthis
        · exact hskipped' i hskip
        · obtain ⟨j, rfl⟩ := Nat.exists_eq_add_of_le hthis
          have hj : j < bitsPerWord := by
            unfold bitsPerWord at *
            omega
          rw [bitAt_word hj]
          exact ne_value_of_found_zero hzero hbits hj hi
      · rename_i hne
        obtain ⟨offset, hoffset, i, hi, hvalue, hfirst, hpos⟩ :=
          checkedTrailingZeros_spec assertions hne hskipped' hbits
        exact .inl ⟨i, hi, hvalue, hfirst, by rw [hoffset, ok_bind, hpos]; rfl⟩
    · rename_i hpartial
      -- a full word: the loop stopped here, so the value occurs in it
      have hfull : (word + 1) * bitsPerWord ≤ length := by
        rw [bitArrayWords_eq] at hword
        unfold bitsPerWord at *
        omega
      have hbits : ∀ j < bitsPerWord, ((normalize value (words.getD word 0)).getLsbD j = true ↔
          word * bitsPerWord + j < length ∧ (words.getD word 0).getLsbD j = value) := by
        intro j hj
        have hin : word * bitsPerWord + j < length := by
          unfold bitsPerWord at *
          omega
        rw [getLsbD_normalize hj, beq_iff_eq, and_iff_right hin]
      have hne : normalize value (words.getD word 0) ≠ 0 := by
        intro hzero
        refine hoccurs hword (eq_bitBroadcast_not_iff.mpr fun j hj => ?_)
        exact ne_value_of_found_zero hzero hbits hj (by unfold bitsPerWord at *; omega)
      obtain ⟨offset, hoffset, i, hi, hvalue, hfirst, hpos⟩ :=
        checkedTrailingZeros_spec assertions hne hskipped' hbits
      exact .inl ⟨i, hi, hvalue, hfirst, by rw [hoffset, ok_bind, hpos]; rfl⟩

end Udipe

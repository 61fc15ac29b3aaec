import Udipe.Lib.Checked
import Udipe.Lib.PackedBits
import Udipe.Memory.Bits

/-!
# Bit arrays

Reference: `bit_array.h`, `bits.h`.

An array of `length` bits is a list of words. A load or a store past the list and a shift by a whole word are
failures, as are the assertions; without assertions only the former remain.
-/

namespace Udipe

open Checked PackedBits

/-- `BITS_PER_WORD`. -/
abbrev bitsPerWord : ℕ := 64

/-- `word_t`. -/
abbrev Word : Type := BitVec bitsPerWord

/-- `SIZE_MAX`. -/
abbrev sizeMax : ℕ := 2 ^ 64 - 1

/-- `BIT_ARRAY_WORDS`. -/
def bitArrayWords (length : ℕ) : ℕ :=
  length / bitsPerWord + if length % bitsPerWord ≠ 0 then 1 else 0

/-- `bit_pos_t`. -/
structure BitPos where
  word : ℕ
  offset : ℕ
deriving DecidableEq, Repr

/-- `NO_BIT_POS`. -/
def noBitPos : BitPos := ⟨sizeMax, sizeMax⟩

/-- The failures of the operations: their assertions, accesses out of bounds and shifts that are too large. -/
inductive BitArrayFailure where
  | invalidPosition
  | invalidIndex
  | positionOutOfRange
  | wordOutOfBounds
  | shiftTooLarge
  | noTrailingBit
deriving DecidableEq, Repr

variable (assertions : Bool)

/-- `bit_pos_to_index`. -/
def bitPosToIndex (bit : BitPos) : Except BitArrayFailure ℕ := do
  assertion assertions (bit.word != sizeMax) .invalidPosition
  assertion assertions (decide (bit.offset < bitsPerWord)) .invalidPosition
  pure (bit.word * bitsPerWord + bit.offset)

/-- `index_to_bit_pos`. -/
def indexToBitPos (index : ℕ) : Except BitArrayFailure BitPos := do
  assertion assertions (index != sizeMax) .invalidIndex
  pure ⟨index / bitsPerWord, index % bitsPerWord⟩

/-- `BIT_ARRAY_START`. -/
def bitArrayStart : BitPos := ⟨0, 0⟩

/-- `bit_array_end`. -/
def bitArrayEnd (length : ℕ) : Except BitArrayFailure BitPos := do
  assertion assertions (length != sizeMax) .invalidIndex
  indexToBitPos assertions length

/-- An assertion about the index of a position. -/
def assertIndex (bit : BitPos) (holds : ℕ → Bool) : Except BitArrayFailure Unit := do
  let index ← bitPosToIndex assertions bit
  assertion assertions (holds index) .positionOutOfRange

/-- A load of a word. -/
def loadWord (words : List Word) (word : ℕ) : Except BitArrayFailure Word :=
  match words[word]? with
  | some value => .ok value
  | none => .error .wordOutOfBounds

/-- A store to a word. -/
def storeWord (words : List Word) (word : ℕ) (value : Word) : Except BitArrayFailure (List Word) :=
  if word < words.length then .ok (words.set word value) else .error .wordOutOfBounds

/-- `word << amount`. -/
def shiftWordLeft (word : Word) (amount : ℕ) : Except BitArrayFailure Word := do
  ensure (decide (amount < bitsPerWord)) .shiftTooLarge
  pure (word <<< amount)

/-- `word >> amount`. -/
def shiftWordRight (word : Word) (amount : ℕ) : Except BitArrayFailure Word := do
  ensure (decide (amount < bitsPerWord)) .shiftTooLarge
  pure (word >>> amount)

/-- `((word_t)1 << amount) - 1`. -/
def lowMask (amount : ℕ) : Except BitArrayFailure Word := do
  let bit ← shiftWordLeft (BitVec.ofNat bitsPerWord 1) amount
  pure (bit - 1)

/-- `bit_broadcast`. -/
def bitBroadcast (value : Bool) : Word := if value then BitVec.allOnes bitsPerWord else 0

/-- `bit_array_get`. -/
def bitArrayGet (words : List Word) (length : ℕ) (bit : BitPos) : Except BitArrayFailure Bool := do
  assertIndex assertions bit fun index => decide (index < length)
  let word ← loadWord words bit.word
  let mask ← shiftWordLeft (BitVec.ofNat bitsPerWord 1) bit.offset
  pure (word &&& mask != 0)

/-- `bit_array_set`. -/
def bitArraySet (words : List Word) (length : ℕ) (bit : BitPos) (value : Bool) :
    Except BitArrayFailure (List Word) := do
  assertIndex assertions bit fun index => decide (index < length)
  let word ← loadWord words bit.word
  let mask ← shiftWordLeft (BitVec.ofNat bitsPerWord 1) bit.offset
  storeWord words bit.word (if value then word ||| mask else word &&& ~~~mask)

/-- A word in which the bits that were `value` are set. -/
def normalize (value : Bool) (target : Word) : Word := if value then target else ~~~target

/-- The loop of `bit_array_count` over `n` full words from `word` on. -/
def countFullWords (words : List Word) (value : Bool) : ℕ → ℕ → ℕ → Except BitArrayFailure ℕ
  | 0, _, result => pure result
  | n + 1, word, result => do
      let target ← loadWord words word
      countFullWords words value n (word + 1) (result + populationCount (normalize value target))

/-- `bit_array_count`. -/
def bitArrayCount (words : List Word) (length : ℕ) (value : Bool) : Except BitArrayFailure ℕ := do
  let numFullWords := length / bitsPerWord
  let remainingBits := length % bitsPerWord
  let result ← countFullWords words value numFullWords 0 0
  if 0 < remainingBits then
    let target ← loadWord words numFullWords
    let mask ← lowMask remainingBits
    pure (result + populationCount (normalize value target &&& mask))
  else pure result

/-! ## Bit arrays as lists of booleans -/

/-- A bit array: its words, as many as its length needs. -/
structure BitArray where
  words : List Word
  length : ℕ
  length_le : length ≤ sizeMax
  size : words.length = bitArrayWords length

/-- The booleans that the array stands for. -/
def BitArray.toList (a : BitArray) : List Bool := bits a.words a.length

/-- The position of bit `i`. -/
def bitPos (i : ℕ) : BitPos := ⟨i / bitsPerWord, i % bitsPerWord⟩

variable {assertions} {words : List Word} {word i length : ℕ} {value : Bool}

theorem bitArrayWords_eq (length : ℕ) : bitArrayWords length = (length + 63) / 64 := by
  unfold bitArrayWords bitsPerWord
  split <;> omega

/-- The word of a bit is in the array. -/
theorem word_lt (hsize : words.length = bitArrayWords length) (h : i < length) :
    i / bitsPerWord < words.length := by
  rw [hsize, bitArrayWords_eq, bitsPerWord]
  omega

theorem bitPosToIndex_bitPos (hi : i ≤ sizeMax) : bitPosToIndex assertions (bitPos i) = .ok i := by
  have hword : i / bitsPerWord ≠ sizeMax := by
    unfold bitsPerWord sizeMax at *
    omega
  have hoffset : i % bitsPerWord < bitsPerWord := Nat.mod_lt _ (by decide)
  have hindex : i / bitsPerWord * bitsPerWord + i % bitsPerWord = i := Nat.div_add_mod' ..
  rw [bitPosToIndex, bitPos, assertion_of_true _ _ (by simpa using hword), ok_bind,
    assertion_of_true _ _ (decide_eq_true hoffset), ok_bind, hindex]
  rfl

theorem assertIndex_bitPos {holds : ℕ → Bool} (hi : i ≤ sizeMax) (h : holds i = true) :
    assertIndex assertions (bitPos i) holds = .ok () := by
  rw [assertIndex, bitPosToIndex_bitPos hi, ok_bind, assertion_of_true _ _ h]

theorem indexToBitPos_eq (h : i < sizeMax) : indexToBitPos assertions i = .ok (bitPos i) := by
  rw [indexToBitPos, assertion_of_true _ _ (by simpa using h.ne)]
  rfl

theorem bitArrayEnd_eq (h : length < sizeMax) : bitArrayEnd assertions length = .ok (bitPos length) := by
  rw [bitArrayEnd, assertion_of_true _ _ (by simpa using h.ne), ok_bind, indexToBitPos_eq h]

theorem loadWord_eq (h : word < words.length) : loadWord words word = .ok (words.getD word 0) := by
  simp [loadWord, h, List.getD]

theorem storeWord_eq (h : word < words.length) (stored : Word) :
    storeWord words word stored = .ok (words.set word stored) := if_pos h

theorem shiftWordLeft_eq {amount : ℕ} (h : amount < bitsPerWord) (target : Word) :
    shiftWordLeft target amount = .ok (target <<< amount) := by
  rw [shiftWordLeft, ensure_of_true _ (decide_eq_true h)]
  rfl

theorem shiftWordRight_eq {amount : ℕ} (h : amount < bitsPerWord) (target : Word) :
    shiftWordRight target amount = .ok (target >>> amount) := by
  rw [shiftWordRight, ensure_of_true _ (decide_eq_true h)]
  rfl

/-- The mask with the bits below `amount`. -/
theorem lowMask_spec {amount : ℕ} (h : amount < bitsPerWord) :
    ∃ mask, lowMask amount = .ok mask ∧ ∀ j, mask.getLsbD j = decide (j < amount) := by
  rw [lowMask, shiftWordLeft_eq h]
  exact ⟨_, rfl, getLsbD_lowMask h⟩

/-! ## One bit -/

theorem bitArrayGet_eq (assertions : Bool) (hsize : words.length = bitArrayWords length)
    (hlength : length ≤ sizeMax) (h : i < length) :
    bitArrayGet assertions words length (bitPos i) = .ok (bitAt words i) := by
  have hoffset : i % bitsPerWord < bitsPerWord := Nat.mod_lt _ (by decide)
  rw [bitArrayGet, assertIndex_bitPos (by omega) (decide_eq_true h), ok_bind, bitPos,
    loadWord_eq (word_lt hsize h), ok_bind, shiftWordLeft_eq hoffset, ok_bind, bitAt]
  congr 1
  rw [Bool.eq_iff_iff, bne_iff_ne, Ne, and_bit_eq_zero, Bool.not_eq_false]

/-- `bit_array_set` changes its bit and no other one, the padding of the last word included. -/
theorem bitArraySet_spec (assertions : Bool) (hsize : words.length = bitArrayWords length)
    (hlength : length ≤ sizeMax) (h : i < length) (value : Bool) :
    ∃ words', bitArraySet assertions words length (bitPos i) value = .ok words' ∧
      words'.length = words.length ∧
      ∀ j, bitAt words' j = if j = i then value else bitAt words j := by
  have hoffset : i % bitsPerWord < bitsPerWord := Nat.mod_lt _ (by decide)
  have hword := word_lt hsize h
  rw [bitArraySet, assertIndex_bitPos (by omega) (decide_eq_true h), ok_bind, bitPos,
    loadWord_eq hword, ok_bind, shiftWordLeft_eq hoffset, ok_bind, storeWord_eq hword]
  refine ⟨_, rfl, List.length_set .., fun j => ?_⟩
  rw [bitAt_set hword]
  have hj : j % bitsPerWord < bitsPerWord := Nat.mod_lt _ (by decide)
  -- the store changes one word, and in it the bit at the offset of `i`
  by_cases hsame : j / bitsPerWord = i / bitsPerWord
  · have hbit : i % bitsPerWord = j % bitsPerWord ↔ j = i := by
      unfold bitsPerWord at *
      omega
    have hold : (words.getD (i / bitsPerWord) 0).getLsbD (j % bitsPerWord) = bitAt words j := by
      rw [bitAt, hsame]
    rw [if_pos hsame]
    cases value with
    | true =>
        rw [if_pos rfl, getLsbD_or_bit, hold]
        by_cases hji : j = i
        · simp [hji, Nat.mod_lt]
        · simp [hji, hbit]
    | false =>
        rw [if_neg Bool.false_ne_true, getLsbD_and_not_bit, hold]
        by_cases hji : j = i
        · simp [hji]
        · simp [hji, hbit]
  · have hji : j ≠ i := fun heq => hsame (by rw [heq])
    rw [if_neg hsame, if_neg hji]

/-! ## Counting -/

theorem getLsbD_bitBroadcast {j : ℕ} (hj : j < bitsPerWord) (value : Bool) :
    (bitBroadcast value).getLsbD j = value := by
  cases value with
  | true => simp [bitBroadcast, hj]
  | false => exact BitVec.getLsbD_zero

/-- The bits of a normalized word. -/
theorem getLsbD_normalize {j : ℕ} (hj : j < bitsPerWord) (value : Bool) (target : Word) :
    (normalize value target).getLsbD j = (target.getLsbD j == value) := by
  cases value
  · simp [normalize, hj]
  · simp [normalize]

theorem countP_range_below {n r : ℕ} (hr : r ≤ n) (p : ℕ → Bool) :
    (List.range n).countP (fun j => p j && decide (j < r)) = (List.range r).countP p := by
  obtain ⟨m, rfl⟩ := Nat.exists_eq_add_of_le hr
  rw [List.range_add, List.countP_append, List.countP_map]
  have hlow : (List.range r).countP (fun j => p j && decide (j < r)) = (List.range r).countP p :=
    List.countP_congr fun j hj => by simp [List.mem_range.mp hj]
  have hhigh : (List.range m).countP ((fun j => p j && decide (j < r)) ∘ (r + ·)) = 0 :=
    List.countP_eq_zero.mpr fun j _ => by simp
  rw [hlow, hhigh, Nat.add_zero]

/-- The first `r` bits of a word that are `value`. -/
theorem countP_normalize {r : ℕ} (hr : r ≤ bitsPerWord) (value : Bool) (target : Word) :
    (List.range r).countP (normalize value target).getLsbD
      = ((List.range r).map target.getLsbD).count value := by
  rw [List.count, List.countP_map]
  refine List.countP_congr fun j hj => ?_
  rw [getLsbD_normalize ((List.mem_range.mp hj).trans_le hr)]
  rfl

theorem populationCount_masked {r : ℕ} (hr : r ≤ bitsPerWord) {target mask : Word}
    (hmask : ∀ j, mask.getLsbD j = decide (j < r)) :
    populationCount (normalize value target &&& mask)
      = ((List.range r).map target.getLsbD).count value := by
  rw [← countP_normalize hr, ← countP_range_below hr, populationCount]
  refine List.countP_congr fun j _ => ?_
  rw [BitVec.getLsbD_and, hmask]

theorem countFullWords_eq {n result : ℕ} (h : word + n ≤ words.length)
    (hresult : result = (bits words (word * bitsPerWord)).count value) :
    countFullWords words value n word result
      = .ok ((bits words ((word + n) * bitsPerWord)).count value) := by
  induction n generalizing word result with
  | zero => rw [countFullWords, hresult, Nat.add_zero]; rfl
  | succ n ih =>
      rw [countFullWords, loadWord_eq (by omega), ok_bind, ih (by omega), Nat.add_right_comm word 1 n,
        Nat.add_assoc]
      rw [hresult, populationCount, countP_normalize le_rfl, Nat.succ_mul, bits_split le_rfl, List.count_append]

theorem bitArrayCount_eq (hsize : words.length = bitArrayWords length) (value : Bool) :
    bitArrayCount words length value = .ok ((bits words length).count value) := by
  have hfull : 0 + length / bitsPerWord ≤ words.length := by
    rw [hsize, bitArrayWords, Nat.zero_add]
    exact Nat.le_add_right ..
  have hnone : 0 = (bits words (0 * bitsPerWord)).count value := by simp [bits]
  have hlength : length / bitsPerWord * bitsPerWord + length % bitsPerWord = length :=
    Nat.div_add_mod' ..
  rw [bitArrayCount]
  simp only [countFullWords_eq hfull hnone, Nat.zero_add, ok_bind]
  split
  · rename_i hremaining
    have hoffset : length % bitsPerWord < bitsPerWord := Nat.mod_lt _ (by decide)
    have hlast : length / bitsPerWord < words.length := by
      rw [hsize, bitArrayWords, if_pos hremaining.ne']
      omega
    obtain ⟨mask, hmask, hbits⟩ := lowMask_spec hoffset
    rw [loadWord_eq hlast, ok_bind, hmask, ok_bind]
    conv_rhs => rw [← hlength, bits_split hoffset.le, List.count_append]
    congr 2
    exact populationCount_masked hoffset.le hbits
  · rename_i hremaining
    rw [Nat.eq_zero_of_not_pos hremaining, Nat.add_zero] at hlength
    rw [hlength]
    rfl

end Udipe

import Udipe.Lib.RangeSearch
import Udipe.Memory.BitRanges
import Udipe.Memory.BitSearch

/-!
# Iterating over the bits with a value

Reference: `bit_array.h`.

The search for the next bit looks at the rest of a word, then at the words after it, and with
wraparound at the bits up to the previous one. Each part is the search of a range of indices.
-/

namespace Udipe

open Checked PackedBits RangeSearch

variable (assertions : Bool)

/-- `bit_array_find_next`, where it masks out the padding of the word of `previous`. -/
def clearPadding (previousIncomplete : Bool) (remainingBits : ℕ) (previousWord : Word) :
    Except BitArrayFailure Word :=
  if previousIncomplete then do
    let mask ← lowMask remainingBits
    pure (previousWord &&& mask)
  else pure previousWord

/-- `bit_array_find_next`, the search in the word of `previous`. -/
def findInPreviousWord (words : List Word) (length : ℕ) (previous : BitPos) (value : Bool) :
    Except BitArrayFailure (Option BitPos) := do
  let numFullWords := length / bitsPerWord
  let remainingBits := length % bitsPerWord
  let previousIncomplete := previous.word == numFullWords
  let previousBits := if previousIncomplete then remainingBits else bitsPerWord
  if previous.offset + 1 = previousBits then pure none
  else
    let loaded ← loadWord words previous.word
    let previousWord ← clearPadding previousIncomplete remainingBits (normalize value loaded)
    let droppedBits := previous.offset + 1
    let nextWord ← shiftWordRight previousWord droppedBits
    if nextWord = 0 then pure none
    else
      let extraOffset ← checkedTrailingZeros assertions nextWord
      pure (some ⟨previous.word, droppedBits + extraOffset⟩)

/-- `bit_array_find_next`, the search in the words after that of `previous`. -/
def findInLaterWords (words : List Word) (length : ℕ) (previous : BitPos) (value : Bool) :
    Except BitArrayFailure (Option BitPos) := do
  let numWords := bitArrayWords length
  if previous.word + 1 = numWords then pure none
  else
    let wordOffset := previous.word + 1
    let pos ← bitArrayFindFirst assertions (words.drop wordOffset)
      (length - wordOffset * bitsPerWord) value
    pure (if pos.word ≠ sizeMax then some ⟨pos.word + wordOffset, pos.offset⟩ else none)

/-- `bit_array_find_next`. -/
def bitArrayFindNext (words : List Word) (length : ℕ) (previous : BitPos)
    (wraparound value : Bool) : Except BitArrayFailure BitPos := do
  assertIndex assertions previous fun index => decide (index < length)
  match ← findInPreviousWord assertions words length previous value with
  | some pos => pure pos
  | none =>
      match ← findInLaterWords assertions words length previous value with
      | some pos => pure pos
      | none =>
          if wraparound then
            let index ← bitPosToIndex assertions previous
            bitArrayFindFirst assertions words (index + 1) value
          else pure noBitPos

/-- The loop of a caller from the position `bit` on, which calls `bit_array_find_next` until there
is no position; `none` when `fuel` rounds are not enough. -/
def iterateFrom (words : List Word) (length : ℕ) (value : Bool) :
    ℕ → BitPos → Except BitArrayFailure (Option (List BitPos))
  | 0, _ => pure none
  | fuel + 1, bit =>
      if bit = noBitPos then pure (some [])
      else do
        let next ← bitArrayFindNext assertions words length bit false value
        let rest ← iterateFrom words length value fuel next
        pure (rest.map (bit :: ·))

/-- The positions met when the loop starts with `bit_array_find_first`. -/
def iterateBits (words : List Word) (length : ℕ) (value : Bool) (fuel : ℕ) :
    Except BitArrayFailure (Option (List BitPos)) := do
  let first ← bitArrayFindFirst assertions words length value
  iterateFrom assertions words length value fuel first

/-- The answer of a search that has or has not found an index. -/
def foundPos (found : Option ℕ) : BitPos := (found.map bitPos).getD noBitPos

variable {assertions} {words : List Word} {i length : ℕ} {value : Bool}

/-- The bits with the value. -/
abbrev holds (words : List Word) (value : Bool) (i : ℕ) : Bool := bitAt words i == value

theorem bitPos_word_ne (hi : i ≤ sizeMax) : (bitPos i).word ≠ sizeMax := by
  unfold bitPos bitsPerWord sizeMax at *
  simp only
  omega

theorem bitPos_ne_noBitPos (hi : i ≤ sizeMax) : bitPos i ≠ noBitPos := fun h =>
  bitPos_word_ne hi (congrArg BitPos.word h)

theorem bitPos_word {word offset : ℕ} (h : offset < bitsPerWord) :
    bitPos (word * bitsPerWord + offset) = ⟨word, offset⟩ := by
  rw [bitPos, BitPos.mk.injEq]
  unfold bitsPerWord at *
  omega

/-! ## The parts of a search -/

/-- `bit_array_find_first` searches the indices below the length. -/
theorem bitArrayFindFirst_eq (assertions : Bool) (hsize : bitArrayWords length ≤ words.length)
    (value : Bool) :
    bitArrayFindFirst assertions words length value
      = .ok (foundPos ((List.range length).find? (holds words value))) := by
  rcases bitArrayFindFirst_spec assertions hsize value with ⟨i, hi, hvalue, hbefore, hok⟩ |
    ⟨hnone, hok⟩
  · have hfind : (List.range length).find? (holds words value) = some i := by
      rw [List.find?_range_eq_some]
      exact ⟨beq_iff_eq.mpr hvalue, List.mem_range.mpr hi, fun j hj => by simpa using hbefore j hj⟩
    rw [hok, hfind]
    rfl
  · have hfind : (List.range length).find? (holds words value) = none := by
      rw [List.find?_range_eq_none]
      intro j hj
      simpa using hnone j hj
    rw [hok, hfind]
    rfl

/-- The first set bit from `k` to `k + r - 1`, by the trailing zeros of the word shifted by `k`. -/
theorem find?_shifted {target shifted : Word} {k r : ℕ}
    (hshifted : ∀ j, shifted.getLsbD j = (decide (j < r) && target.getLsbD (k + j))) :
    (List.range' k r).find? target.getLsbD
      = if shifted = 0 then none else some (k + countTrailingZeros shifted) := by
  split
  · rename_i hzero
    rw [List.find?_range'_eq_none]
    intro j hle hlt
    obtain ⟨d, rfl⟩ := Nat.exists_eq_add_of_le hle
    have hclear : shifted.getLsbD d = false := by
      rw [hzero]
      exact BitVec.getLsbD_zero
    rw [hshifted, decide_eq_true (by omega : d < r), Bool.true_and] at hclear
    simp [hclear]
  · rename_i hne
    obtain ⟨hset, hbelow⟩ := countTrailingZeros_spec hne
    have hset' := (hshifted _).symm.trans hset
    obtain ⟨hlt, hbit⟩ : countTrailingZeros shifted < r ∧
        target.getLsbD (k + countTrailingZeros shifted) = true := by simpa using hset'
    rw [List.find?_range'_eq_some]
    refine ⟨hbit, List.mem_range'_1.mpr (by omega), fun j hle hlt' => ?_⟩
    obtain ⟨d, rfl⟩ := Nat.exists_eq_add_of_le hle
    have hclear := hbelow d (by omega)
    rw [hshifted, decide_eq_true (by omega : d < r), Bool.true_and] at hclear
    simp [hclear]

/-- A search among the bits of one word. -/
theorem find?_word (words : List Word) (value : Bool) {word k r : ℕ} (hk : k + r ≤ bitsPerWord) :
    (List.range' (word * bitsPerWord + k) r).find? (holds words value)
      = ((List.range' k r).find? (normalize value (words.getD word 0)).getLsbD).map
          (word * bitsPerWord + ·) := by
  rw [← List.map_add_range', List.find?_map]
  congr 1
  refine List.find?_congr fun j hj => ?_
  have hj' := List.mem_range'_1.mp hj
  have hlt : j < bitsPerWord := by omega
  rw [getLsbD_normalize hlt, Function.comp_apply, holds, bitAt_word hlt]

/-- The end of the word of bit `i`, or of the array. -/
def wordEnd (length i : ℕ) : ℕ := min length ((i / bitsPerWord + 1) * bitsPerWord)

/-- The number of bits of word `word` that belong to an array. -/
def wordBits (length word : ℕ) : ℕ :=
  if word = length / bitsPerWord then length % bitsPerWord else bitsPerWord

/-- The word of `previous` without the padding. -/
theorem clearPadding_spec (length word : ℕ) (previousWord : Word) :
    ∃ masked, clearPadding (word == length / bitsPerWord) (length % bitsPerWord) previousWord
      = .ok masked ∧
      ∀ j, masked.getLsbD j = (decide (j < wordBits length word) && previousWord.getLsbD j) := by
  simp only [clearPadding, beq_iff_eq, wordBits]
  split
  · obtain ⟨mask, hmask, hbits⟩ := lowMask_spec (Nat.mod_lt length (show 0 < bitsPerWord by decide))
    refine ⟨previousWord &&& mask, by rw [hmask]; rfl, fun j => ?_⟩
    rw [BitVec.getLsbD_and, hbits, Bool.and_comm]
  · refine ⟨previousWord, rfl, fun j => ?_⟩
    rcases Nat.lt_or_ge j bitsPerWord with hj | hj
    · rw [decide_eq_true hj, Bool.true_and]
    · rw [decide_eq_false (by omega), Bool.false_and, BitVec.getLsbD_of_ge _ _ hj]

theorem findInPreviousWord_eq (assertions : Bool) (hsize : words.length = bitArrayWords length)
    (hi : i < length) (value : Bool) :
    findInPreviousWord assertions words length (bitPos i) value
      = .ok (((List.range' (i + 1) (wordEnd length i - (i + 1))).find? (holds words value)).map
      bitPos) := by
  have hloaded := loadWord_eq (word_lt hsize hi)
  set word := i / bitsPerWord with hword
  set k := i % bitsPerWord + 1 with hk
  obtain ⟨bound, hbound⟩ : ∃ bound, wordBits length word = bound := ⟨_, rfl⟩
  have hindex : i = word * bitsPerWord + i % bitsPerWord := (Nat.div_add_mod' ..).symm
  have hend : wordEnd length i - (i + 1) = bound - k ∧ k ≤ bound ∧ bound ≤ bitsPerWord := by
    rw [← hbound, wordEnd, wordBits]
    split <;> unfold bitsPerWord at * <;> omega
  obtain ⟨hrest, hle, hfits⟩ := hend
  rw [hrest, show i + 1 = word * bitsPerWord + k by omega, find?_word words value (by omega),
    Option.map_map]
  have hbits : (if (word == length / bitsPerWord) = true then length % bitsPerWord else bitsPerWord)
      = bound := by
    simp only [← hbound, wordBits, beq_iff_eq]
  simp only [findInPreviousWord, bitPos, ← hword, ← hk, hbits]
  split
  · rename_i hlast
    -- `previous` is the last bit of its word
    rw [← hlast, Nat.sub_self]
    rfl
  · rename_i hlast
    have hlt : k < bitsPerWord := lt_of_lt_of_le (lt_of_le_of_ne hle hlast) hfits
    obtain ⟨masked, hmasked, hmaskedBits⟩ :=
      clearPadding_spec length word (normalize value (words.getD word 0))
    rw [hbound] at hmaskedBits
    have hshifted : ∀ j, (masked >>> k).getLsbD j
        = (decide (j < bound - k) && (normalize value (words.getD word 0)).getLsbD (k + j)) := by
      intro j
      rw [BitVec.getLsbD_ushiftRight, hmaskedBits]
      congr 1
      exact decide_eq_decide.mpr (by omega)
    rw [hloaded, ok_bind, hmasked, ok_bind, shiftWordRight_eq hlt, ok_bind, find?_shifted hshifted]
    split
    · rfl
    · rename_i hne
      rw [checkedTrailingZeros, assertion_of_true _ _ (by simpa using hne)]
      have hoffset := (hshifted _).symm.trans (countTrailingZeros_spec hne).1
      rw [Bool.and_eq_true, decide_eq_true_iff] at hoffset
      have hpos : bitPos (word * bitsPerWord + (k + countTrailingZeros (masked >>> k)))
          = ⟨word, k + countTrailingZeros (masked >>> k)⟩ := bitPos_word (by omega)
      rw [Option.map_some, Function.comp_apply, hpos]
      rfl

theorem holds_drop (words : List Word) (value : Bool) (word j : ℕ) :
    holds (words.drop word) value j = holds words value (word * bitsPerWord + j) := by
  have hoffset : j % bitsPerWord < bitsPerWord := Nat.mod_lt _ (by decide)
  have hsplit : word * bitsPerWord + j = (word + j / bitsPerWord)
      * bitsPerWord + j % bitsPerWord := by
    rw [Nat.add_mul, Nat.add_assoc, Nat.div_add_mod']
  rw [holds, holds, hsplit, bitAt_word hoffset, bitAt, List.getD_eq_getElem?_getD,
    List.getElem?_drop, ← List.getD_eq_getElem?_getD]

/-- The words after that of bit `i`, if there are any. -/
theorem findInLaterWords_eq (assertions : Bool) (hsize : words.length = bitArrayWords length)
    (hlength : length ≤ sizeMax) (hi : i < length) (value : Bool) :
    findInLaterWords assertions words length (bitPos i) value
      = .ok (((List.range' (wordEnd length i) (length - wordEnd length i)).find?
          (holds words value)).map bitPos) := by
  have hwords := bitArrayWords_eq length
  have hword : (bitPos i).word = i / bitsPerWord := rfl
  simp only [findInLaterWords]
  by_cases hlast : (bitPos i).word + 1 = bitArrayWords length
  · rw [if_pos hlast]
    have hnone : length - wordEnd length i = 0 := by
      unfold wordEnd bitsPerWord at *
      omega
    rw [hnone]
    rfl
  · rw [if_neg hlast]
    obtain ⟨wordOffset, hoffset⟩ : ∃ wordOffset, (bitPos i).word + 1 = wordOffset := ⟨_, rfl⟩
    rw [hoffset] at hlast ⊢
    have hend : wordEnd length i = wordOffset * bitsPerWord ∧
      wordOffset * bitsPerWord ≤ length := by
      rw [hword] at hoffset
      unfold wordEnd bitsPerWord at *
      omega
    obtain ⟨hend, hle⟩ := hend
    have hsize' : bitArrayWords (length - wordOffset * bitsPerWord)
        ≤ (words.drop wordOffset).length := by
      rw [List.length_drop, hsize, bitArrayWords_eq, hwords]
      unfold bitsPerWord
      omega
    have hsearch :
        (List.range' (wordOffset * bitsPerWord) (length - wordOffset * bitsPerWord)).find?
          (holds words value)
        = ((List.range (length - wordOffset * bitsPerWord)).find?
            (holds (words.drop wordOffset) value)).map (wordOffset * bitsPerWord + ·) := by
      have hrange : List.range' (wordOffset * bitsPerWord) (length - wordOffset * bitsPerWord)
          = (List.range (length - wordOffset * bitsPerWord)).map
          (wordOffset * bitsPerWord + ·) := by
        rw [List.range_eq_range', List.map_add_range', Nat.add_zero]
      rw [hrange, List.find?_map]
      exact congrArg _ (List.find?_congr fun j _ => (holds_drop words value wordOffset j).symm)
    rw [bitArrayFindFirst_eq assertions hsize' value, ok_bind, hend, hsearch]
    cases hfound : (List.range (length - wordOffset * bitsPerWord)).find?
        (holds (words.drop wordOffset) value) with
    | none => rfl
    | some j =>
        have hj : j < length - wordOffset * bitsPerWord :=
          List.mem_range.mp (List.mem_of_find?_eq_some hfound)
        have hpos : bitPos (wordOffset * bitsPerWord + j)
            = ⟨(bitPos j).word + wordOffset, (bitPos j).offset⟩ := by
          simp only [bitPos, BitPos.mk.injEq, bitsPerWord]
          omega
        rw [foundPos, Option.map_some, Option.getD_some, if_pos (bitPos_word_ne (by omega)),
          Option.map_some, Option.map_some, hpos]
        rfl

/-- What `bit_array_find_next` searches: the indices after that of `previous`, and with wraparound
then those up to it. -/
def nextIndices (length i : ℕ) (wraparound : Bool) : List ℕ :=
  if wraparound then (List.range length).rotate (i + 1) else List.range' (i + 1) (length - (i + 1))

theorem bitArrayFindNext_eq (assertions : Bool) (hsize : words.length = bitArrayWords length)
    (hlength : length ≤ sizeMax) (hi : i < length) (wraparound value : Bool) :
    bitArrayFindNext assertions words length (bitPos i) wraparound value
      = .ok (foundPos ((nextIndices length i wraparound).find? (holds words value))) := by
  have hlater : (List.range' (i + 1) (length - (i + 1))).find? (holds words value)
      = ((List.range' (i + 1) (wordEnd length i - (i + 1))).find? (holds words value)).or
          ((List.range' (wordEnd length i) (length - wordEnd length i)).find?
          (holds words value)) := by
    have hend : i + 1 ≤ wordEnd length i ∧ wordEnd length i ≤ length := by
      unfold wordEnd bitsPerWord
      omega
    have hsplit := find?_range'_add (holds words value) (i + 1) (wordEnd length i - (i + 1))
      (length - wordEnd length i)
    rw [show wordEnd length i - (i + 1) + (length - wordEnd length i) = length - (i + 1) by omega,
      Nat.add_sub_cancel' hend.1] at hsplit
    exact hsplit
  have hbefore : bitArrayFindFirst assertions words (i + 1) value
      = .ok (foundPos ((List.range (i + 1)).find? (holds words value))) := by
    refine bitArrayFindFirst_eq assertions ?_ value
    rw [hsize, bitArrayWords_eq, bitArrayWords_eq]
    omega
  have hall : (nextIndices length i wraparound).find? (holds words value)
      = ((List.range' (i + 1) (length - (i + 1))).find? (holds words value)).or
          (if wraparound then (List.range (i + 1)).find? (holds words value) else none) := by
    unfold nextIndices
    split
    · rw [find?_rotate_range _ hi]
    · rw [Option.or_none]
  rw [hall, hlater, bitArrayFindNext, assertIndex_bitPos (by omega) (decide_eq_true hi), ok_bind,
    findInPreviousWord_eq assertions hsize hi, ok_bind]
  cases (List.range' (i + 1) (wordEnd length i - (i + 1))).find? (holds words value) with
  | some j => rfl
  | none =>
      simp only [Option.map_none, findInLaterWords_eq assertions hsize hlength hi, ok_bind,
        Option.none_or]
      cases (List.range' (wordEnd length i) (length - wordEnd length i)).find?
        (holds words value) with
      | some j => rfl
      | none =>
          simp only [Option.map_none, Option.none_or, ok_bind, hbefore,
            bitPosToIndex_bitPos (show i ≤ sizeMax by omega)]
          split
          · rfl
          · rfl

/-! ## Every bit with the value -/

/-- The loop from the first index found among the last `n`. -/
theorem iterateFrom_eq (assertions : Bool) (hsize : words.length = bitArrayWords length)
    (hlength : length ≤ sizeMax) (value : Bool) {start n fuel : ℕ} (hend : start + n = length)
    (hfuel : n < fuel) :
    iterateFrom assertions words length value fuel
        (foundPos ((List.range' start n).find? (holds words value)))
      = .ok (some (((List.range' start n).filter (holds words value)).map bitPos)) := by
  -- each round goes on with the indices after the one found, of which there are fewer
  induction fuel generalizing start n with
  | zero => exact absurd hfuel (Nat.not_lt_zero n)
  | succ fuel ih =>
      cases hfound : (List.range' start n).find? (holds words value) with
      | none =>
          rw [filter_range'_of_find?_eq_none hfound]
          rfl
      | some i =>
          obtain ⟨hle, hlt⟩ : start ≤ i ∧ i < start + n :=
            List.mem_range'_1.mp (List.mem_of_find?_eq_some hfound)
          have hi : i < length := by omega
          have hrest := ih (show i + 1 + (length - (i + 1)) = length by omega) (by omega)
          have hne : bitPos i ≠ noBitPos := bitPos_ne_noBitPos (by omega)
          rw [filter_range'_of_find?_eq_some hfound, hend]
          simp only [foundPos, Option.map_some, Option.getD_some, iterateFrom, if_neg hne,
            bitArrayFindNext_eq assertions hsize hlength hi, nextIndices, Bool.false_eq_true,
            if_false, ok_bind]
          simp only [foundPos] at hrest
          rw [hrest]
          rfl

/-- Without wraparound the loop meets the bits with the value once each, in increasing order. With
wraparound `bit_array_find_next` finds the first of them after the previous bit, which comes last,
in cyclic order; it finds none only if there is none. -/
theorem bitSearch_enumerates (assertions : Bool) (a : BitArray) (value : Bool) :
    (∀ fuel, a.length < fuel →
      iterateBits assertions a.words a.length value fuel
        = .ok (some (((List.range a.length).filter (holds a.words value)).map bitPos))) ∧
    ∀ i < a.length,
      bitArrayFindNext assertions a.words a.length (bitPos i) true value
          = .ok (foundPos (((List.range a.length).rotate (i + 1)).find? (holds a.words value))) ∧
        (bitArrayFindNext assertions a.words a.length (bitPos i) true value = .ok noBitPos ↔
          ∀ j < a.length, bitAt a.words j ≠ value) := by
  refine ⟨fun fuel hfuel => ?_, fun i hi => ?_⟩
  · rw [iterateBits, bitArrayFindFirst_eq assertions a.size.ge, ok_bind, List.range_eq_range']
    exact iterateFrom_eq assertions a.size a.length_le value (Nat.zero_add _) hfuel
  · have hnext := bitArrayFindNext_eq assertions a.size a.length_le hi true value
    rw [nextIndices, if_pos rfl] at hnext
    refine ⟨hnext, ?_⟩
    rw [hnext, Except.ok.injEq]
    cases hfound : ((List.range a.length).rotate (i + 1)).find? (holds a.words value) with
    | none =>
        refine ⟨fun _ j hj heq => ?_, fun _ => rfl⟩
        refine List.find?_eq_none.mp hfound j ?_ (beq_iff_eq.mpr heq)
        rw [List.mem_rotate]
        exact List.mem_range.mpr hj
    | some j =>
        have hj : j < a.length := by
          have hmem := List.mem_of_find?_eq_some hfound
          rw [List.mem_rotate] at hmem
          exact List.mem_range.mp hmem
        have hle := a.length_le
        constructor
        · intro heq
          exact absurd heq (bitPos_ne_noBitPos (by omega))
        · intro hnone
          have hvalue : holds a.words value j = true := List.find?_some hfound
          exact absurd (beq_iff_eq.mp hvalue) (hnone j hj)

/-- Bits 3, 63 and 69 of seventy, and padding that is set. -/
def threeBits : BitArray :=
  seventyBits.withWords
    [BitVec.twoPow 64 63 ||| BitVec.twoPow 64 3, BitVec.allOnes bitsPerWord <<< 5] rfl

theorem bitSearch_enumerates_threeBits :
    iterateBits true threeBits.words 70 true 71 = .ok (some [⟨0, 3⟩, ⟨0, 63⟩, ⟨1, 5⟩]) ∧
      bitArrayFindNext true threeBits.words 70 (bitPos 69) true true = .ok ⟨0, 3⟩ :=
  ⟨((bitSearch_enumerates true threeBits true).1 71 (by decide)).trans (by decide +kernel),
    ((bitSearch_enumerates true threeBits true).2 69 (by decide)).1.trans (by decide +kernel)⟩

end Udipe

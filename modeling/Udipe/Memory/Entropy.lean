import Udipe.Future.Status
import Udipe.Lib.Checked
import Udipe.Lib.PackedBits
import Udipe.Memory.Bits

/-!
# Random bits

Reference: `bits.h`, `bits.c`.

`generate_entropy` packs the bits of successive results of `rand()` into words, `entropy_to_bits` cuts the
bits of such words into numbers of any width. Both straddle words. An access past the words or a shift by
a whole word is a failure. Indices of bits are natural numbers: those of a buffer that fits into memory
are far below the range of `size_t`.
-/

namespace Udipe

open Checked PackedBits

/-- `BITS_PER_ENTROPY_WORD`. -/
abbrev bitsPerEntropyWord : ℕ := 64

/-- A word of entropy. -/
abbrev EntropyWord : Type := BitVec bitsPerEntropyWord

/-- The checks of the two functions, and what is undefined in them. -/
inductive EntropyFailure where
  | unsupportedRandMax
  | tooManyRounds
  | outputTooWide
  | notEnoughBits
  | inputWordOutOfRange
  | accessOutOfBounds
  | shiftTooLarge
deriving DecidableEq, Repr

/-- A load of a word. -/
def loadEntropy (words : List EntropyWord) (word : ℕ) : Except EntropyFailure EntropyWord :=
  ofOption .accessOutOfBounds words[word]?

/-- A store to a word. -/
def storeEntropy (words : List EntropyWord) (word : ℕ) (value : EntropyWord) :
    Except EntropyFailure (List EntropyWord) := do
  ensure (decide (word < words.length)) .accessOutOfBounds
  pure (words.set word value)

/-- `entropy << amount`. -/
def shiftEntropyLeft (entropy : EntropyWord) (amount : ℕ) : Except EntropyFailure EntropyWord := do
  ensure (decide (amount < bitsPerEntropyWord)) .shiftTooLarge
  pure (entropy <<< amount)

/-- `entropy >> amount`. -/
def shiftEntropyRight (entropy : EntropyWord) (amount : ℕ) : Except EntropyFailure EntropyWord := do
  ensure (decide (amount < bitsPerEntropyWord)) .shiftTooLarge
  pure (entropy >>> amount)

/-! ## `generate_entropy` -/

/-- The output, the number of bits in it and the number of calls of `rand()`. -/
structure EntropyState where
  output : List EntropyWord
  bitsSoFar : ℕ
  numCalls : ℕ

/-- The store of the bits that are too many for a word into the next one, if there is one. -/
def storeHighBits (output : List EntropyWord) (word : ℕ) (entropy : EntropyWord)
    (localBits bitsPerRand length : ℕ) : Except EntropyFailure (List EntropyWord) :=
  if localBits < bitsPerRand ∧ word + 1 < length then do
    let high ← shiftEntropyRight entropy localBits
    storeEntropy output (word + 1) high
  else pure output

/-- A round of `generate_entropy`. The `k`th call of `rand()` returns `rand k`. -/
def generateRound (rand : ℕ → EntropyWord) (bitsPerRand length : ℕ) (s : EntropyState) :
    Except EntropyFailure EntropyState := do
  let word := s.bitsSoFar / bitsPerEntropyWord
  let offset := s.bitsSoFar % bitsPerEntropyWord
  let entropy := rand s.numCalls
  let low ← shiftEntropyLeft entropy offset
  let old ← loadEntropy s.output word
  let output ← storeEntropy s.output word (old ||| low)
  let localBits := bitsPerEntropyWord - offset
  let output ← storeHighBits output word entropy localBits bitsPerRand length
  pure { output := output, bitsSoFar := s.bitsSoFar + bitsPerRand, numCalls := s.numCalls + 1 }

/-- `generate_entropy`. A round adds at least one bit, which bounds their number. -/
def generateEntropy (randMax : EntropyWord) (rand : ℕ → EntropyWord) (length : ℕ) :
    Except EntropyFailure (List EntropyWord) := do
  ensure (countTrailingZeros randMax == 0) .unsupportedRandMax
  let bitsPerRand := populationCount randMax
  ensure (decide (bitsPerRand ≤ bitsPerEntropyWord)) .unsupportedRandMax
  let s ← whileE .tooManyRounds (fun s => decide (s.bitsSoFar < length * bitsPerEntropyWord))
    (generateRound rand bitsPerRand length) (length * bitsPerEntropyWord + 1)
    { output := List.replicate length 0, bitsSoFar := 0, numCalls := 0 }
  pure s.output

/-! ## `entropy_to_bits` -/

/-- The bits that the next input word adds, when the first one does not have enough. -/
def takeHighBits (b : Build) (inputs : List EntropyWord) (inputWord bitsSoFar bitsPerOutput : ℕ)
    (result : EntropyWord) : Except EntropyFailure EntropyWord :=
  if bitsSoFar < bitsPerOutput then do
    assertion b.assertions (decide (inputWord + 1 < inputs.length)) .inputWordOutOfRange
    let second ← loadEntropy inputs (inputWord + 1)
    let high ← shiftEntropyLeft second bitsSoFar
    pure (result ||| high)
  else pure result

/-- The bits of the result that were asked for. -/
def maskOutput (bitsPerOutput : ℕ) (result : EntropyWord) : Except EntropyFailure EntropyWord :=
  if bitsPerOutput < bitsPerEntropyWord then do
    let bit ← shiftEntropyLeft (BitVec.ofNat bitsPerEntropyWord 1) bitsPerOutput
    pure (result &&& (bit - 1))
  else pure result

/-- A round of `entropy_to_bits`, with the outputs so far and `next_input_bit`. -/
def outputRound (b : Build) (bitsPerOutput : ℕ) (inputs : List EntropyWord)
    (s : List EntropyWord × ℕ) : Except EntropyFailure (List EntropyWord × ℕ) := do
  let inputWord := s.2 / bitsPerEntropyWord
  assertion b.assertions (decide (inputWord < inputs.length)) .inputWordOutOfRange
  let inputOffset := s.2 % bitsPerEntropyWord
  let first ← loadEntropy inputs inputWord
  let low ← shiftEntropyRight first inputOffset
  let bitsSoFar := bitsPerEntropyWord - inputOffset
  let result ← takeHighBits b inputs inputWord bitsSoFar bitsPerOutput low
  let result ← maskOutput bitsPerOutput result
  pure (s.1 ++ [result], s.2 + bitsPerOutput)

/-- `entropy_to_bits`: the outputs, and `consumed_input_bits` afterwards. -/
def entropyToBits (b : Build) (bitsPerOutput numOutputs consumedInputBits : ℕ)
    (inputs : List EntropyWord) : Except EntropyFailure (List EntropyWord × ℕ) := do
  assertion b.assertions (decide (bitsPerOutput ≤ bitsPerEntropyWord)) .outputTooWide
  let remainingInputBits := inputs.length * bitsPerEntropyWord - consumedInputBits
  assertion b.assertions (decide (numOutputs * bitsPerOutput ≤ remainingInputBits)) .notEnoughBits
  forRangeE 0 numOutputs ([], consumedInputBits) fun s _ => outputRound b bitsPerOutput inputs s

/-- The arguments of a call of `entropy_to_bits`. -/
structure EntropyRequest where
  bitsPerOutput : ℕ
  numOutputs : ℕ

/-- Calls in succession: the outputs of all, and `consumed_input_bits` after the last one. -/
def entropyCalls (b : Build) (inputs : List EntropyWord) :
    List EntropyRequest → ℕ → Except EntropyFailure (List EntropyWord × ℕ)
  | [], consumed => pure ([], consumed)
  | request :: requests, consumed => do
      let (outputs, consumed) ←
        entropyToBits b request.bitsPerOutput request.numOutputs consumed inputs
      let (rest, consumed) ← entropyCalls b inputs requests consumed
      pure (outputs ++ rest, consumed)

/-! ## Writing -/

section

variable {b : Build} {words output inputs : List EntropyWord} {word amount i start width length : ℕ}
  {value entropy : EntropyWord} {rand : ℕ → EntropyWord} {bitsPerRand : ℕ}

/-- Nothing fails. -/
abbrev NoFailure (_ : EntropyFailure) : Prop := False

theorem ends_loadEntropy (h : word < words.length) :
    Ends (· = words.getD word 0) NoFailure (loadEntropy words word) := by
  rw [loadEntropy, List.getElem?_eq_getElem h, ofOption_some]
  exact (List.getD_eq_getElem _ _ h).symm

theorem ends_storeEntropy (h : word < words.length) :
    Ends (· = words.set word value) NoFailure (storeEntropy words word value) :=
  ends_bind (ends_ensure (by simp [h])) fun _ _ => ends_pure rfl

theorem ends_shiftEntropyLeft (h : amount < bitsPerEntropyWord) :
    Ends (· = entropy <<< amount) NoFailure (shiftEntropyLeft entropy amount) :=
  ends_bind (ends_ensure (by simp [h])) fun _ _ => ends_pure rfl

theorem ends_shiftEntropyRight (h : amount < bitsPerEntropyWord) :
    Ends (· = entropy >>> amount) NoFailure (shiftEntropyRight entropy amount) :=
  ends_bind (ends_ensure (by simp [h])) fun _ _ => ends_pure rfl

/-- The words after a round. -/
def addEntropy (output : List EntropyWord) (start width : ℕ) (entropy : EntropyWord) :
    List EntropyWord :=
  let word := start / bitsPerEntropyWord
  let offset := start % bitsPerEntropyWord
  let low := output.set word (output.getD word 0 ||| entropy <<< offset)
  if bitsPerEntropyWord - offset < width ∧ word + 1 < output.length then
    low.set (word + 1) (entropy >>> (bitsPerEntropyWord - offset))
  else low

theorem length_addEntropy : (addEntropy output start width entropy).length = output.length := by
  unfold addEntropy
  dsimp only
  split <;> simp

/-- The part of the new number that its first word takes. -/
theorem bitAt_low (entropy : EntropyWord) (i : ℕ)
    (hstart : start < output.length * bitsPerEntropyWord) :
    bitAt (output.set (start / bitsPerEntropyWord) (output.getD (start / bitsPerEntropyWord) 0 |||
      entropy <<< (start % bitsPerEntropyWord))) i =
      (bitAt output i || (decide (i / bitsPerEntropyWord = start / bitsPerEntropyWord ∧ start ≤ i) &&
        entropy.getLsbD (i - start))) := by
  rw [bitAt_set ((Nat.div_lt_iff_lt_mul (by decide)).mpr hstart)]
  split
  · rename_i hsame
    have hi := Nat.div_add_mod i bitsPerEntropyWord
    have hs := Nat.div_add_mod start bitsPerEntropyWord
    have hm : i % bitsPerEntropyWord < bitsPerEntropyWord := Nat.mod_lt _ (by decide)
    rw [BitVec.getLsbD_or, BitVec.getLsbD_shiftLeft, bitAt, hsame]
    congr 1
    by_cases hle : start ≤ i
    · have hnot : ¬ i % bitsPerEntropyWord < start % bitsPerEntropyWord := by
        rw [hsame] at hi
        omega
      have hsub : i % bitsPerEntropyWord - start % bitsPerEntropyWord = i - start := by
        rw [hsame] at hi
        omega
      simp [hm, hnot, hsub, hle]
    · have hlt : i % bitsPerEntropyWord < start % bitsPerEntropyWord := by
        rw [hsame] at hi
        omega
      simp [hlt, hle]
  · rename_i hother
    simp [hother]

/-- The bits of the new number come after the ones that are there. -/
theorem bitAt_addEntropy (hwidth : ∀ j, width ≤ j → entropy.getLsbD j = false)
    (hclear : ∀ i, start ≤ i → bitAt output i = false) (hi : i < output.length * bitsPerEntropyWord)
    (hstart : start < output.length * bitsPerEntropyWord) :
    bitAt (addEntropy output start width entropy) i =
      (bitAt output i || (decide (start ≤ i) && entropy.getLsbD (i - start))) := by
  have hdi := Nat.div_add_mod i bitsPerEntropyWord
  have hds := Nat.div_add_mod start bitsPerEntropyWord
  have hmi : i % bitsPerEntropyWord < bitsPerEntropyWord := Nat.mod_lt _ (by decide)
  have hms : start % bitsPerEntropyWord < bitsPerEntropyWord := Nat.mod_lt _ (by decide)
  have hword : i / bitsPerEntropyWord < output.length := (Nat.div_lt_iff_lt_mul (by decide)).mpr hi
  have hlow := bitAt_low entropy i hstart
  have hlength : (output.set (start / bitsPerEntropyWord) (output.getD (start / bitsPerEntropyWord) 0 |||
    entropy <<< (start % bitsPerEntropyWord))).length = output.length := List.length_set
  unfold addEntropy
  dsimp only
  generalize output.set (start / bitsPerEntropyWord) (output.getD (start / bitsPerEntropyWord) 0 |||
    entropy <<< (start % bitsPerEntropyWord)) = low at *
  by_cases hnext : i / bitsPerEntropyWord = start / bitsPerEntropyWord + 1
  · -- the second word has been clear
    rw [hnext, Nat.mul_succ] at hdi
    have hlater : start ≤ i := by omega
    have hsub : i - start = bitsPerEntropyWord - start % bitsPerEntropyWord + i % bitsPerEntropyWord := by
      omega
    rw [hclear i hlater, Bool.false_or, decide_eq_true hlater, Bool.true_and]
    split
    · rename_i hstraddles
      rw [bitAt_set (hstraddles.2.trans_eq hlength.symm), if_pos hnext, BitVec.getLsbD_ushiftRight, hsub]
    · rename_i hfits
      have hnarrow : width ≤ bitsPerEntropyWord - start % bitsPerEntropyWord := by
        by_contra hwide
        exact hfits ⟨not_le.mp hwide, hnext ▸ hword⟩
      rw [hlow, hclear i hlater, hwidth (i - start) (by omega)]
      simp
  · have hfirst : bitAt (if bitsPerEntropyWord - start % bitsPerEntropyWord < width ∧
          start / bitsPerEntropyWord + 1 < output.length then
        low.set (start / bitsPerEntropyWord + 1)
          (entropy >>> (bitsPerEntropyWord - start % bitsPerEntropyWord)) else low) i = bitAt low i := by
      split
      · rename_i hstraddles
        rw [bitAt_set (hstraddles.2.trans_eq hlength.symm), if_neg hnext]
      · rfl
    rw [hfirst, hlow]
    congr 1
    by_cases hle : start ≤ i
    · by_cases hsame : i / bitsPerEntropyWord = start / bitsPerEntropyWord
      · simp [hsame]
      · -- past the second word, where the number has no bits
        have hmono : start / bitsPerEntropyWord ≤ i / bitsPerEntropyWord := Nat.div_le_div_right hle
        have hmul := Nat.mul_le_mul_left bitsPerEntropyWord
          (show start / bitsPerEntropyWord + 2 ≤ i / bitsPerEntropyWord by omega)
        rw [Nat.mul_add] at hmul
        rw [BitVec.getLsbD_of_ge entropy (i - start) (by omega), Bool.and_false, Bool.and_false]
    · simp [hle]

/-- What holds before a round: the bits so far are those of the numbers so far. -/
structure Generated (rand : ℕ → EntropyWord) (bitsPerRand length : ℕ) (s : EntropyState) : Prop where
  output : s.output.length = length
  bitsSoFar : s.bitsSoFar = s.numCalls * bitsPerRand
  bits : ∀ i < length * bitsPerEntropyWord, bitAt s.output i =
    (decide (i < s.bitsSoFar) && (rand (i / bitsPerRand)).getLsbD (i % bitsPerRand))

theorem Generated.clear {s : EntropyState} (h : Generated rand bitsPerRand length s) (i : ℕ)
    (hi : s.bitsSoFar ≤ i) : bitAt s.output i = false := by
  rcases Nat.lt_or_ge i (length * bitsPerEntropyWord) with hlt | hge
  · rw [h.bits i hlt, decide_eq_false (not_lt.mpr hi), Bool.false_and]
  · exact bitAt_of_ge (by decide) (h.output ▸ hge)

/-- The bits of the numbers, after one more. -/
theorem Generated.step {s : EntropyState} (h : Generated rand bitsPerRand length s)
    (hrand : ∀ k j, bitsPerRand ≤ j → (rand k).getLsbD j = false)
    (hmore : s.bitsSoFar < length * bitsPerEntropyWord) :
    Generated rand bitsPerRand length
      { output := addEntropy s.output s.bitsSoFar bitsPerRand (rand s.numCalls)
        bitsSoFar := s.bitsSoFar + bitsPerRand
        numCalls := s.numCalls + 1 } where
  output := length_addEntropy.trans h.output
  bitsSoFar := by rw [h.bitsSoFar, Nat.succ_mul]
  bits := by
    intro i hi
    have hclear := h.clear
    rw [← h.output] at hmore hi
    rw [bitAt_addEntropy (hrand _) hclear hi hmore]
    rcases Nat.lt_or_ge i s.bitsSoFar with hold | hnew
    · rw [h.bits i (h.output ▸ hi), decide_eq_true hold, decide_eq_false (not_le.mpr hold),
        decide_eq_true (show i < s.bitsSoFar + bitsPerRand by omega), Bool.false_and, Bool.or_false]
    · rw [hclear i hnew, decide_eq_true hnew, Bool.false_or, Bool.true_and]
      rcases Nat.lt_or_ge (i - s.bitsSoFar) bitsPerRand with hin | hpast
      · obtain ⟨j, rfl⟩ := Nat.exists_eq_add_of_le hnew
        rw [Nat.add_sub_cancel_left] at hin ⊢
        rw [decide_eq_true (show s.bitsSoFar + j < s.bitsSoFar + bitsPerRand by omega), Bool.true_and,
          h.bitsSoFar, Nat.mul_add_mod_of_lt hin, Nat.mul_comm, Nat.mul_add_div (by omega),
          Nat.div_eq_of_lt hin, Nat.add_zero]
      · rw [hrand _ _ hpast, decide_eq_false (show ¬ i < s.bitsSoFar + bitsPerRand by omega),
          Bool.false_and]

theorem ends_storeHighBits {localBits : ℕ} (hbits : bitsPerRand ≤ bitsPerEntropyWord)
    (h : output.length = length) :
    Ends (· = if localBits < bitsPerRand ∧ word + 1 < length then
        output.set (word + 1) (entropy >>> localBits) else output) NoFailure
      (storeHighBits output word entropy localBits bitsPerRand length) := by
  unfold storeHighBits
  split
  · rename_i hstraddles
    refine ends_bind (ends_shiftEntropyRight (hstraddles.1.trans_le hbits)) ?_
    rintro _ rfl
    exact ends_storeEntropy (h.symm ▸ hstraddles.2)
  · exact ends_pure rfl

/-- A round of `generate_entropy` adds the bits of the next number. -/
theorem ends_generateRound {s : EntropyState} (hbits : bitsPerRand ≤ bitsPerEntropyWord)
    (h : s.output.length = length)
    (hmore : s.bitsSoFar < length * bitsPerEntropyWord) :
    Ends (· = { output := addEntropy s.output s.bitsSoFar bitsPerRand (rand s.numCalls)
                bitsSoFar := s.bitsSoFar + bitsPerRand
                numCalls := s.numCalls + 1 }) NoFailure
      (generateRound rand bitsPerRand length s) := by
  have hword : s.bitsSoFar / bitsPerEntropyWord < s.output.length :=
    (Nat.div_lt_iff_lt_mul (by decide)).mpr (h ▸ hmore)
  have hoffset : s.bitsSoFar % bitsPerEntropyWord < bitsPerEntropyWord := Nat.mod_lt _ (by decide)
  unfold generateRound addEntropy
  refine ends_bind (ends_shiftEntropyLeft hoffset) ?_
  rintro _ rfl
  refine ends_bind (ends_loadEntropy hword) ?_
  rintro _ rfl
  refine ends_bind (ends_storeEntropy hword) ?_
  rintro _ rfl
  rw [h]
  refine ends_bind (ends_storeHighBits hbits (by rw [List.length_set]; exact h)) ?_
  rintro _ rfl
  exact ends_pure rfl

/-- A result of `rand()` has at least one bit, and fits into a word. -/
theorem populationCount_bounds {randMax : EntropyWord} (hmax : randMax ≠ 0)
    (hodd : countTrailingZeros randMax = 0) :
    0 < populationCount randMax ∧ populationCount randMax ≤ bitsPerEntropyWord := by
  rw [populationCount]
  refine ⟨?_, List.countP_le_length.trans_eq List.length_range⟩
  have hset := (countTrailingZeros_spec hmax).1
  rw [hodd] at hset
  rw [List.countP_pos_iff]
  exact ⟨0, List.mem_range.mpr (by decide), hset⟩

/-- `generate_entropy` fills the words with the bits of the numbers, one after the other. -/
theorem generateEntropy_spec {randMax : EntropyWord} (hmax : randMax ≠ 0)
    (hodd : countTrailingZeros randMax = 0)
    (hrand : ∀ k j, populationCount randMax ≤ j → (rand k).getLsbD j = false) (length : ℕ) :
    ∃ output, generateEntropy randMax rand length = .ok output ∧ output.length = length ∧
      ∀ i < length * bitsPerEntropyWord, bitAt output i =
        (rand (i / populationCount randMax)).getLsbD (i % populationCount randMax) := by
  obtain ⟨hpos, hwide⟩ := populationCount_bounds hmax hodd
  have hstart : Generated rand (populationCount randMax) length
      { output := List.replicate length 0, bitsSoFar := 0, numCalls := 0 } := by
    refine ⟨List.length_replicate, (Nat.zero_mul _).symm, fun i hi => ?_⟩
    have hword : i / bitsPerEntropyWord < length := (Nat.div_lt_iff_lt_mul (by decide)).mpr hi
    rw [bitAt, List.getD_replicate _ hword]
    exact BitVec.getLsbD_zero
  have hround : ∀ s : EntropyState, Generated rand (populationCount randMax) length s →
      decide (s.bitsSoFar < length * bitsPerEntropyWord) = true →
      Ends (fun s' : EntropyState => Generated rand (populationCount randMax) length s' ∧
          length * bitsPerEntropyWord - s'.bitsSoFar < length * bitsPerEntropyWord - s.bitsSoFar)
        NoFailure (generateRound rand (populationCount randMax) length s) := by
    intro s hs hcond
    rw [decide_eq_true_iff] at hcond
    refine (ends_generateRound hwide hs.output hcond).mono ?_
    rintro _ rfl
    exact ⟨hs.step hrand hcond, by dsimp only; omega⟩
  have hloop : Ends (fun s : EntropyState => Generated rand (populationCount randMax) length s ∧
        decide (s.bitsSoFar < length * bitsPerEntropyWord) = false) NoFailure
      (whileE .tooManyRounds (fun s => decide (s.bitsSoFar < length * bitsPerEntropyWord))
        (generateRound rand (populationCount randMax) length) (length * bitsPerEntropyWord + 1)
        { output := List.replicate length 0, bitsSoFar := 0, numCalls := 0 }) :=
    ends_whileE _ _ hround hstart (Nat.lt_succ_self _)
  obtain ⟨s, hrun, hs, hdone⟩ := hloop.exists_ok
  refine ⟨s.output, ?_, hs.output, fun i hi => ?_⟩
  · rw [generateEntropy, ensure_of_true _ (by simpa using hodd), ok_bind]
    dsimp only
    rw [ensure_of_true _ (decide_eq_true hwide), ok_bind, hrun]
    rfl
  · have hend : length * bitsPerEntropyWord ≤ s.bitsSoFar := by simpa using hdone
    rw [hs.bits i hi, decide_eq_true (hi.trans_le hend), Bool.true_and]

/-! ## Reading -/

/-- The low bits of the result are the next ones of the input. -/
theorem ends_takeHighBits (b : Build) {next : ℕ} (hwidth : width ≤ bitsPerEntropyWord)
    (hroom : next + width ≤ inputs.length * bitsPerEntropyWord) :
    Ends (fun result => ∀ j < width, result.getLsbD j = bitAt inputs (next + j)) NoFailure
      (takeHighBits b inputs (next / bitsPerEntropyWord)
        (bitsPerEntropyWord - next % bitsPerEntropyWord) width
        (inputs.getD (next / bitsPerEntropyWord) 0 >>> (next % bitsPerEntropyWord))) := by
  have hsplit := Nat.div_add_mod next bitsPerEntropyWord
  have hoffset : next % bitsPerEntropyWord < bitsPerEntropyWord := Nat.mod_lt _ (by decide)
  unfold takeHighBits
  split
  · rename_i hstraddles
    have hnext : next / bitsPerEntropyWord + 1 < inputs.length := by
      refine Nat.lt_of_mul_lt_mul_left (a := bitsPerEntropyWord) ?_
      rw [Nat.mul_succ, Nat.mul_comm _ inputs.length]
      omega
    rw [assertion_of_true _ _ (decide_eq_true hnext), ok_bind]
    refine ends_bind (ends_loadEntropy hnext) ?_
    rintro _ rfl
    refine ends_bind (ends_shiftEntropyLeft (hstraddles.trans_le hwidth)) ?_
    rintro _ rfl
    refine ends_pure fun j hj => ?_
    have hj' : j < bitsPerEntropyWord := hj.trans_le hwidth
    rw [bitAt_add hj', BitVec.getLsbD_or, BitVec.getLsbD_ushiftRight, BitVec.getLsbD_shiftLeft]
    split
    · rename_i hsame
      have hbelow : j < bitsPerEntropyWord - next % bitsPerEntropyWord := by omega
      simp [hbelow]
    · rename_i hother
      have habove : ¬ j < bitsPerEntropyWord - next % bitsPerEntropyWord := by omega
      have hsub : j - (bitsPerEntropyWord - next % bitsPerEntropyWord) =
          next % bitsPerEntropyWord + j - bitsPerEntropyWord := by omega
      rw [BitVec.getLsbD_of_ge _ _ (not_lt.mp hother), hsub]
      simp [hj', habove]
  · rename_i hfits
    refine ends_pure fun j hj => ?_
    rw [bitAt_add (hj.trans_le hwidth), if_pos (by omega), BitVec.getLsbD_ushiftRight]

/-- The other bits are cleared. -/
theorem ends_maskOutput {next : ℕ} {result : EntropyWord}
    (h : ∀ j < width, result.getLsbD j = bitAt inputs (next + j)) :
    Ends (IsWindow inputs next width) NoFailure (maskOutput width result) := by
  unfold maskOutput
  split
  · rename_i hless
    refine ends_bind (ends_shiftEntropyLeft hless) ?_
    rintro _ rfl
    refine ends_pure fun j _ => ?_
    rw [BitVec.getLsbD_and, getLsbD_lowMask hless]
    by_cases hj : j < width
    · rw [h j hj, Bool.and_comm]
    · simp [hj]
  · rename_i hwhole
    refine ends_pure fun j hj => ?_
    have hj' : j < width := hj.trans_le (not_lt.mp hwhole)
    rw [h j hj', decide_eq_true hj', Bool.true_and]

/-- A round of `entropy_to_bits` appends the window that comes next. -/
theorem ends_outputRound (b : Build) {next : ℕ} {outputs : List EntropyWord} (hpos : 1 ≤ width)
    (hwidth : width ≤ bitsPerEntropyWord) (hroom : next + width ≤ inputs.length * bitsPerEntropyWord) :
    Ends (fun s => ∃ result, IsWindow inputs next width result ∧
        s = (outputs ++ [result], next + width)) NoFailure
      (outputRound b width inputs (outputs, next)) := by
  have hword : next / bitsPerEntropyWord < inputs.length :=
    (Nat.div_lt_iff_lt_mul (by decide)).mpr (by omega)
  unfold outputRound
  dsimp only
  rw [assertion_of_true _ _ (decide_eq_true hword), ok_bind]
  refine ends_bind (ends_loadEntropy hword) ?_
  rintro _ rfl
  refine ends_bind (ends_shiftEntropyRight (Nat.mod_lt _ (by decide))) ?_
  rintro _ rfl
  refine ends_bind (ends_takeHighBits b hwidth hroom) fun low hlow => ?_
  refine ends_bind (ends_maskOutput hlow) fun result hresult => ?_
  exact ends_pure ⟨result, hresult, rfl⟩

/-- A call of `entropy_to_bits` cuts off the windows that come next. -/
theorem ends_entropyToBits (b : Build) {next n : ℕ} (hpos : 1 ≤ width)
    (hwidth : width ≤ bitsPerEntropyWord)
    (hroom : next + n * width ≤ inputs.length * bitsPerEntropyWord) :
    Ends (fun s => Windows inputs next (List.replicate n width) s.1 ∧ s.2 = next + n * width)
      NoFailure (entropyToBits b width n next inputs) := by
  unfold entropyToBits
  dsimp only
  rw [assertion_of_true _ _ (decide_eq_true hwidth), ok_bind,
    assertion_of_true _ _ (decide_eq_true (by omega)), ok_bind]
  have hloop := ends_forRangeE_induction (F := NoFailure) 0 n (([] : List EntropyWord), next)
    (fun s _ => outputRound b width inputs s)
    (fun k s => Windows inputs next (List.replicate k width) s.1 ∧ s.2 = next + k * width)
    ⟨trivial, by rw [Nat.zero_mul]; rfl⟩ ?_
  · rw [Nat.zero_add] at hloop
    exact hloop
  · rintro k ⟨outputs, at'⟩ - hk ⟨hwindows, hat⟩
    dsimp only at hwindows hat
    subst hat
    have hmul := Nat.mul_le_mul_right width (show k + 1 ≤ n by omega)
    rw [Nat.succ_mul] at hmul
    refine (ends_outputRound b hpos hwidth (by omega)).mono ?_
    rintro _ ⟨result, hresult, rfl⟩
    refine ⟨?_, by dsimp only; rw [Nat.succ_mul, Nat.add_assoc]⟩
    rw [List.replicate_succ']
    refine hwindows.append ?_
    rw [List.sum_replicate_nat]
    exact .single hresult

/-- From one to 64 bits are asked for. -/
def EntropyRequest.Valid (request : EntropyRequest) : Prop :=
  1 ≤ request.bitsPerOutput ∧ request.bitsPerOutput ≤ bitsPerEntropyWord

/-- The number of bits that a call consumes. -/
def EntropyRequest.numBits (request : EntropyRequest) : ℕ :=
  request.numOutputs * request.bitsPerOutput

/-- The widths of all outputs, in order. -/
def outputWidths (requests : List EntropyRequest) : List ℕ :=
  requests.flatMap fun request => List.replicate request.numOutputs request.bitsPerOutput

/-- Successive calls cut off consecutive windows. -/
theorem ends_entropyCalls (b : Build) {requests : List EntropyRequest} {next : ℕ}
    (hvalid : ∀ request ∈ requests, request.Valid)
    (hroom : next + (requests.map EntropyRequest.numBits).sum
      ≤ inputs.length * bitsPerEntropyWord) :
    Ends (fun s => Windows inputs next (outputWidths requests) s.1 ∧
        s.2 = next + (requests.map EntropyRequest.numBits).sum) NoFailure
      (entropyCalls b inputs requests next) := by
  induction requests generalizing next with
  | nil => exact ends_pure ⟨trivial, rfl⟩
  | cons request requests ih =>
      rw [List.map_cons, List.sum_cons, ← Nat.add_assoc] at hroom ⊢
      obtain ⟨hpos, hwidth⟩ := hvalid request List.mem_cons_self
      have hfirst : next + request.numOutputs * request.bitsPerOutput
          ≤ inputs.length * bitsPerEntropyWord := (Nat.le_add_right ..).trans hroom
      rw [entropyCalls]
      refine ends_bind (ends_entropyToBits b hpos hwidth hfirst) ?_
      rintro ⟨outputs, consumed⟩ ⟨hwindows, hconsumed⟩
      dsimp only at hwindows hconsumed
      subst hconsumed
      refine ends_bind (ih (fun r hr => hvalid r (List.mem_cons_of_mem request hr)) hroom) ?_
      rintro ⟨rest, consumed⟩ ⟨hrest, hconsumed⟩
      refine ends_pure ⟨?_, hconsumed⟩
      rw [outputWidths, List.flatMap_cons]
      refine hwindows.append ?_
      rw [List.sum_replicate_nat]
      exact hrest

/-- The words that `generate_entropy` fills hold the bits of the numbers one after the other, successive
calls of `entropy_to_bits` cut consecutive windows out of any words, and together they give the numbers
back. `RAND_MAX` is at least 32767. -/
theorem entropy_stream (b : Build) {randMax : EntropyWord} (hmax : randMax ≠ 0)
    (hodd : countTrailingZeros randMax = 0)
    (hrand : ∀ k, (rand k).toNat < 2 ^ populationCount randMax) (length : ℕ) :
    (∃ output, generateEntropy randMax rand length = .ok output ∧ output.length = length ∧
      (∀ i < length * bitsPerEntropyWord, bitAt output i =
        (rand (i / populationCount randMax)).getLsbD (i % populationCount randMax)) ∧
      ∀ n, n * populationCount randMax ≤ length * bitsPerEntropyWord →
        entropyToBits b (populationCount randMax) n 0 output =
          .ok ((List.range n).map rand, n * populationCount randMax)) ∧
    ∀ (inputs : List EntropyWord) (requests : List EntropyRequest),
      (∀ request ∈ requests, request.Valid) →
      (requests.map EntropyRequest.numBits).sum ≤ inputs.length * bitsPerEntropyWord →
      ∃ outputs, entropyCalls b inputs requests 0 =
          .ok (outputs, (requests.map EntropyRequest.numBits).sum) ∧
        Windows inputs 0 (outputWidths requests) outputs := by
  have hhigh : ∀ k j, populationCount randMax ≤ j → (rand k).getLsbD j = false := fun k j hj =>
    Nat.testBit_lt_two_pow ((hrand k).trans_le (Nat.pow_le_pow_right (by decide) hj))
  constructor
  · obtain ⟨output, hgenerate, hlength, hbits⟩ := generateEntropy_spec hmax hodd hhigh length
    refine ⟨output, hgenerate, hlength, hbits, fun n hn => ?_⟩
    obtain ⟨hpos, hwide⟩ := populationCount_bounds hmax hodd
    have hroom : 0 + n * populationCount randMax ≤ output.length * bitsPerEntropyWord := by
      rw [Nat.zero_add, hlength]
      exact hn
    obtain ⟨⟨outputs, consumed⟩, hcall, hwindows, hconsumed⟩ :=
      (ends_entropyToBits b hpos hwide hroom).exists_ok
    dsimp only at hwindows hconsumed
    rw [hcall, hconsumed, Nat.zero_add]
    congr 2
    refine hwindows.eq_map_range fun k hk j hj => ?_
    by_cases hlow : j < populationCount randMax
    · have hend : (k + 1) * populationCount randMax ≤ n * populationCount randMax :=
        Nat.mul_le_mul_right _ hk
      rw [Nat.succ_mul] at hend
      rw [decide_eq_true hlow, Bool.true_and, hbits _ (by omega), Nat.mul_add_mod_of_lt hlow,
        Nat.mul_comm, Nat.mul_add_div hpos, Nat.div_eq_of_lt hlow, Nat.add_zero]
    · rw [decide_eq_false hlow, Bool.false_and, hhigh k j (not_lt.mp hlow)]
  · intro inputs requests hvalid hroom
    rw [← Nat.zero_add (requests.map EntropyRequest.numBits).sum] at hroom
    obtain ⟨⟨outputs, consumed⟩, hcalls, hwindows, hconsumed⟩ :=
      (ends_entropyCalls b hvalid hroom).exists_ok
    dsimp only at hconsumed
    rw [Nat.zero_add] at hconsumed
    exact ⟨outputs, hconsumed ▸ hcalls, hwindows⟩

/-- Numbers of 31 bits. -/
def countingRand (k : ℕ) : EntropyWord := BitVec.ofNat bitsPerEntropyWord (k % 2 ^ 31)

theorem countingRand_lt (k : ℕ) : (countingRand k).toNat < 2 ^ 31 := by
  have hk : k % 2 ^ 31 < 2 ^ 31 := Nat.mod_lt _ (by decide)
  rw [countingRand, BitVec.toNat_ofNat, Nat.mod_eq_of_lt (hk.trans (by decide))]
  exact hk

/-- Four numbers fit into two words. -/
theorem entropy_stream_counting : ∃ output,
    generateEntropy (BitVec.ofNat 64 (2 ^ 31 - 1)) countingRand 2 = .ok output ∧
      entropyToBits ⟨true⟩ 31 4 0 output = .ok ((List.range 4).map countingRand, 124) := by
  have hbits : populationCount (BitVec.ofNat 64 (2 ^ 31 - 1)) = 31 := by decide
  have hrand : ∀ k, (countingRand k).toNat < 2 ^ populationCount (BitVec.ofNat 64 (2 ^ 31 - 1)) :=
    fun k => hbits ▸ countingRand_lt k
  obtain ⟨⟨output, hgenerate, -, -, hread⟩, -⟩ := entropy_stream ⟨true⟩ (by decide) (by decide) hrand 2
  have hfour := hread 4
  rw [hbits] at hfour
  exact ⟨output, hgenerate, hfour (by decide)⟩

end

end Udipe

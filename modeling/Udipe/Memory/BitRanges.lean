import Udipe.Memory.BitArray

/-!
# Ranges of bits

Reference: `bit_array.h`.

The range operations go from the word of `start` to that of `end`. Each round handles the bits of the range that
are in its word: the loop lemmas carry what has been done for the bits below the word.
-/

namespace Udipe

open Checked PackedBits

variable (assertions : Bool)

/-- The assertions of the range operations. -/
def assertRange (length : ℕ) (start stop : BitPos) : Except BitArrayFailure Unit := do
  assertIndex assertions start fun index => decide (index < length) || start == stop
  assertIndex assertions stop fun index => decide (index ≤ length)

/-- In the last word, the bits past the end are cleared. -/
def clearPastStop (target : Word) (word : ℕ) (stop : BitPos) : Except BitArrayFailure Word :=
  if word = stop.word then do
    let mask ← lowMask stop.offset
    pure (target &&& mask)
  else pure target

/-- In the first word, the bits before the start are shifted out. -/
def dropBeforeStart (target : Word) (word : ℕ) (start : BitPos) : Except BitArrayFailure Word :=
  if word = start.word then shiftWordRight target start.offset else pure target

/-- What is left of a loaded word: its bits in the range that are not `value`. -/
def rangeTarget (loaded : Word) (word : ℕ) (start stop : BitPos) (value : Bool) :
    Except BitArrayFailure Word := do
  let target ← clearPastStop (normalize (!value) loaded) word stop
  dropBeforeStart target word start

/-- The loop of `bit_array_range_alleq`, with `n` words left from `word` on. -/
def rangeAlleqLoop (words : List Word) (start stop : BitPos) (value : Bool) :
    ℕ → ℕ → Except BitArrayFailure Bool
  | 0, _ => pure true
  | n + 1, word =>
      if word = stop.word ∧ stop.offset = 0 then pure true
      else do
        let loaded ← loadWord words word
        let target ← rangeTarget loaded word start stop value
        if target ≠ 0 then pure false else rangeAlleqLoop words start stop value n (word + 1)

/-- `bit_array_range_alleq`. -/
def bitArrayRangeAlleq (words : List Word) (length : ℕ) (start stop : BitPos) (value : Bool) :
    Except BitArrayFailure Bool := do
  assertRange assertions length start stop
  rangeAlleqLoop words start stop value (stop.word + 1 - start.word) start.word

/-- One round of the loop of `bit_array_range_set` that neither breaks nor fills a whole word. -/
def fillPartOfWord (words : List Word) (word : ℕ) (start stop : BitPos) (value : Bool) :
    Except BitArrayFailure (List Word) := do
  let current ← loadWord words word
  let startOffset := if word = start.word then start.offset else 0
  let stopOffset := if word = stop.word then stop.offset else bitsPerWord
  if stopOffset < startOffset then pure words
  else
    let mask ← lowMask (stopOffset - startOffset)
    let fillMask ← shiftWordLeft mask startOffset
    storeWord words word (bitBroadcast value &&& fillMask ||| current &&& ~~~fillMask)

/-- The loop of `bit_array_range_set`, with `n` words left from `word` on. -/
def rangeSetLoop (start stop : BitPos) (value : Bool) :
    ℕ → ℕ → List Word → Except BitArrayFailure (List Word)
  | 0, _, words => pure words
  | n + 1, word, words =>
      if (start.word < word ∨ start.offset = 0) ∧ word < stop.word then do
        let words ← storeWord words word (bitBroadcast value)
        rangeSetLoop start stop value n (word + 1) words
      else if word = stop.word ∧ stop.offset = 0 then pure words
      else do
        let words ← fillPartOfWord words word start stop value
        rangeSetLoop start stop value n (word + 1) words

/-- `bit_array_range_set`. -/
def bitArrayRangeSet (words : List Word) (length : ℕ) (start stop : BitPos) (value : Bool) :
    Except BitArrayFailure (List Word) := do
  assertRange assertions length start stop
  rangeSetLoop start stop value (stop.word + 1 - start.word) start.word words

variable {assertions} {words : List Word} {word length start stop n : ℕ} {value : Bool}

theorem assertRange_bitPos (hlength : length ≤ sizeMax) (hle : start ≤ stop) (hstop : stop ≤ length) :
    assertRange assertions length (bitPos start) (bitPos stop) = .ok () := by
  have hstart : (decide (start < length) || bitPos start == bitPos stop) = true := by
    rcases hle.lt_or_eq with hlt | rfl
    · simp [hlt.trans_le hstop]
    · simp
  rw [assertRange, assertIndex_bitPos (by omega) hstart, ok_bind,
    assertIndex_bitPos (by omega) (decide_eq_true hstop)]

/-! ## Words of a range -/

/-- A bit of a word that the loop visits comes at or after the start. -/
theorem start_le_iff {j : ℕ} (hword : start / bitsPerWord ≤ word) :
    start ≤ word * bitsPerWord + j ↔ (word = start / bitsPerWord → start % bitsPerWord ≤ j) := by
  unfold bitsPerWord at *
  omega

/-- A bit of a word that the loop visits comes before the end. -/
theorem lt_stop_iff {j : ℕ} (hj : j < bitsPerWord) (hword : word ≤ stop / bitsPerWord) :
    word * bitsPerWord + j < stop ↔ (word = stop / bitsPerWord → j < stop % bitsPerWord) := by
  unfold bitsPerWord at *
  omega

/-- The loop loads words of the array only. -/
theorem visited_lt (hsize : words.length = bitArrayWords length) (hstop : stop ≤ length)
    (hword : word ≤ stop / bitsPerWord)
    (hlast : ¬ (word = stop / bitsPerWord ∧ stop % bitsPerWord = 0)) : word < words.length := by
  rw [hsize, bitArrayWords_eq]
  unfold bitsPerWord at *
  omega

theorem eq_zero_iff_getLsbD {target : Word} :
    target = 0 ↔ ∀ j < bitsPerWord, target.getLsbD j = false := by
  constructor
  · rintro rfl j -
    exact BitVec.getLsbD_zero
  · intro h
    exact BitVec.eq_of_getLsbD_eq fun j hj => (h j hj).trans BitVec.getLsbD_zero.symm

theorem ushiftRight_eq_zero_iff {target : Word} {amount : ℕ} :
    target >>> amount = 0 ↔ ∀ j < bitsPerWord, amount ≤ j → target.getLsbD j = false := by
  rw [eq_zero_iff_getLsbD]
  constructor
  · intro h j hj hle
    have hbit := h (j - amount) (by omega)
    rwa [BitVec.getLsbD_ushiftRight, Nat.add_sub_cancel' hle] at hbit
  · intro h j _
    rw [BitVec.getLsbD_ushiftRight]
    by_cases hin : amount + j < bitsPerWord
    · exact h _ hin (Nat.le_add_right ..)
    · exact BitVec.getLsbD_of_ge _ _ (Nat.le_of_not_lt hin)

/-! ## Comparing -/

theorem clearPastStop_spec (target : Word) (hstop : word ≤ stop / bitsPerWord) :
    ∃ target', clearPastStop target word (bitPos stop) = .ok target' ∧
      ∀ j < bitsPerWord, (target'.getLsbD j = false ↔
        (word * bitsPerWord + j < stop → target.getLsbD j = false)) := by
  unfold clearPastStop
  split
  · rename_i hlast
    obtain ⟨mask, hmask, hbits⟩ := lowMask_spec (Nat.mod_lt stop (show 0 < bitsPerWord by decide))
    refine ⟨target &&& mask, bind_eq_ok.mpr ⟨mask, hmask, rfl⟩, fun j hj => ?_⟩
    have hin : word * bitsPerWord + j < stop ↔ j < stop % bitsPerWord := by
      rw [lt_stop_iff hj hstop]
      exact ⟨fun h => h hlast, fun h _ => h⟩
    rw [BitVec.getLsbD_and, hbits, Bool.and_eq_false_iff, decide_eq_false_iff_not, hin]
    tauto
  · rename_i hlast
    refine ⟨target, rfl, fun j hj => ?_⟩
    have hin : word * bitsPerWord + j < stop := (lt_stop_iff hj hstop).mpr fun h => absurd h hlast
    simp only [hin, forall_const]

theorem dropBeforeStart_spec (target : Word) (hstart : start / bitsPerWord ≤ word) :
    ∃ target', dropBeforeStart target word (bitPos start) = .ok target' ∧
      (target' = 0 ↔ ∀ j < bitsPerWord, start ≤ word * bitsPerWord + j → target.getLsbD j = false) := by
  unfold dropBeforeStart
  split
  · rename_i hfirst
    refine ⟨_, shiftWordRight_eq (Nat.mod_lt start (show 0 < bitsPerWord by decide)) target, ?_⟩
    rw [ushiftRight_eq_zero_iff]
    refine forall₂_congr fun j _ => imp_congr_left ?_
    rw [start_le_iff hstart]
    exact ⟨fun h _ => h, fun h => h hfirst⟩
  · rename_i hfirst
    refine ⟨target, rfl, ?_⟩
    rw [eq_zero_iff_getLsbD]
    refine forall₂_congr fun j _ => ?_
    have hin : start ≤ word * bitsPerWord + j := (start_le_iff hstart).mpr fun h => absurd h hfirst
    simp only [hin, forall_const]

/-- The target is zero when all bits of the word that are in the range are `value`. -/
theorem rangeTarget_spec (loaded : Word) (value : Bool) (hstart : start / bitsPerWord ≤ word)
    (hstop : word ≤ stop / bitsPerWord) :
    ∃ target, rangeTarget loaded word (bitPos start) (bitPos stop) value = .ok target ∧
      (target = 0 ↔ ∀ j < bitsPerWord, start ≤ word * bitsPerWord + j →
        word * bitsPerWord + j < stop → loaded.getLsbD j = value) := by
  obtain ⟨below, hbelow, hbelowBits⟩ := clearPastStop_spec (normalize (!value) loaded) hstop
  obtain ⟨target, htarget, hzero⟩ := dropBeforeStart_spec below hstart
  refine ⟨target, bind_eq_ok.mpr ⟨below, hbelow, htarget⟩, hzero.trans ?_⟩
  refine forall₂_congr fun j hj => imp_congr_right fun _ => (hbelowBits j hj).trans ?_
  refine imp_congr_right fun _ => ?_
  rw [getLsbD_normalize hj]
  cases loaded.getLsbD j <;> cases value <;> decide

theorem rangeAlleqLoop_eq (hsize : words.length = bitArrayWords length)
    (hstop : stop ≤ length) (hn : word + n = stop / bitsPerWord + 1)
    (hword : start / bitsPerWord ≤ word) :
    rangeAlleqLoop words (bitPos start) (bitPos stop) value n word
      = .ok (decide (∀ i < stop, start ≤ i → word * bitsPerWord ≤ i → bitAt words i = value)) := by
  -- induction on the words that are left
  induction n generalizing word with
  | zero =>
      have hnone : ∀ i < stop, start ≤ i → word * bitsPerWord ≤ i → bitAt words i = value := by
        intro i hi _ hle
        unfold bitsPerWord at *
        omega
      rw [rangeAlleqLoop, decide_eq_true hnone]
      rfl
  | succ n ih =>
      have hlast : word ≤ stop / bitsPerWord := by omega
      rw [rangeAlleqLoop]
      split
      · rename_i hbreak
        -- the range ends with the word before this one
        obtain ⟨hword', hoffset⟩ := hbreak
        have hnone : ∀ i < stop, start ≤ i → word * bitsPerWord ≤ i → bitAt words i = value := by
          intro i hi _ hle
          simp only [bitPos] at hword' hoffset
          unfold bitsPerWord at *
          omega
        rw [decide_eq_true hnone]
        rfl
      · rename_i hbreak
        obtain ⟨target, htarget, hzero⟩ := rangeTarget_spec (words.getD word 0) value hword hlast
        have hload := loadWord_eq (visited_lt hsize hstop hlast hbreak)
        have hbits := forall_word_iff words word fun i bit => start ≤ i → i < stop → bit = value
        rw [hload, ok_bind, htarget, ok_bind]
        split
        · -- a bit of this word differs
          rename_i hdiffers
          have hsome : ¬ ∀ i < stop, start ≤ i → word * bitsPerWord ≤ i → bitAt words i = value :=
            fun hall => hdiffers (hzero.mpr (hbits.mpr fun i hle _ hstart hi => hall i hi hstart hle))
          rw [decide_eq_false hsome]
          rfl
        · rename_i hsame
          have hthis := hbits.mp (hzero.mp (not_not.mp hsame))
          rw [ih (by omega) (by omega)]
          congr 1
          rw [decide_eq_decide]
          constructor
          · intro hrest i hi hstart hle
            rcases Nat.lt_or_ge i ((word + 1) * bitsPerWord) with hlt | hge
            · exact hthis i hle hlt hstart hi
            · exact hrest i hi hstart hge
          · intro hall i hi hstart hle
            refine hall i hi hstart (le_trans ?_ hle)
            exact Nat.mul_le_mul_right _ (Nat.le_succ word)

/-- `bit_array_range_alleq` compares the bits of the range. -/
theorem bitArrayRangeAlleq_eq (hsize : words.length = bitArrayWords length) (hlength : length ≤ sizeMax)
    (hle : start ≤ stop) (hstop : stop ≤ length) (value : Bool) :
    bitArrayRangeAlleq assertions words length (bitPos start) (bitPos stop) value
      = .ok (decide (∀ i < stop, start ≤ i → bitAt words i = value)) := by
  have hwords : start / bitsPerWord ≤ stop / bitsPerWord := Nat.div_le_div_right hle
  rw [bitArrayRangeAlleq, assertRange_bitPos hlength hle hstop, ok_bind]
  simp only [bitPos]
  rw [← bitPos, ← bitPos, rangeAlleqLoop_eq hsize hstop (by omega) le_rfl]
  congr 1
  rw [decide_eq_decide]
  refine forall₂_congr fun i _ => imp_congr_right fun hstart => ?_
  have hfirst : start / bitsPerWord * bitsPerWord ≤ i := (Nat.div_mul_le_self ..).trans hstart
  simp only [hfirst, forall_const]

/-! ## Filling -/

/-- The bits of a word after a round of the loop. -/
def FilledInWord (words words' : List Word) (word start stop : ℕ) (value : Bool) : Prop :=
  words'.length = words.length ∧ ∀ i, bitAt words' i =
    if i / bitsPerWord = word ∧ start ≤ i ∧ i < stop then value else bitAt words i

/-- The mixture of a broadcast word and the current one. -/
theorem getLsbD_mixture {j : ℕ} (hj : j < bitsPerWord) (current fillMask : Word) :
    (bitBroadcast value &&& fillMask ||| current &&& ~~~fillMask).getLsbD j
      = if fillMask.getLsbD j = true then value else current.getLsbD j := by
  rw [BitVec.getLsbD_or, BitVec.getLsbD_and, BitVec.getLsbD_and, BitVec.getLsbD_not,
    getLsbD_bitBroadcast hj]
  cases fillMask.getLsbD j <;> simp [hj]

/-- A store to a word, given by its bits. -/
theorem filledInWord_set (hword : word < words.length) {stored : Word}
    (hstored : ∀ j < bitsPerWord, stored.getLsbD j =
      if start ≤ word * bitsPerWord + j ∧ word * bitsPerWord + j < stop then value
      else (words.getD word 0).getLsbD j) :
    FilledInWord words (words.set word stored) word start stop value := by
  refine ⟨List.length_set .., fun i => ?_⟩
  rw [bitAt_set hword]
  by_cases hi : i / bitsPerWord = word
  · have hindex : word * bitsPerWord + i % bitsPerWord = i := by
      rw [← hi]
      exact Nat.div_add_mod' ..
    have hbit : bitAt words i = (words.getD word 0).getLsbD (i % bitsPerWord) := by rw [bitAt, hi]
    rw [if_pos hi, hstored _ (Nat.mod_lt _ (by decide)), hindex, hbit]
    simp only [hi, true_and]
  · simp only [hi, false_and, if_false]

/-- The first bit of a word that is in the range. -/
def startOffset (word start : ℕ) : ℕ := if word = start / bitsPerWord then start % bitsPerWord else 0

/-- The bit of a word at which the range ends. -/
def stopOffset (word stop : ℕ) : ℕ :=
  if word = stop / bitsPerWord then stop % bitsPerWord else bitsPerWord

theorem startOffset_le_iff {j : ℕ} (hword : start / bitsPerWord ≤ word) :
    startOffset word start ≤ j ↔ start ≤ word * bitsPerWord + j := by
  unfold startOffset
  split
  all_goals
    unfold bitsPerWord at *
    omega

theorem lt_stopOffset_iff {j : ℕ} (hj : j < bitsPerWord) (hword : word ≤ stop / bitsPerWord) :
    j < stopOffset word stop ↔ word * bitsPerWord + j < stop := by
  unfold stopOffset
  split
  all_goals
    unfold bitsPerWord at *
    omega

/-- The shifts of a word that is filled in part are in range. -/
theorem offsets_bound (hle : start ≤ stop) (hstart : start / bitsPerWord ≤ word)
    (hpart : ¬ ((start / bitsPerWord < word ∨ start % bitsPerWord = 0) ∧ word < stop / bitsPerWord))
    (hstop : word ≤ stop / bitsPerWord) :
    startOffset word start ≤ stopOffset word stop ∧
      stopOffset word stop - startOffset word start < bitsPerWord ∧
        startOffset word start < bitsPerWord := by
  unfold startOffset stopOffset
  split
  all_goals
    split
    all_goals
      unfold bitsPerWord at *
      omega

theorem fillPartOfWord_spec (value : Bool) (hle : start ≤ stop) (hword : word < words.length)
    (hstart : start / bitsPerWord ≤ word) (hstop : word ≤ stop / bitsPerWord)
    (hpart : ¬ ((start / bitsPerWord < word ∨ start % bitsPerWord = 0) ∧ word < stop / bitsPerWord)) :
    ∃ words', fillPartOfWord words word (bitPos start) (bitPos stop) value = .ok words' ∧
      FilledInWord words words' word start stop value := by
  obtain ⟨horder, hdelta, hshift⟩ := offsets_bound hle hstart hpart hstop
  obtain ⟨mask, hmask, hbits⟩ := lowMask_spec hdelta
  rw [fillPartOfWord, loadWord_eq hword, ok_bind]
  -- the two branches of the code for the first and the last word are the two offsets
  change ∃ words', (if stopOffset word stop < startOffset word start then pure words else _) = _ ∧ _
  rw [if_neg (Nat.not_lt.mpr horder)]
  change ∃ words', (lowMask (stopOffset word stop - startOffset word start) >>= _) = _ ∧ _
  rw [hmask, ok_bind]
  change ∃ words', (shiftWordLeft mask (startOffset word start) >>= _) = _ ∧ _
  rw [shiftWordLeft_eq hshift, ok_bind, storeWord_eq hword]
  refine ⟨_, rfl, filledInWord_set hword fun j hj => ?_⟩
  rw [getLsbD_mixture hj, BitVec.getLsbD_shiftLeft, hbits]
  refine if_congr ?_ rfl rfl
  rw [← startOffset_le_iff hstart, ← lt_stopOffset_iff hj hstop]
  simp only [hj, decide_true, Bool.true_and, Bool.and_eq_true, Bool.not_eq_true', decide_eq_false_iff_not,
    decide_eq_true_eq]
  omega

theorem rangeSetLoop_eq (value : Bool) (hsize : words.length = bitArrayWords length) (hle : start ≤ stop)
    (hstop : stop ≤ length) (hn : word + n = stop / bitsPerWord + 1)
    (hword : start / bitsPerWord ≤ word) :
    ∃ words', rangeSetLoop (bitPos start) (bitPos stop) value n word words = .ok words' ∧
      words'.length = words.length ∧ ∀ i, bitAt words' i =
        if word * bitsPerWord ≤ i ∧ start ≤ i ∧ i < stop then value else bitAt words i := by
  -- induction on the words that are left, for any words so far
  induction n generalizing word words with
  | zero =>
      refine ⟨words, rfl, rfl, fun i => ?_⟩
      rw [if_neg]
      unfold bitsPerWord at *
      omega
  | succ n ih =>
      have hlast : word ≤ stop / bitsPerWord := by omega
      -- what the rest of the loop makes of the words after this round
      have hrest {words₁ : List Word} (hround : FilledInWord words words₁ word start stop value) :
          ∃ words', rangeSetLoop (bitPos start) (bitPos stop) value n (word + 1) words₁ = .ok words' ∧
            words'.length = words.length ∧ ∀ i, bitAt words' i =
              if word * bitsPerWord ≤ i ∧ start ≤ i ∧ i < stop then value else bitAt words i := by
        obtain ⟨hlen, hround⟩ := hround
        obtain ⟨words', hok, hlen', hbits⟩ := ih (hlen.trans hsize)
          (show word + 1 + n = stop / bitsPerWord + 1 by omega) (by omega)
        refine ⟨words', hok, hlen'.trans hlen, fun i => ?_⟩
        rw [hbits, hround]
        unfold bitsPerWord at *
        split_ifs with hlater hthis hin hin hin
        · rfl
        · omega
        · rfl
        · omega
        · omega
        · rfl
      rw [rangeSetLoop]
      split
      -- a whole word is stored without a load
      · rename_i hwhole
        have hbroken : ¬ (word = stop / bitsPerWord ∧ stop % bitsPerWord = 0) := fun h =>
          hwhole.2.ne h.1
        have hload := visited_lt hsize hstop hlast hbroken
        rw [storeWord_eq hload, ok_bind]
        refine hrest (filledInWord_set hload fun j hj => ?_)
        have hin : start ≤ word * bitsPerWord + j ∧ word * bitsPerWord + j < stop := by
          simp only [bitPos] at hwhole
          unfold bitsPerWord at *
          omega
        rw [if_pos hin, getLsbD_bitBroadcast hj]
      · rename_i hpart
        split
        · rename_i hbreak
          refine ⟨words, rfl, rfl, fun i => ?_⟩
          rw [if_neg]
          -- the range ends with the word before this one, so nothing of it is left
          obtain ⟨hword', hoffset⟩ := hbreak
          simp only [bitPos] at hword' hoffset
          unfold bitsPerWord at *
          omega
        · rename_i hbreak
          obtain ⟨words₁, hok, hround⟩ := fillPartOfWord_spec value hle
            (visited_lt hsize hstop hlast hbreak) hword hlast hpart
          rw [hok, ok_bind]
          exact hrest hround

/-- `bit_array_range_set` fills the range and changes no other bit, the padding of the last word included. -/
theorem bitArrayRangeSet_spec (assertions : Bool) (hsize : words.length = bitArrayWords length)
    (hlength : length ≤ sizeMax) (hle : start ≤ stop) (hstop : stop ≤ length) (value : Bool) :
    ∃ words', bitArrayRangeSet assertions words length (bitPos start) (bitPos stop) value = .ok words' ∧
      words'.length = words.length ∧
      ∀ i, bitAt words' i = if start ≤ i ∧ i < stop then value else bitAt words i := by
  have hwords : start / bitsPerWord ≤ stop / bitsPerWord := Nat.div_le_div_right hle
  obtain ⟨words', hok, hlen, hbits⟩ := rangeSetLoop_eq value hsize hle hstop
    (show start / bitsPerWord + (stop / bitsPerWord + 1 - start / bitsPerWord) = _ by omega) le_rfl
  refine ⟨words', ?_, hlen, fun i => ?_⟩
  · rw [bitArrayRangeSet, assertRange_bitPos hlength hle hstop]
    exact hok
  · rw [hbits]
    refine if_congr ⟨fun h => h.2, fun h => ⟨?_, h⟩⟩ rfl rfl
    exact (Nat.div_mul_le_self ..).trans h.1

/-! ## Refinement -/

/-- The array after a change of its words. -/
def BitArray.withWords (a : BitArray) (words : List Word) (h : words.length = a.words.length) :
    BitArray where
  words := words
  length := a.length
  length_le := a.length_le
  size := h.trans a.size

theorem bits_set {words' : List Word} (hbits : ∀ j, bitAt words' j = if j = n then value else bitAt words j) :
    bits words' length = (bits words length).set n value := by
  refine List.ext_getElem (by simp) fun i hi hi' => ?_
  rw [getElem_bits, hbits, List.getElem_set, getElem_bits]
  exact if_congr eq_comm rfl rfl

theorem bits_fill {words' : List Word} (hle : start ≤ stop) (hstop : stop ≤ length)
    (hbits : ∀ i, bitAt words' i = if start ≤ i ∧ i < stop then value else bitAt words i) :
    bits words' length = (bits words length).take start ++ List.replicate (stop - start) value ++
      (bits words length).drop stop := by
  have hlen : length = ((bits words length).take start ++ List.replicate (stop - start) value ++
      (bits words length).drop stop).length := by
    simp
    omega
  conv_lhs => rw [hlen]
  refine bits_eq_iff.mpr fun i hi => ?_
  rw [hbits]
  -- an index is before the range, in it or past it
  rcases Nat.lt_or_ge i start with hbefore | hafter
  · rw [if_neg (by omega), List.getElem_append_left (by simp; omega),
      List.getElem_append_left (by simp; omega), List.getElem_take, getElem_bits]
  · rcases Nat.lt_or_ge i stop with hin | hpast
    · rw [if_pos ⟨hafter, hin⟩, List.getElem_append_left (by simp; omega),
        List.getElem_append_right (by simp; omega), List.getElem_replicate]
    · have hindex : stop + (i - (min start length + (stop - start))) = i := by omega
      rw [if_neg (by omega), List.getElem_append_right (by simp; omega), List.getElem_drop, getElem_bits]
      simp only [List.length_append, List.length_take, length_bits, List.length_replicate, hindex]

theorem all_bits_range (hstop : stop ≤ length) :
    (((bits words length).take stop).drop start).all (· == value)
      = decide (∀ i < stop, start ≤ i → bitAt words i = value) := by
  rw [Bool.eq_iff_iff, List.all_eq_true, decide_eq_true_iff, List.forall_mem_iff_forall_getElem]
  constructor
  · intro h i hi hstart
    have hbit := h (i - start) (by simp; omega)
    rw [List.getElem_drop, List.getElem_take, getElem_bits, Nat.add_sub_cancel' hstart] at hbit
    exact beq_iff_eq.mp hbit
  · intro h k hk
    rw [List.length_drop, List.length_take, length_bits] at hk
    rw [List.getElem_drop, List.getElem_take, getElem_bits, beq_iff_eq]
    exact h _ (by omega) (Nat.le_add_right ..)

/-- Each operation does to the array what the one on lists does to the list of its booleans. No operation fails:
each loads and stores words of the array only. A write changes no bit past the addressed ones. -/
theorem bitArray_refines_list (assertions : Bool) (a : BitArray) :
    (∀ i (h : i < a.toList.length),
      bitArrayGet assertions a.words a.length (bitPos i) = .ok a.toList[i]) ∧
    (∀ i < a.length, ∀ value, ∃ a' : BitArray,
      bitArraySet assertions a.words a.length (bitPos i) value = .ok a'.words ∧
        a'.length = a.length ∧ a'.toList = a.toList.set i value ∧
        ∀ j, j ≠ i → bitAt a'.words j = bitAt a.words j) ∧
    (∀ value, bitArrayCount a.words a.length value = .ok (a.toList.count value)) ∧
    (∀ start stop value, start ≤ stop → stop ≤ a.length →
      bitArrayRangeAlleq assertions a.words a.length (bitPos start) (bitPos stop) value
        = .ok (((a.toList.take stop).drop start).all (· == value))) ∧
    ∀ start stop value, start ≤ stop → stop ≤ a.length → ∃ a' : BitArray,
      bitArrayRangeSet assertions a.words a.length (bitPos start) (bitPos stop) value = .ok a'.words ∧
        a'.length = a.length ∧
        a'.toList = a.toList.take start ++ List.replicate (stop - start) value ++ a.toList.drop stop ∧
        ∀ j, ¬ (start ≤ j ∧ j < stop) → bitAt a'.words j = bitAt a.words j := by
  refine ⟨fun i h => ?_, fun i h value => ?_, fun value => bitArrayCount_eq a.size value,
    fun start stop value hle hstop => ?_, fun start stop value hle hstop => ?_⟩
  · have hi : i < a.length := by simpa [BitArray.toList] using h
    rw [bitArrayGet_eq assertions a.size a.length_le hi]
    simp only [BitArray.toList, getElem_bits]
  · obtain ⟨words', hok, hlen, hbits⟩ := bitArraySet_spec assertions a.size a.length_le h value
    refine ⟨a.withWords words' hlen, hok, rfl, bits_set hbits, fun j hj => ?_⟩
    exact (hbits j).trans (if_neg hj)
  · rw [bitArrayRangeAlleq_eq a.size a.length_le hle hstop, BitArray.toList, all_bits_range hstop]
  · obtain ⟨words', hok, hlen, hbits⟩ :=
      bitArrayRangeSet_spec assertions a.size a.length_le hle hstop value
    refine ⟨a.withWords words' hlen, hok, rfl, bits_fill hle hstop hbits, fun j hj => ?_⟩
    exact (hbits j).trans (if_neg hj)

/-- Seventy bits, all of them clear, and padding that is not. -/
def seventyBits : BitArray where
  words := [0, BitVec.allOnes bitsPerWord <<< 6]
  length := 70
  length_le := by decide
  size := by decide

/-- Bits 60 to 65 are filled, on both sides of the turn of a word. -/
theorem bitArray_refines_list_seventyBits : ∃ a : BitArray,
    bitArrayRangeSet true seventyBits.words 70 (bitPos 60) (bitPos 66) true = .ok a.words ∧
      a.toList = List.replicate 60 false ++ List.replicate 6 true ++ List.replicate 4 false := by
  obtain ⟨a, hok, -, hlist, -⟩ :=
    (bitArray_refines_list true seventyBits).2.2.2.2 60 66 true (by decide) (by decide)
  exact ⟨a, hok, hlist.trans (by decide)⟩

end Udipe

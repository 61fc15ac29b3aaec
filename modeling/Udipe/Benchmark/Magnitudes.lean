import Udipe.Benchmark.Addend

/-!
# Adding and subtracting magnitudes

`accumulate_without_underflow` changes the magnitude of the accumulator by the addend, or stops when the
result has more words than the accumulator; `accumulator_subtract_with_underflow` replaces the magnitude
by the difference. Both keep `highest_word_idx` at the highest nonzero word.
-/

namespace Udipe

open Function Finset Checked

variable (asserts : Bool) {acc acc' start : Accumulator} {addend : UnsignedAddend}
  {hook : BitVec 64 → BitVec 64 → BitVec 64 × Bool} {sign : ℤ} {carry : Bool} {top added : ℕ}

/-! ## What the words stand for -/

namespace Accumulator

/-- The words as numbers. -/
def digits (acc : Accumulator) (i : ℕ) : ℕ := (acc.words i).toNat

/-- The magnitude, in units of the smallest subnormal number. -/
def magnitude (acc : Accumulator) : ℕ :=
  ∑ i ∈ range numAccumulatorWords, (acc.words i).toNat * 2 ^ (64 * i)

/-- The words from the end of the array on are zero, and `highest_word_idx` is right. -/
structure Valid (acc : Accumulator) : Prop where
  top : IsTopDigit acc.digits acc.highestWordIdx
  inBounds : acc.highestWordIdx < numAccumulatorWords

theorem magnitude_eq_positional (acc : Accumulator) :
    acc.magnitude = positional (2 ^ 64) acc.digits numAccumulatorWords :=
  sum_congr rfl fun i _ => by rw [pow_mul, digits]

theorem digits_lt (acc : Accumulator) (i : ℕ) : acc.digits i < 2 ^ 64 := (acc.words i).isLt

theorem magnitude_lt (acc : Accumulator) : acc.magnitude < (2 ^ 64) ^ numAccumulatorWords := by
  rw [magnitude_eq_positional]
  exact positional_lt fun i _ => acc.digits_lt i

theorem digits_update (acc : Accumulator) (idx : ℕ) (w : BitVec 64) :
    digits { acc with words := update acc.words idx w } = update acc.digits idx w.toNat := by
  funext i
  by_cases h : i = idx
  · subst h
    simp [digits]
  · simp [digits, h]

theorem words_eq_zero_iff (acc : Accumulator) (i : ℕ) : acc.words i = 0#64 ↔ acc.digits i = 0 := by
  rw [digits, ← BitVec.toNat_inj]
  rfl

/-- Equal digits are equal words. -/
theorem words_eq_of_digits {i : ℕ} (h : acc.digits i = acc'.digits i) : acc.words i = acc'.words i :=
  BitVec.eq_of_toNat_eq h

theorem valid_zero : Valid zero :=
  ⟨⟨fun _ _ => rfl, fun h => absurd rfl h⟩, by decide⟩

end Accumulator

/-! ## One word -/

theorem addWithCarryU64_spec (carry : Bool) (augend addend : BitVec 64) :
    (addWithCarryU64 carry augend addend).1.toNat
      + (addWithCarryU64 carry augend addend).2.toNat * 2 ^ 64
      = augend.toNat + addend.toNat + carry.toNat := by
  have haugend := augend.isLt
  have haddend := addend.isLt
  simp only [addWithCarryU64, BitVec.lt_def, BitVec.toNat_add, BitVec.toNat_ofNat, ← Bool.decide_or,
    Bool.toNat, Bool.cond_decide]
  cases carry <;> simp only [cond_true, cond_false] <;> split <;> omega

theorem subtractWithCarryU64_spec (carry : Bool) (minuend subtrahend : BitVec 64) :
    (subtractWithCarryU64 carry minuend subtrahend).1.toNat + subtrahend.toNat + carry.toNat
      = minuend.toNat + (subtractWithCarryU64 carry minuend subtrahend).2.toNat * 2 ^ 64 := by
  have hminuend := minuend.isLt
  have hsubtrahend := subtrahend.isLt
  simp only [subtractWithCarryU64, BitVec.lt_def, BitVec.toNat_add, BitVec.toNat_sub,
    BitVec.toNat_ofNat, ← Bool.decide_or, Bool.toNat, Bool.cond_decide]
  cases carry <;> simp only [cond_true, cond_false] <;> split <;> omega

/-- The contract of an `accumulate_return_carry` hook that adds (`sign = 1`) or subtracts
(`sign = -1`). -/
def WordOp (sign : ℤ) (hook : BitVec 64 → BitVec 64 → BitVec 64 × Bool) : Prop :=
  ∀ w x : BitVec 64,
    ((hook w x).1.toNat : ℤ) + sign * (hook w x).2.toNat * (2 ^ 64 : ℕ) = w.toNat + sign * x.toNat

theorem addInplaceReturnCarry_wordOp : WordOp 1 addInplaceReturnCarry := by
  intro w x
  have h := addWithCarryU64_spec false w x
  simp only [addInplaceReturnCarry, Bool.toNat_false] at h ⊢
  omega

theorem subInplaceReturnCarry_wordOp : WordOp (-1) subInplaceReturnCarry := by
  intro w x
  have h := subtractWithCarryU64_spec false w x
  simp only [subInplaceReturnCarry, Bool.toNat_false] at h ⊢
  omega

/-- `acc'` is `acc` with `x` accumulated into the word at `idx`. -/
structure AccumulatedAt (sign : ℤ) (acc acc' : Accumulator) (idx x : ℕ) (carry : Bool) : Prop where
  value : (acc'.magnitude : ℤ) + sign * carry.toNat * (2 ^ 64 : ℕ) ^ (idx + 1)
    = acc.magnitude + sign * (x * (2 ^ 64 : ℕ) ^ idx)
  digit : (acc'.digits idx : ℤ) + sign * carry.toNat * (2 ^ 64 : ℕ) = acc.digits idx + sign * x
  other : ∀ i, i ≠ idx → acc'.words i = acc.words i
  highestWordIdx : acc'.highestWordIdx = acc.highestWordIdx
  negative : acc'.negative = acc.negative

theorem accumulateAt_spec (hop : WordOp sign hook) {idx : ℕ} (hidx : idx < numAccumulatorWords)
    (acc : Accumulator) (x : BitVec 64) :
    ∃ acc' carry, acc.accumulateAt hook idx x = .ok (acc', carry) ∧
      AccumulatedAt sign acc acc' idx x.toNat carry := by
  have hdigit := hop (acc.words idx) x
  refine ⟨{ acc with words := update acc.words idx (hook (acc.words idx) x).1 },
    (hook (acc.words idx) x).2, ?_, ⟨?_, ?_, fun i hi => update_of_ne hi _ _, rfl, rfl⟩⟩
  · rw [Accumulator.accumulateAt, acc.word_of_lt hidx]
    rfl
  · rw [Accumulator.magnitude_eq_positional, Accumulator.magnitude_eq_positional,
      Accumulator.digits_update]
    exact positional_update_carry hidx hdigit
  · rw [Accumulator.digits_update, update_self]
    exact hdigit

/-! ## Several words -/

/-- What has been accumulated into `start` so far is `added`; the words above `top` have not been
touched, and the carry is still to be propagated to the first of them. -/
structure PartialSum (sign : ℤ) (start : Accumulator) (added : ℕ) (acc : Accumulator)
    (carry : Bool) (top : ℕ) : Prop where
  value : (acc.magnitude : ℤ) + sign * carry.toNat * (2 ^ 64 : ℕ) ^ (top + 1)
    = start.magnitude + sign * added
  above : ∀ i, top < i → acc.words i = start.words i
  highestWordIdx : acc.highestWordIdx = start.highestWordIdx
  negative : acc.negative = start.negative
  inBounds : top < numAccumulatorWords

/-- Without a carry, the word at `top` has changed by more than zero. -/
def ChangedAt (sign : ℤ) (start acc : Accumulator) (carry : Bool) (top : ℕ) : Prop :=
  carry = false → ∃ x : ℕ, 0 < x ∧ (acc.digits top : ℤ) = start.digits top + sign * x

/-- The low word of the addend. -/
theorem PartialSum.low {idx x : ℕ} (h : AccumulatedAt sign start acc idx x carry)
    (hidx : idx < numAccumulatorWords) :
    PartialSum sign start (x * (2 ^ 64) ^ idx) acc carry idx where
  value := by
    rw [h.value]
    push_cast
    rfl
  above i hi := h.other i (by omega)
  highestWordIdx := h.highestWordIdx
  negative := h.negative
  inBounds := hidx

/-- The next word receives the carry, with what the addend has for it. -/
theorem PartialSum.next {carry' : Bool} {x : ℕ}
    (h : PartialSum sign start added acc carry top) (high : ℕ)
    (hat : AccumulatedAt sign acc acc' (top + 1) x carry') (hx : x = high + carry.toNat)
    (hpos : 0 < x) (hin : top + 1 < numAccumulatorWords) :
    PartialSum sign start (added + high * (2 ^ 64) ^ (top + 1)) acc' carry' (top + 1) ∧
      ChangedAt sign start acc' carry' (top + 1) := by
  refine ⟨⟨?_, fun i hi => ?_, hat.highestWordIdx.trans h.highestWordIdx,
    hat.negative.trans h.negative, hin⟩, fun hcarry => ⟨x, hpos, ?_⟩⟩
  · have hx' : (x : ℤ) = high + carry.toNat := by exact_mod_cast hx
    have hvalue := hat.value
    rw [hx'] at hvalue
    push_cast at hvalue ⊢
    have hstart := h.value
    push_cast at hstart
    linear_combination hvalue + hstart
  · rw [hat.other i (by omega), h.above i (by omega)]
  · have hdigit := hat.digit
    subst hcarry
    rw [Accumulator.digits, Accumulator.digits, ← h.above (top + 1) (by omega)]
    simpa [Accumulator.digits] using hdigit

/-- Carry propagation ends without a carry, or stops with a carry out of the last word. -/
theorem propagateCarry_spec (hop : WordOp sign hook) {wordsLeft : ℕ}
    (h : PartialSum sign start added acc carry top) (hchanged : ChangedAt sign start acc carry top)
    (hleft : wordsLeft = numAccumulatorWords - (top + 1)) :
    (∃ acc' top', propagateCarry hook wordsLeft acc carry top = .ok (acc', top') ∧
      PartialSum sign start added acc' false top' ∧ ChangedAt sign start acc' false top') ∨
    (∃ acc', propagateCarry hook wordsLeft acc carry top
        = .error (.exitWithError carryOverflowMessage) ∧
      PartialSum sign start added acc' true (numAccumulatorWords - 1)) := by
  induction wordsLeft generalizing acc carry top with
  | zero =>
      have htop : top = numAccumulatorWords - 1 := by
        have := h.inBounds
        omega
      cases carry with
      | false => exact .inl ⟨acc, top, rfl, h, hchanged⟩
      | true => exact .inr ⟨acc, rfl, htop ▸ h⟩
  | succ wordsLeft ih =>
      cases carry with
      | false => exact .inl ⟨acc, top, rfl, h, hchanged⟩
      | true =>
          have hin : top + 1 < numAccumulatorWords := by omega
          obtain ⟨acc', carry', hat, hspec⟩ := accumulateAt_spec hop hin acc 1#64
          obtain ⟨hnext, hchanged'⟩ :=
            h.next 0 hspec (by decide) (by decide) hin
          rw [Nat.zero_mul, Nat.add_zero] at hnext
          have hrun : propagateCarry hook (wordsLeft + 1) acc true top
              = propagateCarry hook wordsLeft acc' carry' (top + 1) := by
            rw [propagateCarry, hat]
            rfl
          rw [hrun]
          exact ih hnext hchanged' (by omega)

/-- The high word, which exists in the accumulator. -/
theorem accumulateHighWord_spec (hop : WordOp sign hook) {highWord : BitVec 64} {high : ℕ}
    (h : PartialSum sign start added acc carry top) (hhigh : highWord.toNat = high + carry.toNat)
    (hlow : ChangedAt sign start acc false top ∨ 0 < highWord.toNat)
    (hin : top + 1 < numAccumulatorWords) :
    ∃ acc' carry' top', accumulateHighWord asserts acc highWord top hook = .ok (acc', carry', top') ∧
      PartialSum sign start (added + high * (2 ^ 64) ^ (top + 1)) acc' carry' top' ∧
      ChangedAt sign start acc' carry' top' := by
  by_cases hzero : highWord = 0#64
  · subst hzero
    have hnone : high = 0 ∧ carry.toNat = 0 := by
      simp only [BitVec.toNat_ofNat, Nat.zero_mod] at hhigh
      omega
    obtain ⟨rfl, hcarry⟩ := hnone
    have hcarry : carry = false := by cases carry <;> simp_all
    subst hcarry
    refine ⟨acc, false, top, rfl, by simpa using h, ?_⟩
    exact hlow.resolve_right (by simp)
  · have hpos : 0 < highWord.toNat :=
      Nat.pos_of_ne_zero fun h0 => hzero (BitVec.eq_of_toNat_eq h0)
    obtain ⟨acc', carry', hat, hspec⟩ := accumulateAt_spec hop hin acc highWord
    obtain ⟨hnext, hchanged⟩ := h.next high hspec hhigh hpos hin
    refine ⟨acc', carry', top + 1, ?_, hnext, hchanged⟩
    rw [accumulateHighWord, if_pos hzero, if_neg (by omega)]
    simp only [hat, ok_bind]
    rfl

/-- The whole addend is accumulated before the hook updates `highest_word_idx`, or a carry leaves the
last word. -/
theorem accumulateWithoutUnderflow_spec (hop : WordOp sign hook) (haddend : addend.Valid)
    (acc : Accumulator) (updateHighestIdx : Accumulator → ℕ → AccumulatorResult Accumulator) :
    (∃ acc' top,
      accumulateWithoutUnderflow asserts acc addend hook updateHighestIdx
        = updateHighestIdx acc' top ∧
      PartialSum sign acc addend.value acc' false top ∧ ChangedAt sign acc acc' false top) ∨
    (∃ acc',
      accumulateWithoutUnderflow asserts acc addend hook updateHighestIdx
        = .error (.exitWithError carryOverflowMessage) ∧
      PartialSum sign acc addend.value acc' true (numAccumulatorWords - 1)) := by
  have hlow : addend.lowWordIdx < numAccumulatorWords := by
    have := haddend.highWordIdx_lt
    omega
  obtain ⟨acc₁, carry₁, hat, hspec⟩ := accumulateAt_spec hop hlow acc addend.lowWord
  have hfirst := PartialSum.low hspec hlow
  -- the high word has room for the carry
  set highWord := addend.highWord + BitVec.ofNat 64 carry₁.toNat with hhighWord
  have hhigh : highWord.toNat = addend.highWord.toNat + carry₁.toNat := by
    have hroom := haddend.highWord_lt
    have hbit := Bool.toNat_lt carry₁
    rw [hhighWord, BitVec.toNat_add, BitVec.toNat_ofNat, Nat.mod_eq_of_lt (a := carry₁.toNat)
      (by omega), Nat.mod_eq_of_lt (by omega)]
  have hle : addend.highWord ≤ highWord := by
    rw [BitVec.le_def]
    omega
  have hchanged : ChangedAt sign acc acc₁ false addend.lowWordIdx ∨ 0 < highWord.toNat := by
    rcases Nat.eq_zero_or_pos highWord.toNat with hzero | hpos
    · -- without a high word there is no carry, and the low word of the addend is not zero
      refine .inl fun _ => ⟨addend.lowWord.toNat, ?_, ?_⟩
      · have hvalue := haddend.value_pos
        rw [UnsignedAddend.value, show addend.highWord.toNat = 0 by omega, Nat.zero_mul,
          Nat.add_zero] at hvalue
        exact Nat.pos_of_mul_pos_right hvalue
      · have hdigit := hspec.digit
        rw [show carry₁.toNat = 0 by omega] at hdigit
        simpa using hdigit
    · exact .inr hpos
  obtain ⟨acc₂, carry₂, top₂, hrun₂, hpartial₂, hchanged₂⟩ :=
    accumulateHighWord_spec asserts hop hfirst hhigh hchanged haddend.highWordIdx_lt
  have hrun : accumulateWithoutUnderflow asserts acc addend hook updateHighestIdx
      = (propagateCarry hook (numAccumulatorWords - (top₂ + 1)) acc₂ carry₂ top₂) >>=
          fun r => updateHighestIdx r.1 r.2 := by
    rw [accumulateWithoutUnderflow, assertion_of_true asserts _ (decide_eq_true hlow)]
    simp only [ok_bind, hat, ← hhighWord, assertion_of_true asserts _ (decide_eq_true hle), hrun₂]
  rw [hrun]
  rcases propagateCarry_spec hop hpartial₂ hchanged₂ rfl with
    ⟨acc', top', hcarry, hpartial, hchanged'⟩ | ⟨acc', hcarry, hpartial⟩
  · exact .inl ⟨acc', top', by rw [hcarry]; rfl, hpartial, hchanged'⟩
  · exact .inr ⟨acc', by rw [hcarry]; rfl, hpartial⟩

/-! ## Adding a magnitude -/

/-- The words above the highest modified one are zero if they were, and the highest one stays so. -/
theorem PartialSum.digits_above (h : PartialSum sign start added acc carry top)
    (hstart : start.Valid) {i : ℕ} (hi : top < i) (habove : start.highestWordIdx < i) :
    acc.digits i = 0 := by
  rw [Accumulator.digits, h.above i hi]
  exact hstart.top.zero_above i habove

/-- Adding an addend of the same sign. -/
theorem accumulate_add_spec (hacc : acc.Valid) (haddend : addend.Valid) :
    (∃ acc', accumulateWithoutUnderflow asserts acc addend addInplaceReturnCarry
        (updateHighestIdxAfterAdd asserts) = .ok acc' ∧
      acc'.Valid ∧ acc'.magnitude = acc.magnitude + addend.value ∧ acc'.negative = acc.negative) ∨
    (accumulateWithoutUnderflow asserts acc addend addInplaceReturnCarry
        (updateHighestIdxAfterAdd asserts) = .error (.exitWithError carryOverflowMessage) ∧
      (2 ^ 64) ^ numAccumulatorWords ≤ acc.magnitude + addend.value) := by
  rcases accumulateWithoutUnderflow_spec asserts addInplaceReturnCarry_wordOp haddend acc
      (updateHighestIdxAfterAdd asserts) with ⟨acc', top, hrun, h, hchanged⟩ | ⟨acc', hrun, h⟩
  · refine .inl ?_
    rw [hrun]
    obtain ⟨x, hx, hdigit⟩ := hchanged rfl
    have hvalue : acc'.magnitude = acc.magnitude + addend.value := by
      have := h.value
      simp only [Bool.toNat_false] at this
      omega
    have hne : acc'.digits top ≠ 0 := by omega
    by_cases htop : acc'.highestWordIdx < top
    · refine ⟨{ acc' with highestWordIdx := top }, ?_,
        ⟨⟨fun i hi => h.digits_above hacc hi ?_, fun _ => hne⟩, h.inBounds⟩, hvalue, h.negative⟩
      · have hword : acc'.words top ≠ 0#64 := fun h0 => hne ((acc'.words_eq_zero_iff top).mp h0)
        rw [updateHighestIdxAfterAdd, assertion_of_true asserts _ (decide_eq_true h.inBounds),
          ok_bind, if_pos htop, assertion_of_true asserts _ (decide_eq_true hword)]
        rfl
      · have hhighest := h.highestWordIdx
        have habove : top < i := hi
        omega
    · have hhighest := h.highestWordIdx
      refine ⟨acc', ?_, ⟨⟨fun i hi => h.digits_above hacc (by omega) (by omega),
        fun h0 => ?_⟩, hhighest ▸ hacc.inBounds⟩, hvalue, h.negative⟩
      · rw [updateHighestIdxAfterAdd, assertion_of_true asserts _ (decide_eq_true h.inBounds),
          ok_bind, if_neg htop]
        rfl
      · rcases Nat.lt_or_eq_of_le (Nat.le_of_not_lt htop) with hlt | heq
        · rw [Accumulator.digits, h.above _ hlt, hhighest]
          exact hacc.top.ne_zero (hhighest ▸ h0)
        · exact heq ▸ hne
  · refine .inr ⟨hrun, ?_⟩
    have hvalue := h.value
    have hsucc : numAccumulatorWords - 1 + 1 = numAccumulatorWords := by decide
    rw [hsucc, Bool.toNat_true, ← Nat.cast_pow] at hvalue
    omega

/-! ## Subtracting a smaller magnitude -/

variable (acc) in
theorem highestNonzeroIdx_spec {n : ℕ} (h : ∀ i, n < i → acc.digits i = 0) :
    IsTopDigit acc.digits (highestNonzeroIdx acc.words n) ∧ highestNonzeroIdx acc.words n ≤ n := by
  induction n with
  | zero => exact ⟨⟨h, fun h0 => absurd rfl h0⟩, le_rfl⟩
  | succ n ih =>
      rw [highestNonzeroIdx]
      split
      · rename_i hne
        exact ⟨⟨h, fun _ h0 => hne ((acc.words_eq_zero_iff _).mpr h0)⟩, le_rfl⟩
      · rename_i hzero
        have hdigit := (acc.words_eq_zero_iff _).mp (not_not.mp hzero)
        obtain ⟨htop, hle⟩ := ih fun i hi => by
          rcases Nat.lt_or_eq_of_le (Nat.succ_le_of_lt hi) with hlt | rfl
          · exact h i hlt
          · exact hdigit
        exact ⟨htop, by omega⟩

/-- Subtracting an addend that is not greater. -/
theorem accumulate_sub_spec (hacc : acc.Valid) (haddend : addend.Valid)
    (hle : addend.value ≤ acc.magnitude) :
    ∃ acc', accumulateWithoutUnderflow asserts acc addend subInplaceReturnCarry
        (updateHighestIdxAfterSub asserts) = .ok acc' ∧
      acc'.Valid ∧ acc'.magnitude + addend.value = acc.magnitude ∧
      acc'.negative = acc.negative := by
  rcases accumulateWithoutUnderflow_spec asserts subInplaceReturnCarry_wordOp haddend acc
      (updateHighestIdxAfterSub asserts) with ⟨acc', top, hrun, h, hchanged⟩ | ⟨acc', hrun, h⟩
  · rw [hrun]
    obtain ⟨x, hx, hdigit⟩ := hchanged rfl
    have hvalue : acc'.magnitude + addend.value = acc.magnitude := by
      have := h.value
      simp only [Bool.toNat_false] at this
      omega
    have hhighest := h.highestWordIdx
    -- only a word that was not zero can have lost something without a borrow
    have htop : top ≤ acc.highestWordIdx := by
      by_contra hlt
      have hzero := hacc.top.zero_above top (by omega)
      omega
    have hassert := assertion_of_true asserts AccumulatorStop.assertion
      (decide_eq_true (show top ≤ acc'.highestWordIdx by omega))
    by_cases hlt : top < acc'.highestWordIdx
    · refine ⟨acc', ?_, ⟨⟨fun i hi => h.digits_above hacc (by omega) (by omega),
        fun h0 => ?_⟩, hhighest ▸ hacc.inBounds⟩, hvalue, h.negative⟩
      · rw [updateHighestIdxAfterSub, hassert, ok_bind, if_pos hlt]
        rfl
      · rw [Accumulator.digits, h.above _ hlt, hhighest]
        exact hacc.top.ne_zero (hhighest ▸ h0)
    · have heq : top = acc'.highestWordIdx := by omega
      have habove : ∀ i, top < i → acc'.digits i = 0 := fun i hi =>
        h.digits_above hacc hi (by omega)
      have hword := acc'.word_of_lt h.inBounds
      by_cases hne : acc'.words top ≠ 0#64
      · refine ⟨acc', ?_, ⟨⟨heq ▸ habove, fun _ h0 => hne ?_⟩, hhighest ▸ hacc.inBounds⟩, hvalue,
          h.negative⟩
        · rw [updateHighestIdxAfterSub, hassert, ok_bind, if_neg hlt, hword, ok_bind, if_pos hne]
          rfl
        · exact (acc'.words_eq_zero_iff top).mpr (heq ▸ h0)
      · have hzero := (acc'.words_eq_zero_iff top).mp (not_not.mp hne)
        obtain ⟨hspec, hbelow⟩ := highestNonzeroIdx_spec acc' (n := top - 1) fun i hi => by
          rcases Nat.eq_or_lt_of_le (show top ≤ i by omega) with rfl | hlt'
          · exact hzero
          · exact habove i hlt'
        refine ⟨{ acc' with highestWordIdx := highestNonzeroIdx acc'.words (top - 1) }, ?_,
          ⟨hspec, ?_⟩, hvalue, h.negative⟩
        · rw [updateHighestIdxAfterSub, hassert, ok_bind, if_neg hlt, hword, ok_bind, if_neg hne]
          rfl
        · have hin := h.inBounds
          exact hbelow.trans_lt (by omega)
  · -- a borrow out of the last word contradicts the comparison
    have hvalue := h.value
    have hlt := acc'.magnitude_lt
    have hsucc : numAccumulatorWords - 1 + 1 = numAccumulatorWords := by decide
    rw [hsucc, Bool.toNat_true, ← Nat.cast_pow] at hvalue
    omega

end Udipe

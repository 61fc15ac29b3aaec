import Udipe.Lib.Checked
import Udipe.Lib.Loops
import Mathlib.Data.BitVec
import Mathlib.Logic.Function.Basic

/-!
# The fixed-point accumulator of `binary64` numbers

Reference: `benchmark/numeric.h`, `benchmark/numeric.c`, `bits.h`.

A `double` is its bit pattern. The words of the accumulator are a function on indices, with a check in
place of an access outside of the array. The assertions are compiled in only when `asserts`.
-/

namespace Udipe

open Function Checked

/-- The ways in which the accumulator stops the process. -/
inductive AccumulatorStop where
  | assertion
  /-- An access past the end of `words`. -/
  | outOfBounds
  | exitWithError (message : String)
deriving DecidableEq, Repr

abbrev AccumulatorResult := Except AccumulatorStop

/-! ## Representation of `binary64` numbers -/

/-- `DIV_CEIL`. -/
def divCeil (num denom : ℕ) : ℕ := num / denom + (if num % denom ≠ 0 then 1 else 0)

/-- `FRACTION_BITS_F64`. -/
def fractionBitsF64 : ℕ := 52

/-- `FRACTION_MASK_F64`. -/
def fractionMaskF64 : BitVec 64 := (1#64 <<< fractionBitsF64) - 1#64

/-- `SIGNIFICAND_BITS_F64`. -/
def significandBitsF64 : ℕ := fractionBitsF64 + 1

/-- `SIGNIFICAND_MASK_F64`. -/
def significandMaskF64 : BitVec 64 := (1#64 <<< significandBitsF64) - 1#64

/-- `EXPONENT_SHIFT_F64`. -/
def exponentShiftF64 : ℕ := fractionBitsF64

/-- `EXPONENT_BITS_F64`. -/
def exponentBitsF64 : ℕ := 11

/-- `EXPONENT_MASK_F64`. -/
def exponentMaskF64 : BitVec 64 := ((1#64 <<< exponentBitsF64) - 1#64) <<< exponentShiftF64

/-- `RAW_SUBNORMAL_EXPONENT_F64`. -/
def rawSubnormalExponentF64 : BitVec 64 := 0#64

/-- `RAW_NONFINITE_EXPONENT_F64`. -/
def rawNonfiniteExponentF64 : BitVec 64 := exponentMaskF64

/-- `NUM_FINITE_EXPONENTS_F64`. -/
def numFiniteExponentsF64 : ℕ := 2 ^ exponentBitsF64 - 2

/-- `SIGN_BIT_F64`. -/
def signBitF64 : BitVec 64 := 1#64 <<< (exponentShiftF64 + exponentBitsF64)

/-! ## Carries -/

/-- `add_with_carry_u64`: the sum and the carry. -/
def addWithCarryU64 (carry : Bool) (augend addend : BitVec 64) : BitVec 64 × Bool :=
  let newAddend := addend + BitVec.ofNat 64 carry.toNat
  let incCarry := decide (newAddend < addend)
  let sum := augend + newAddend
  let addCarry := decide (sum < augend)
  (sum, incCarry || addCarry)

/-- `subtract_with_carry_u64`: the difference and the borrow. -/
def subtractWithCarryU64 (carry : Bool) (minuend subtrahend : BitVec 64) : BitVec 64 × Bool :=
  let newSubtrahend := subtrahend + BitVec.ofNat 64 carry.toNat
  let incCarry := decide (newSubtrahend < subtrahend)
  let difference := minuend - newSubtrahend
  let subCarry := decide (minuend < difference)
  (difference, incCarry || subCarry)

/-- `add_inplace_return_carry`. -/
def addInplaceReturnCarry (accWord addend : BitVec 64) : BitVec 64 × Bool :=
  addWithCarryU64 false accWord addend

/-- `sub_inplace_return_carry`. -/
def subInplaceReturnCarry (accWord subtrahend : BitVec 64) : BitVec 64 × Bool :=
  subtractWithCarryU64 false accWord subtrahend

/-! ## The accumulator and its addends -/

/-- `MIN_ACCUMULATOR_BITS`. -/
def minAccumulatorBits : ℕ := significandBitsF64 + numFiniteExponentsF64 - 1

/-- `BITS_PER_ACC_WORD`. -/
def bitsPerAccWord : ℕ := 64

/-- `NUM_ACCUMULATOR_WORDS`. -/
def numAccumulatorWords : ℕ := divCeil minAccumulatorBits bitsPerAccWord

/-- `accumulator_t`. -/
structure Accumulator where
  words : ℕ → BitVec 64
  highestWordIdx : ℕ
  negative : Bool

namespace Accumulator

/-- `ACCUMULATOR_ZERO`. -/
def zero : Accumulator := ⟨fun _ => 0#64, 0, false⟩

/-- `acc->words[idx]`. -/
def word (acc : Accumulator) (idx : ℕ) : AccumulatorResult (BitVec 64) := do
  ensure (decide (idx < numAccumulatorWords)) .outOfBounds
  pure (acc.words idx)

theorem word_of_lt (acc : Accumulator) {idx : ℕ} (h : idx < numAccumulatorWords) :
    acc.word idx = .ok (acc.words idx) := by
  rw [word, ensure_of_true _ (decide_eq_true h)]
  rfl

/-- `accumulate_return_carry(&acc->words[idx], contribution)`. -/
def accumulateAt (acc : Accumulator)
    (accumulateReturnCarry : BitVec 64 → BitVec 64 → BitVec 64 × Bool) (idx : ℕ)
    (contribution : BitVec 64) : AccumulatorResult (Accumulator × Bool) := do
  let accWord ← acc.word idx
  let (accWord, carry) := accumulateReturnCarry accWord contribution
  pure ({ acc with words := update acc.words idx accWord }, carry)

end Accumulator

/-- `unsigned_addend_t`. -/
structure UnsignedAddend where
  lowWord : BitVec 64
  highWord : BitVec 64
  lowWordIdx : ℕ

/-- `compute_unsigned_addend`. -/
def computeUnsignedAddend (asserts : Bool) (significand : BitVec 64) (zeroBasedExponent : ℕ) :
    AccumulatorResult UnsignedAddend := do
  assertion asserts (decide (significand &&& significandMaskF64 = significand)) .assertion
  assertion asserts (decide (zeroBasedExponent < numFiniteExponentsF64)) .assertion
  let lowWordIdx := zeroBasedExponent / bitsPerAccWord
  assertion asserts (decide (lowWordIdx < numAccumulatorWords)) .assertion
  let lowBitIdx := zeroBasedExponent % bitsPerAccWord
  let lowAddend := significand <<< lowBitIdx
  let highAddend := if lowBitIdx ≠ 0 then significand >>> (bitsPerAccWord - lowBitIdx) else 0#64
  pure { lowWord := lowAddend, highWord := highAddend, lowWordIdx := lowWordIdx }

/-! ## Adding and subtracting magnitudes -/

/-- The message of the first exit of `accumulate_without_underflow`. -/
def addOverflowMessage : String :=
  "Encountered an accumulator_t add overflow. You can avoid this by normalizing inputs."

/-- The message of its second exit. -/
def carryOverflowMessage : String :=
  "Carry propagation caused accumulator overflow! You can avoid this by normalizing inputs."

/-- The loop `while (carry)`, where `carry_idx` is the index after `highestModifiedIdx` and `wordsLeft`
is the number of words from there on. -/
def propagateCarry (accumulateReturnCarry : BitVec 64 → BitVec 64 → BitVec 64 × Bool) :
    (wordsLeft : ℕ) → Accumulator → (carry : Bool) → (highestModifiedIdx : ℕ) →
      AccumulatorResult (Accumulator × ℕ)
  | _, acc, false, highestModifiedIdx => pure (acc, highestModifiedIdx)
  | 0, _, true, _ => .error (.exitWithError carryOverflowMessage)
  | wordsLeft + 1, acc, true, highestModifiedIdx => do
      let carryIdx := highestModifiedIdx + 1
      let (acc, carry) ← acc.accumulateAt accumulateReturnCarry carryIdx 1#64
      propagateCarry accumulateReturnCarry wordsLeft acc carry carryIdx

/-- The part of `accumulate_without_underflow` that adds the high word, with the carry of the low word
merged into it. Answers the accumulator, the carry and `highest_modified_idx`. -/
def accumulateHighWord (asserts : Bool) (acc : Accumulator) (highWord : BitVec 64) (lowWordIdx : ℕ)
    (accumulateReturnCarry : BitVec 64 → BitVec 64 → BitVec 64 × Bool) :
    AccumulatorResult (Accumulator × Bool × ℕ) :=
  let carry := false
  let highWordIdx := lowWordIdx + 1
  if highWord ≠ 0#64 then do
    if numAccumulatorWords ≤ highWordIdx then
      assertion asserts (carry && decide (highWord = 1#64)) .assertion
      .error (.exitWithError addOverflowMessage)
    let (acc, carry) ← acc.accumulateAt accumulateReturnCarry highWordIdx highWord
    pure (acc, carry, highWordIdx)
  else pure (acc, carry, lowWordIdx)

/-- `accumulate_without_underflow`. -/
def accumulateWithoutUnderflow (asserts : Bool) (acc : Accumulator) (magnitude : UnsignedAddend)
    (accumulateReturnCarry : BitVec 64 → BitVec 64 → BitVec 64 × Bool)
    (updateHighestIdx : Accumulator → ℕ → AccumulatorResult Accumulator) :
    AccumulatorResult Accumulator := do
  let lowWordIdx := magnitude.lowWordIdx
  assertion asserts (decide (lowWordIdx < numAccumulatorWords)) .assertion
  let (acc, carry) ← acc.accumulateAt accumulateReturnCarry lowWordIdx magnitude.lowWord
  let highWord := magnitude.highWord + BitVec.ofNat 64 carry.toNat
  assertion asserts (decide (magnitude.highWord ≤ highWord)) .assertion
  let (acc, carry, highestModifiedIdx) ←
    accumulateHighWord asserts acc highWord lowWordIdx accumulateReturnCarry
  let (acc, highestModifiedIdx) ←
    propagateCarry accumulateReturnCarry (numAccumulatorWords - (highestModifiedIdx + 1)) acc carry
      highestModifiedIdx
  updateHighestIdx acc highestModifiedIdx

/-- `update_highest_idx_after_add`. -/
def updateHighestIdxAfterAdd (asserts : Bool) (acc : Accumulator) (highestModifiedIdx : ℕ) :
    AccumulatorResult Accumulator := do
  assertion asserts (decide (highestModifiedIdx < numAccumulatorWords)) .assertion
  if acc.highestWordIdx < highestModifiedIdx then
    assertion asserts (decide (acc.words highestModifiedIdx ≠ 0#64)) .assertion
    pure { acc with highestWordIdx := highestModifiedIdx }
  else pure acc

/-- The loop of `update_highest_idx_after_sub` and what follows it, with `word_idx` going down to 1. -/
def highestNonzeroIdx (words : ℕ → BitVec 64) : (wordIdx : ℕ) → ℕ
  | 0 => 0
  | wordIdx + 1 =>
      if words (wordIdx + 1) ≠ 0#64 then wordIdx + 1 else highestNonzeroIdx words wordIdx

/-- `update_highest_idx_after_sub`. -/
def updateHighestIdxAfterSub (asserts : Bool) (acc : Accumulator) (highestModifiedIdx : ℕ) :
    AccumulatorResult Accumulator := do
  assertion asserts (decide (highestModifiedIdx ≤ acc.highestWordIdx)) .assertion
  if highestModifiedIdx < acc.highestWordIdx then pure acc
  else
    let accWord ← acc.word highestModifiedIdx
    if accWord ≠ 0#64 then pure acc
    else pure { acc with highestWordIdx := highestNonzeroIdx acc.words (highestModifiedIdx - 1) }

/-- `accumulator_lt_nonzero_subtrahend`. -/
def accumulatorLtNonzeroSubtrahend (asserts : Bool) (acc : Accumulator)
    (subtrahend : UnsignedAddend) : AccumulatorResult Bool := do
  let subtrahendLowWord := subtrahend.lowWord
  let subtrahendHighWord := subtrahend.highWord
  let subtrahendHighWordIdx := subtrahend.lowWordIdx + 1
  if subtrahendHighWordIdx < acc.highestWordIdx then pure false
  else if acc.highestWordIdx < subtrahend.lowWordIdx then
    assertion asserts (decide (subtrahendLowWord ||| subtrahendHighWord ≠ 0#64)) .assertion
    pure true
  else
    assertion asserts
      (decide (acc.highestWordIdx = subtrahend.lowWordIdx) ||
        decide (acc.highestWordIdx = subtrahendHighWordIdx)) .assertion
    let accHighWord ← acc.word acc.highestWordIdx
    if acc.highestWordIdx = subtrahend.lowWordIdx then
      if subtrahendHighWord ≠ 0#64 then pure true
      else pure (decide (accHighWord < subtrahendLowWord))
    else
      assertion asserts (decide (acc.highestWordIdx = subtrahendHighWordIdx)) .assertion
      assertion asserts (decide (0 < acc.highestWordIdx)) .assertion
      let accLowWord ← acc.word (acc.highestWordIdx - 1)
      if subtrahendHighWord < accHighWord then pure false
      else if accHighWord < subtrahendHighWord then pure true
      else
        assertion asserts (decide (accHighWord = subtrahendHighWord)) .assertion
        pure (decide (accLowWord < subtrahendLowWord))

/-- `assert(accumulator_lt_nonzero_subtrahend(acc, subtrahend))`. -/
def assertLtNonzeroSubtrahend (asserts : Bool) (acc : Accumulator) (subtrahend : UnsignedAddend) :
    AccumulatorResult Unit :=
  if asserts then do
    let lt ← accumulatorLtNonzeroSubtrahend asserts acc subtrahend
    ensure lt .assertion
  else pure ()

/-- The state of the loop of `accumulator_subtract_with_underflow`. -/
structure UnderflowLoop where
  words : ℕ → BitVec 64
  carry : Bool
  highestWordIdx : ℕ

/-- The word of the minuend at `wordIdx`, in the loop of `accumulator_subtract_with_underflow`. -/
def UnsignedAddend.wordAt (minuend : UnsignedAddend) (wordIdx : ℕ) : BitVec 64 :=
  if wordIdx < minuend.lowWordIdx then 0#64
  else if wordIdx - minuend.lowWordIdx = 0 then minuend.lowWord else minuend.highWord

/-- The body of the loop of `accumulator_subtract_with_underflow`. -/
def underflowLoopBody (minuend : UnsignedAddend) (s : UnderflowLoop) (wordIdx : ℕ) : UnderflowLoop :=
  let minuendWord := minuend.wordAt wordIdx
  let accWord := s.words wordIdx
  let (difference, carry) := subtractWithCarryU64 s.carry minuendWord accWord
  { words := update s.words wordIdx difference
    carry := carry
    highestWordIdx := if difference ≠ 0#64 then wordIdx else s.highestWordIdx }

/-- `accumulator_subtract_with_underflow`. The loop accesses every word up to `minuend_highest_idx`. -/
def accumulatorSubtractWithUnderflow (asserts : Bool) (acc : Accumulator)
    (subtrahend : UnsignedAddend) : AccumulatorResult Accumulator := do
  assertion asserts (decide (subtrahend.lowWord ||| subtrahend.highWord ≠ 0#64)) .assertion
  assertLtNonzeroSubtrahend asserts acc subtrahend
  assertion asserts (decide (subtrahend.lowWordIdx < numAccumulatorWords)) .assertion
  let minuendHighestIdx := subtrahend.lowWordIdx + (if subtrahend.highWord ≠ 0#64 then 1 else 0)
  assertion asserts (decide (acc.highestWordIdx ≤ minuendHighestIdx)) .assertion
  ensure (decide (minuendHighestIdx < numAccumulatorWords)) .outOfBounds
  let s :=
    forRange 0 (minuendHighestIdx + 1) ⟨acc.words, false, 0⟩ (underflowLoopBody subtrahend)
  assertion asserts (!s.carry) .assertion
  pure { words := s.words, highestWordIdx := s.highestWordIdx, negative := !acc.negative }

/-! ## Adding numbers -/

/-- `accumulate_decoded_f64`. -/
def accumulateDecodedF64 (asserts : Bool) (acc : Accumulator) (significand : BitVec 64)
    (zeroBasedExponent : ℕ) (negative : Bool) : AccumulatorResult Accumulator := do
  assertion asserts (decide (significand &&& significandMaskF64 = significand)) .assertion
  assertion asserts (decide (zeroBasedExponent < numFiniteExponentsF64)) .assertion
  if significand = 0#64 then pure acc
  else
    let magnitude ← computeUnsignedAddend asserts significand zeroBasedExponent
    if negative = acc.negative then
      accumulateWithoutUnderflow asserts acc magnitude addInplaceReturnCarry
        (updateHighestIdxAfterAdd asserts)
    else
      let lt ← accumulatorLtNonzeroSubtrahend asserts acc magnitude
      if lt then accumulatorSubtractWithUnderflow asserts acc magnitude
      else
        accumulateWithoutUnderflow asserts acc magnitude subInplaceReturnCarry
          (updateHighestIdxAfterSub asserts)

/-- The message of the exit of `accumulator_add_f64`. -/
def nonfiniteMessage : String := "accumulator_t does not support infinities and NaNs"

/-- `accumulator_add_f64`, where `valueBits` is the bit pattern of the value. -/
def accumulatorAddF64 (asserts : Bool) (acc : Accumulator) (valueBits : BitVec 64) :
    AccumulatorResult Accumulator :=
  let fraction := valueBits &&& fractionMaskF64
  let rawExponent := valueBits &&& exponentMaskF64
  let negative := decide (valueBits &&& signBitF64 ≠ 0#64)
  if rawExponent = rawSubnormalExponentF64 then
    accumulateDecodedF64 asserts acc fraction 0 negative
  else if rawExponent = rawNonfiniteExponentF64 then .error (.exitWithError nonfiniteMessage)
  else
    let significand := fraction ||| (1#64 <<< fractionBitsF64)
    let zeroBasedExponent := (rawExponent >>> exponentShiftF64).toNat - 1
    accumulateDecodedF64 asserts acc significand zeroBasedExponent negative

/-- The loop of `sum_f64`, from a given accumulator. -/
def accumulateAll (asserts : Bool) (acc : Accumulator) (values : List (BitVec 64)) :
    AccumulatorResult Accumulator :=
  values.foldlM (accumulatorAddF64 asserts) acc

end Udipe

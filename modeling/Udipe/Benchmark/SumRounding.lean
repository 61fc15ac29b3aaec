import Udipe.Benchmark.Doubles
import Udipe.Benchmark.ExactSum
import Udipe.Lib.WordSum

/-!
# The rounding of sums

Reference: `benchmark/numeric.c`.

`sum_f64` adds exactly, and `accumulator_to_f64` rounds the sum once for each word. The result is
still one of the two numbers next to the exact sum.
-/

namespace Udipe

open Checked FloatFormat

variable {acc : Accumulator} {values : List (BitVec 64)}

/-! ## From the accumulator back to a `double` -/

/-- `SUBNORMAL_EXPONENT_BIAS_F64`. -/
def subnormalExponentBiasF64 : ℕ := 2 ^ (exponentBitsF64 - 1) - 1 - 1

/-- The exponent of the lowest bit of an accumulator. -/
def accumulatorExponent : ℤ := -(fractionBitsF64 + subnormalExponentBiasF64 : ℕ)

/-- The variables of the loop of `accumulator_to_f64`. -/
structure ToF64Loop where
  result : Double
  exponent : ℤ

/-- One round of this loop. -/
def toF64Round (acc : Accumulator) (s : ToF64Loop) (wordIdx : ℕ) : AccumulatorResult ToF64Loop := do
  let sign : Double := .finite (if acc.negative then -1 else 1)
  let word ← acc.word wordIdx
  let contribution := sign.mul ((Double.ofU64 word).scalbn s.exponent)
  pure ⟨s.result.add contribution, s.exponent + bitsPerAccWord⟩

/-- `accumulator_to_f64`. -/
def accumulatorToF64 (acc : Accumulator) : AccumulatorResult Double := do
  let s ← forRangeE 0 (acc.highestWordIdx + 1) ⟨.finite 0, accumulatorExponent⟩ (toF64Round acc)
  pure s.result

/-- `sum_f64`. -/
def sumF64 (asserts : Bool) (values : List (BitVec 64)) : AccumulatorResult Double := do
  let acc ← accumulateAll asserts .zero values
  accumulatorToF64 acc

/-- The magnitude that the first `n` words are rounded to. -/
def Accumulator.roundedMagnitude (acc : Accumulator) (n : ℕ) : ℚ :=
  binary64.wordSum accumulatorExponent bitsPerAccWord acc.digits n

theorem Accumulator.faithful_roundedMagnitude (acc : Accumulator) (n : ℕ) :
    binary64.Faithful (acc.roundedMagnitude n)
      (positional (2 ^ 64) acc.digits n * 2 ^ accumulatorExponent) :=
  faithful_wordSum (by decide) (by decide) acc.digits_lt n

theorem Accumulator.roundedMagnitude_nonneg (acc : Accumulator) (n : ℕ) :
    0 ≤ acc.roundedMagnitude n :=
  (acc.faithful_roundedMagnitude n).nonneg (by positivity)

/-- With the sign of the accumulator. -/
def Accumulator.signed (acc : Accumulator) (x : ℚ) : ℚ := if acc.negative then -x else x

/-- The loop computes the rounded sum of the words, with the sign of the accumulator. -/
theorem toF64Round_spec {n : ℕ} (hn : n < numAccumulatorWords) {s : ToF64Loop}
    (hresult : s.result = .ofRounded (acc.signed (acc.roundedMagnitude n)))
    (hexponent : s.exponent = accumulatorExponent + bitsPerAccWord * n) :
    ∃ s', toF64Round acc s n = .ok s' ∧
      s'.result = .ofRounded (acc.signed (acc.roundedMagnitude (n + 1))) ∧
      s'.exponent = accumulatorExponent + bitsPerAccWord * (n + 1 : ℕ) := by
  have hscaled : (Double.ofU64 (acc.words n)).scalbn s.exponent
      = .ofRounded (binary64.round (acc.digits n * 2 ^ s.exponent)) := by
    refine Double.scalbn_ofU64 _ ?_
    rw [hexponent]
    exact Int.le_add_of_nonneg_right (by positivity)
  have hc := representable_round (F := binary64) (acc.digits n * 2 ^ s.exponent)
  have hc0 : 0 ≤ binary64.round (acc.digits n * 2 ^ s.exponent) := round_nonneg (by positivity)
  have hr := (acc.faithful_roundedMagnitude n).representable
  have hr0 := acc.roundedMagnitude_nonneg n
  have hnext : acc.roundedMagnitude (n + 1) = binary64.round (acc.roundedMagnitude n
      + binary64.round (acc.digits n * 2 ^ s.exponent)) := by
    rw [Accumulator.roundedMagnitude, wordSum, hexponent, add_comm]
    rfl
  have hadd := Double.add_ofRounded hr hc hr0 hc0
  refine ⟨_, by rw [toF64Round, acc.word_of_lt hn, ok_bind]; rfl, ?_, ?_⟩
  · simp only [hresult, hscaled, hnext, Accumulator.signed]
    cases acc.negative with
    | false =>
        simp only [Bool.false_eq_true, if_false]
        rw [Double.one_mul_ofRounded hc, hadd]
    | true =>
        simp only [if_true]
        rw [Double.neg_one_mul_ofRounded hc, Double.ofRounded_neg, Double.ofRounded_neg,
          Double.neg_add_neg, hadd]
  · simp only [hexponent]
    push_cast
    ring

theorem accumulatorToF64_spec (hvalid : acc.Valid) :
    accumulatorToF64 acc
      = .ok (.ofRounded (acc.signed (acc.roundedMagnitude (acc.highestWordIdx + 1)))) := by
  have hinit : Double.ofRounded (acc.signed (acc.roundedMagnitude 0)) = .finite 0 := by
    have hzero : acc.signed (acc.roundedMagnitude 0) = 0 := by
      simp [Accumulator.roundedMagnitude, wordSum, Accumulator.signed]
    rw [hzero]
    exact Double.ofRounded_of_lt (by rw [abs_zero]; positivity)
  have hends := ends_forRangeE_induction (F := fun _ => False) 0 (acc.highestWordIdx + 1)
    ⟨.finite 0, accumulatorExponent⟩ (toF64Round acc)
    (fun n s => s.result = .ofRounded (acc.signed (acc.roundedMagnitude n)) ∧
      s.exponent = accumulatorExponent + bitsPerAccWord * n)
    ⟨hinit.symm, by simp⟩
    (fun i s _ hi hs => by
      have hin := hvalid.inBounds
      obtain ⟨s', hs', hspec⟩ := toF64Round_spec (show i < numAccumulatorWords by omega) hs.1 hs.2
      rw [hs']
      exact hspec)
  obtain ⟨s, hrun, hresult, -⟩ := hends.exists_ok
  rw [accumulatorToF64, hrun, ok_bind, hresult, Nat.zero_add]
  rfl

/-! ## The sum -/

/-- What a finite `double` stands for. -/
def Binary64.value (bits : BitVec 64) : ℚ := Binary64.units bits * 2 ^ accumulatorExponent

theorem sum_value (values : List (BitVec 64)) : (values.map Binary64.value).sum
    = ((values.map Binary64.units).sum : ℤ) * 2 ^ accumulatorExponent := by
  induction values with
  | nil => simp
  | cons v values ih =>
      rw [List.map_cons, List.sum_cons, List.map_cons, List.sum_cons, ih, Binary64.value]
      push_cast
      ring

/-- Numbers whose magnitudes add up to less than an infinity take no exit. -/
theorem not_takesOverflowExit (asserts : Bool) (hfinite : ∀ v ∈ values, Binary64.Finite v)
    (hsum : (values.map fun v => |Binary64.value v|).sum < 2 ^ 1024) :
    ¬ TakesOverflowExit (accumulateAll asserts .zero values) := by
  rw [takesOverflowExit_iff asserts hfinite]
  rintro ⟨n, -, hexceeds⟩
  have htake : |((values.take n).map Binary64.value).sum| < 2 ^ 1024 := by
    refine lt_of_le_of_lt ?_ hsum
    calc |((values.take n).map Binary64.value).sum|
        ≤ ((values.take n).map fun v => |Binary64.value v|).sum := by
          have hle := Multiset.abs_sum_le_sum_abs
            (s := (((values.take n).map Binary64.value : List ℚ) : Multiset ℚ))
          rwa [Multiset.sum_coe, Multiset.map_coe, Multiset.sum_coe, List.map_map] at hle
      _ ≤ (values.map fun v => |Binary64.value v|).sum := by
          refine ((List.take_sublist n values).map _).sum_le_sum fun x hx => ?_
          obtain ⟨v, -, rfl⟩ := List.mem_map.mp hx
          exact abs_nonneg _
  have hpow : (0 : ℚ) < 2 ^ accumulatorExponent := zpow_pos two_pos _
  have hunits : (((2 ^ 64) ^ numAccumulatorWords : ℕ) : ℚ) * 2 ^ accumulatorExponent
      ≤ |((values.take n).map Binary64.value).sum| := by
    rw [sum_value, abs_mul, abs_of_pos hpow, ← Int.cast_abs, ← Nat.cast_natAbs]
    exact mul_le_mul_of_nonneg_right (Nat.cast_le.mpr hexceeds) hpow.le
  have hlarge : (2 : ℚ) ^ 1024
      ≤ (((2 ^ 64) ^ numAccumulatorWords : ℕ) : ℚ) * 2 ^ accumulatorExponent := by
    rw [← pow_mul, Nat.cast_pow, Nat.cast_ofNat, ← zpow_natCast, ← zpow_natCast,
      ← zpow_add₀ two_ne_zero]
    exact zpow_le_zpow_right₀ one_le_two (by decide)
  exact absurd htake (not_lt.mpr (hlarge.trans hunits))

/-- A valid accumulator is rounded to one of the numbers next to what it stands for. -/
theorem Accumulator.Valid.faithful (hvalid : acc.Valid) :
    binary64.Faithful (acc.signed (acc.roundedMagnitude (acc.highestWordIdx + 1)))
      (acc.total * 2 ^ accumulatorExponent) := by
  have hmagnitude : acc.magnitude = positional (2 ^ 64) acc.digits (acc.highestWordIdx + 1) := by
    rw [acc.magnitude_eq_positional, hvalid.top.value_eq hvalid.inBounds]
  have hfaithful := acc.faithful_roundedMagnitude (acc.highestWordIdx + 1)
  rw [← hmagnitude] at hfaithful
  rw [Accumulator.total, Accumulator.signed, signedMagnitude]
  cases acc.negative with
  | false =>
      rw [if_neg Bool.false_ne_true, if_neg Bool.false_ne_true, Int.cast_natCast]
      exact hfaithful
  | true =>
      rw [if_pos rfl, if_pos rfl, Int.cast_neg, Int.cast_natCast, neg_mul]
      exact hfaithful.neg

/-- Accumulators that stand for one number are rounded to one number. -/
theorem Accumulator.Valid.signed_eq_of_total {acc' : Accumulator} (hvalid : acc.Valid)
    (hvalid' : acc'.Valid) (htotal : acc'.total = acc.total) :
    acc'.signed (acc'.roundedMagnitude (acc'.highestWordIdx + 1))
      = acc.signed (acc.roundedMagnitude (acc.highestWordIdx + 1)) := by
  have hmagnitude : acc'.magnitude = acc.magnitude := by
    rw [← acc'.natAbs_total, ← acc.natAbs_total, htotal]
  obtain ⟨hwords, hidx⟩ := hvalid.eq_of_magnitude hvalid' hmagnitude
  have hdigits : acc'.digits = acc.digits := by
    funext i
    rw [Accumulator.digits, Accumulator.digits, hwords]
  have hrounded : acc'.roundedMagnitude = acc.roundedMagnitude := by
    funext n
    rw [Accumulator.roundedMagnitude, Accumulator.roundedMagnitude, hdigits]
  by_cases hsign : acc'.negative = acc.negative
  · rw [Accumulator.signed, Accumulator.signed, hsign, hrounded, hidx]
  · -- only zero has two signs
    have hzero : acc.total = 0 := by
      have hneg : acc'.total = -acc.total := by
        rw [Accumulator.total, Accumulator.total, hmagnitude, Bool.eq_not_of_ne hsign,
          signedMagnitude_not]
      omega
    have hexact : ∀ acc₁ : Accumulator, acc₁.Valid → acc₁.total = 0 →
        acc₁.signed (acc₁.roundedMagnitude (acc₁.highestWordIdx + 1)) = 0 := by
      intro acc₁ hvalid₁ htotal₁
      have hfaithful := hvalid₁.faithful
      rw [htotal₁, Int.cast_zero, zero_mul] at hfaithful
      exact hfaithful.eq_of_representable representable_zero
    rw [hexact acc hvalid hzero, hexact acc' hvalid' (htotal.trans hzero)]

/-- Without an overflow exit, `sum_f64` returns one of the two numbers next to the exact sum, the sum
itself when it is a `double`, and the same number for every order of the values. -/
theorem sumF64_faithful (asserts : Bool) (values : List (BitVec 64))
    (hfinite : ∀ v ∈ values, Binary64.Finite v)
    (hexit : ¬ TakesOverflowExit (accumulateAll asserts .zero values)) :
    ∃ r, sumF64 asserts values = .ok (.ofRounded r) ∧
      binary64.Faithful r (values.map Binary64.value).sum ∧
      (binary64.Representable (values.map Binary64.value).sum →
        |(values.map Binary64.value).sum| < 2 ^ 1024 →
        sumF64 asserts values = .ok (.finite (values.map Binary64.value).sum)) ∧
      ∀ values', values'.Perm values →
        ¬ TakesOverflowExit (accumulateAll asserts .zero values') →
        sumF64 asserts values' = sumF64 asserts values := by
  have hreturns : ∀ values : List (BitVec 64), (∀ v ∈ values, Binary64.Finite v) →
      ¬ TakesOverflowExit (accumulateAll asserts .zero values) →
      ∃ acc : Accumulator, acc.Valid ∧ acc.total = (values.map Binary64.units).sum ∧
        sumF64 asserts values
          = .ok (.ofRounded (acc.signed (acc.roundedMagnitude (acc.highestWordIdx + 1)))) := by
    intro values hfinite hexit
    rcases accumulateAll_spec asserts Accumulator.valid_zero hfinite with
      ⟨acc, hrun, hvalid, htotal, -⟩ | ⟨hrun, -⟩
    · refine ⟨acc, hvalid, by rw [htotal, Accumulator.total_zero, zero_add], ?_⟩
      rw [sumF64, hrun, ok_bind, accumulatorToF64_spec hvalid]
    · exact absurd ⟨carryOverflowMessage, by simp, hrun⟩ hexit
  obtain ⟨acc, hvalid, htotal, hrun⟩ := hreturns values hfinite hexit
  have hfaithful := hvalid.faithful
  rw [htotal, ← sum_value] at hfaithful
  refine ⟨_, hrun, hfaithful, fun hrep hlt => ?_, fun values' hperm hexit' => ?_⟩
  · rw [hrun, hfaithful.eq_of_representable hrep, Double.ofRounded_of_lt hlt]
  · obtain ⟨acc', hvalid', htotal', hrun'⟩ :=
      hreturns values' (fun v hv => hfinite v (hperm.mem_iff.mp hv)) hexit'
    have hsum : acc'.total = acc.total := by
      rw [htotal', htotal]
      exact (hperm.map _).sum_eq
    rw [hrun, hrun', hvalid.signed_eq_of_total hvalid' hsum]

/-- The smallest subnormal number survives the cancelation of 1.0 and -1.0. -/
theorem sumF64_faithful_cancels :
    sumF64 true [0x3FF0000000000000#64, 0x0000000000000001#64, 0xBFF0000000000000#64]
      = .ok (.finite (2 ^ accumulatorExponent)) := by
  have hok : (accumulateAll true .zero
      [0x3FF0000000000000#64, 0x0000000000000001#64, 0xBFF0000000000000#64]).toBool = true := by
    decide +kernel
  have hexit : ¬ TakesOverflowExit (accumulateAll true .zero
      [0x3FF0000000000000#64, 0x0000000000000001#64, 0xBFF0000000000000#64]) := by
    rintro ⟨message, -, herror⟩
    rw [herror] at hok
    exact absurd hok Bool.false_ne_true
  have hfinite : ∀ v ∈ [0x3FF0000000000000#64, 0x0000000000000001#64, 0xBFF0000000000000#64],
      Binary64.Finite v := by
    simp only [List.mem_cons, List.not_mem_nil, or_false, forall_eq_or_imp, forall_eq]
    decide
  have hsum : ([0x3FF0000000000000#64, 0x0000000000000001#64, 0xBFF0000000000000#64].map
      Binary64.value).sum = 2 ^ accumulatorExponent := by
    have hunits : ([0x3FF0000000000000#64, 0x0000000000000001#64, 0xBFF0000000000000#64].map
        Binary64.units).sum = 1 := by decide +kernel
    rw [sum_value, hunits, Int.cast_one, one_mul]
  have hsmall : |(2 : ℚ) ^ accumulatorExponent| < 2 ^ 1024 := by
    rw [abs_of_pos (zpow_pos two_pos _), ← zpow_natCast]
    exact zpow_lt_zpow_right₀ one_lt_two (by decide)
  obtain ⟨-, -, -, hexact, -⟩ := sumF64_faithful true _ hfinite hexit
  rw [hsum] at hexact
  exact hexact (representable_zpow (by decide)) hsmall

end Udipe

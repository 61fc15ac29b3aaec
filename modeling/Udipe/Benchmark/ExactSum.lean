import Udipe.Benchmark.Underflow
import Mathlib.Algebra.Order.Group.Abs
import Mathlib.Algebra.BigOperators.Group.List.Basic

/-!
# Sums of `binary64` numbers are exact

The accumulator stands for the sum of the numbers added to it, and stops the process exactly when the
magnitude of a partial sum does not fit in its words. Its contents do not depend on the order.
-/

namespace Udipe

open Checked

variable (asserts : Bool) {acc acc' : Accumulator} {bits : BitVec 64} {values values' : List (BitVec 64)}

/-! ## Signs and magnitudes -/

theorem signedMagnitude_zero (negative : Bool) : signedMagnitude negative 0 = 0 := by
  cases negative <;> rfl

theorem natAbs_signedMagnitude (negative : Bool) (m : ℕ) :
    (signedMagnitude negative m).natAbs = m := by
  cases negative <;> simp [signedMagnitude]

theorem signedMagnitude_add (negative : Bool) (m n : ℕ) :
    signedMagnitude negative (m + n) = signedMagnitude negative m + signedMagnitude negative n := by
  cases negative <;> simp only [signedMagnitude, if_true, Bool.false_eq_true, if_false] <;> omega

theorem signedMagnitude_not (negative : Bool) (m : ℕ) :
    signedMagnitude (!negative) m = -signedMagnitude negative m := by
  cases negative <;> simp [signedMagnitude]

/-- What the accumulator stands for, in units of the smallest subnormal number. -/
def Accumulator.total (acc : Accumulator) : ℤ := signedMagnitude acc.negative acc.magnitude

@[simp] theorem Accumulator.total_zero : Accumulator.zero.total = 0 := by
  have hmagnitude : Accumulator.zero.magnitude = 0 := by
    simp [Accumulator.magnitude, Accumulator.zero]
  rw [Accumulator.total, hmagnitude, signedMagnitude_zero]

theorem Accumulator.natAbs_total (acc : Accumulator) : acc.total.natAbs = acc.magnitude :=
  natAbs_signedMagnitude _ _

/-- A valid accumulator is determined by its magnitude, up to the sign. -/
theorem Accumulator.Valid.eq_of_magnitude (h : acc.Valid) (h' : acc'.Valid)
    (heq : acc'.magnitude = acc.magnitude) :
    acc'.words = acc.words ∧ acc'.highestWordIdx = acc.highestWordIdx := by
  rw [acc.magnitude_eq_positional, acc'.magnitude_eq_positional] at heq
  have hdigits : acc'.digits = acc.digits := by
    funext i
    rcases Nat.lt_or_ge i numAccumulatorWords with hlt | hge
    · exact positional_injective (fun i _ => acc'.digits_lt i) (fun i _ => acc.digits_lt i) heq i hlt
    · have hin := h.inBounds
      have hin' := h'.inBounds
      rw [h.top.zero_above i (by omega), h'.top.zero_above i (by omega)]
  refine ⟨funext fun i => Accumulator.words_eq_of_digits (congrFun hdigits i), ?_⟩
  exact h'.top.unique (hdigits ▸ h.top)

/-! ## One number -/

/-- `result` is the accumulator for `total`, or the exit for a total that has too many words. -/
def AccumulatesTo (result : AccumulatorResult Accumulator) (total : ℤ) : Prop :=
  (∃ acc', result = .ok acc' ∧ acc'.Valid ∧ acc'.total = total) ∨
  (result = .error (.exitWithError carryOverflowMessage) ∧
    (2 ^ 64) ^ numAccumulatorWords ≤ total.natAbs)

theorem accumulateDecodedF64_spec (hacc : acc.Valid) {significand : BitVec 64}
    {zeroBasedExponent : ℕ} (hsignificand : significand.toNat < 2 ^ 53)
    (hexp : zeroBasedExponent < numFiniteExponentsF64) (negative : Bool) :
    AccumulatesTo (accumulateDecodedF64 asserts acc significand zeroBasedExponent negative)
      (acc.total + signedMagnitude negative (significand.toNat * 2 ^ zeroBasedExponent)) := by
  have hmask := significandMaskF64_of_lt hsignificand
  rw [accumulateDecodedF64, assertion_of_true asserts _ (decide_eq_true hmask), ok_bind,
    assertion_of_true asserts _ (decide_eq_true hexp), ok_bind]
  by_cases hzero : significand = 0#64
  · subst hzero
    rw [if_pos rfl]
    refine .inl ⟨acc, rfl, hacc, ?_⟩
    simp [signedMagnitude_zero]
  obtain ⟨addend, hrun, haddend, hvalue⟩ :=
    computeUnsignedAddend_spec asserts hzero hsignificand hexp
  rw [if_neg hzero, hrun, ok_bind, ← hvalue]
  by_cases hsign : negative = acc.negative
  · subst hsign
    rw [if_pos rfl]
    rcases accumulate_add_spec asserts hacc haddend with
      ⟨acc', hadd, hvalid, hmagnitude, hnegative⟩ | ⟨hadd, hoverflow⟩
    · refine .inl ⟨acc', hadd, hvalid, ?_⟩
      rw [Accumulator.total, hnegative, hmagnitude, signedMagnitude_add]
      rfl
    · refine .inr ⟨hadd, ?_⟩
      rwa [Accumulator.total, ← signedMagnitude_add, natAbs_signedMagnitude]
  · have hopposite : acc.negative = !negative := by
      cases negative <;> cases h : acc.negative <;> simp_all
    rw [if_neg hsign, accumulatorLtNonzeroSubtrahend_spec asserts hacc haddend, ok_bind]
    by_cases hlt : acc.magnitude < addend.value
    · obtain ⟨acc', hsub, hvalid, hmagnitude, hnegative⟩ :=
        accumulatorSubtractWithUnderflow_spec asserts hacc haddend hlt
      rw [decide_eq_true hlt, if_pos rfl]
      refine .inl ⟨acc', hsub, hvalid, ?_⟩
      rw [Accumulator.total, Accumulator.total, ← hmagnitude, hnegative, hopposite, Bool.not_not,
        signedMagnitude_add, signedMagnitude_not]
      omega
    · obtain ⟨acc', hsub, hvalid, hmagnitude, hnegative⟩ :=
        accumulate_sub_spec asserts hacc haddend (Nat.le_of_not_lt hlt)
      rw [decide_eq_false hlt, if_neg Bool.false_ne_true]
      refine .inl ⟨acc', hsub, hvalid, ?_⟩
      rw [Accumulator.total, Accumulator.total, ← hmagnitude, hnegative, hopposite,
        signedMagnitude_add, signedMagnitude_not, signedMagnitude_not]
      omega

/-- Adding a finite number adds its value. -/
theorem accumulatorAddF64_spec (hacc : acc.Valid) (hfinite : Binary64.Finite bits) :
    AccumulatesTo (accumulatorAddF64 asserts acc bits) (acc.total + Binary64.units bits) := by
  obtain ⟨significand, zeroBasedExponent, hdecoded, hrun⟩ :=
    accumulatorAddF64_decodes hfinite asserts acc
  rw [hrun, Binary64.units, ← hdecoded.value]
  exact accumulateDecodedF64_spec asserts hacc hdecoded.significand_lt hdecoded.exponent_lt _

/-! ## All numbers -/

/-- The loop of `sum_f64` has gone through one of the two overflow exits. -/
def TakesOverflowExit (result : AccumulatorResult Accumulator) : Prop :=
  ∃ message ∈ [addOverflowMessage, carryOverflowMessage], result = .error (.exitWithError message)

/-- The loop ends with the accumulator for the sum, or takes the exit at a partial sum that is too
large. -/
theorem accumulateAll_spec (hacc : acc.Valid) (hfinite : ∀ v ∈ values, Binary64.Finite v) :
    (∃ acc', accumulateAll asserts acc values = .ok acc' ∧ acc'.Valid ∧
      acc'.total = acc.total + (values.map Binary64.units).sum ∧
      ∀ n ≤ values.length, (acc.total + ((values.take n).map Binary64.units).sum).natAbs
        < (2 ^ 64) ^ numAccumulatorWords) ∨
    (accumulateAll asserts acc values = .error (.exitWithError carryOverflowMessage) ∧
      ∃ n ≤ values.length, (2 ^ 64) ^ numAccumulatorWords
        ≤ (acc.total + ((values.take n).map Binary64.units).sum).natAbs) := by
  induction values generalizing acc with
  | nil =>
      refine .inl ⟨acc, rfl, hacc, by simp, fun n _ => ?_⟩
      simpa [acc.natAbs_total] using acc.magnitude_lt
  | cons v values ih =>
      have hunfold : accumulateAll asserts acc (v :: values)
          = accumulatorAddF64 asserts acc v >>= fun acc' => accumulateAll asserts acc' values := by
        rw [accumulateAll, List.foldlM_cons]
        rfl
      rw [hunfold]
      rcases accumulatorAddF64_spec asserts hacc (hfinite v List.mem_cons_self) with
        ⟨acc₁, hadd, hvalid, htotal⟩ | ⟨hadd, hoverflow⟩
      · rw [hadd, ok_bind]
        -- a prefix of the whole list is empty or starts with `v`
        have htake : ∀ n, acc.total + (((v :: values).take (n + 1)).map Binary64.units).sum
            = acc₁.total + ((values.take n).map Binary64.units).sum := fun n => by
          rw [htotal, List.take_succ_cons, List.map_cons, List.sum_cons]
          ring
        rcases ih hvalid fun v hv => hfinite v (List.mem_cons_of_mem _ hv) with
          ⟨acc', hrun, hvalid', htotal', hfit⟩ | ⟨hrun, n, hn, hexceeds⟩
        · refine .inl ⟨acc', hrun, hvalid', ?_, fun n hn => ?_⟩
          · rw [htotal', htotal, List.map_cons, List.sum_cons]
            ring
          · cases n with
            | zero => simpa [acc.natAbs_total] using acc.magnitude_lt
            | succ n =>
                rw [htake]
                exact hfit n (by simpa using hn)
        · refine .inr ⟨hrun, n + 1, by simpa using hn, ?_⟩
          rwa [htake]
      · refine .inr ⟨by rw [hadd]; rfl, 1, by simp, ?_⟩
        simpa using hoverflow

/-- The overflow exit is taken exactly when the magnitude of a partial sum needs more words than there
are. -/
theorem takesOverflowExit_iff (hfinite : ∀ v ∈ values, Binary64.Finite v) :
    TakesOverflowExit (accumulateAll asserts .zero values) ↔
      ∃ n ≤ values.length, (2 ^ 64) ^ numAccumulatorWords
        ≤ (((values.take n).map Binary64.units).sum).natAbs := by
  rcases accumulateAll_spec asserts Accumulator.valid_zero hfinite with
    ⟨acc', hrun, -, -, hfit⟩ | ⟨hrun, n, hn, hexceeds⟩
  · simp only [Accumulator.total_zero, zero_add] at hfit
    constructor
    · rintro ⟨message, -, herror⟩
      rw [hrun] at herror
      exact nomatch herror
    · rintro ⟨n, hn, hexceeds⟩
      exact absurd (hfit n hn) (Nat.not_lt.mpr hexceeds)
  · simp only [Accumulator.total_zero, zero_add] at hexceeds
    exact ⟨fun _ => ⟨n, hn, hexceeds⟩, fun _ => ⟨carryOverflowMessage, by simp, hrun⟩⟩

/-- Without an overflow exit, the accumulator stands for the exact sum, its top index is the index of
the highest nonzero word, and neither depends on the order of the numbers. -/
theorem accumulator_sum_exact (values : List (BitVec 64))
    (hfinite : ∀ v ∈ values, Binary64.Finite v)
    (hexit : ¬ TakesOverflowExit (accumulateAll asserts .zero values)) :
    ∃ acc, accumulateAll asserts .zero values = .ok acc ∧
      acc.total = (values.map Binary64.units).sum ∧
      acc.Valid ∧
      ∀ values', values'.Perm values →
        ¬ TakesOverflowExit (accumulateAll asserts .zero values') →
        ∃ acc', accumulateAll asserts .zero values' = .ok acc' ∧
          acc'.magnitude = acc.magnitude ∧ acc'.words = acc.words ∧
          acc'.highestWordIdx = acc.highestWordIdx := by
  have hreturns : ∀ values : List (BitVec 64), (∀ v ∈ values, Binary64.Finite v) →
      ¬ TakesOverflowExit (accumulateAll asserts .zero values) →
      ∃ acc, accumulateAll asserts .zero values = .ok acc ∧ acc.Valid ∧
        acc.total = (values.map Binary64.units).sum := by
    intro values hfinite hexit
    rcases accumulateAll_spec asserts Accumulator.valid_zero hfinite with
      ⟨acc, hrun, hvalid, htotal, -⟩ | ⟨hrun, -⟩
    · exact ⟨acc, hrun, hvalid, by rw [htotal, Accumulator.total_zero, zero_add]⟩
    · exact absurd ⟨carryOverflowMessage, by simp, hrun⟩ hexit
  obtain ⟨acc, hrun, hvalid, htotal⟩ := hreturns values hfinite hexit
  refine ⟨acc, hrun, htotal, hvalid, fun values' hperm hexit' => ?_⟩
  obtain ⟨acc', hrun', hvalid', htotal'⟩ :=
    hreturns values' (fun v hv => hfinite v (hperm.mem_iff.mp hv)) hexit'
  have hsum : acc'.total = acc.total := by
    rw [htotal', htotal]
    exact (hperm.map _).sum_eq
  have hmagnitude : acc'.magnitude = acc.magnitude := by
    rw [← acc'.natAbs_total, ← acc.natAbs_total, hsum]
  exact ⟨acc', hrun', hmagnitude, hvalid.eq_of_magnitude hvalid' hmagnitude⟩

/-- Adding 1.0, the smallest subnormal number and -1.0 leaves the subnormal number. -/
theorem accumulator_sum_exact_cancels :
    ∃ acc, accumulateAll true .zero
        [0x3FF0000000000000#64, 0x0000000000000001#64, 0xBFF0000000000000#64] = .ok acc ∧
      acc.total = 1 ∧ acc.Valid := by
  have hok : (accumulateAll true .zero
      [0x3FF0000000000000#64, 0x0000000000000001#64, 0xBFF0000000000000#64]).toBool = true := by
    decide +kernel
  have hexit : ¬ TakesOverflowExit (accumulateAll true .zero
      [0x3FF0000000000000#64, 0x0000000000000001#64, 0xBFF0000000000000#64]) := by
    rintro ⟨message, -, herror⟩
    rw [herror] at hok
    exact absurd hok Bool.false_ne_true
  have hfinite : ∀ v ∈ [0x3FF0000000000000#64, 0x0000000000000001#64, 0xBFF0000000000000#64],
      Binary64.Finite v := by
    simp only [List.mem_cons, List.not_mem_nil, or_false, forall_eq_or_imp, forall_eq]
    decide
  obtain ⟨acc, hrun, htotal, hvalid, -⟩ := accumulator_sum_exact true _ hfinite hexit
  exact ⟨acc, hrun, htotal.trans (by decide +kernel), hvalid⟩

end Udipe

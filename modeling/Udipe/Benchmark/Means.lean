import Udipe.Benchmark.DoubleBits
import Udipe.Benchmark.Quantiles
import Mathlib.Algebra.BigOperators.Field

/-!
# Means of distributions

Reference: `benchmark/statistics.h`, `benchmark/statistics.c`.

`analyze_mean` rounds the contribution of each bin a few times, and adds the contributions exactly.
The error is a small multiple of the mean magnitude, whatever the number of bins.
-/

namespace Udipe

open Finset FloatFormat

/-- `NUM_RESAMPLES`. -/
def numResamples : ℕ := 201

/-- `statistic_id_t`. -/
inductive StatisticId where
  | centerStart
  | lowTailBound
  | mean
  | highTailBound
  | centerEnd
  | centerWidth
deriving DecidableEq, Repr

/-- `analyzer_t`. The arrays are functions on indices. -/
structure Analyzer where
  resampleBuilder : Distribution
  meanAccumulators : ℕ → Double
  meanCapacity : ℕ
  statistics : StatisticId → ℕ → Double

/-- `sizeof(double)`. -/
def sizeofDouble : ℕ := 8

/-- `analyzer_initialize`, where `malloc` answers memory with these contents. -/
def analyzerInitialize (pageSize : ℕ) (memory : Allocation) (accumulators : ℕ → Double) :
    Option Analyzer := do
  let resampleBuilder ← distributionInitialize pageSize memory
  let meanCapacity := pageSize / sizeofDouble
  if meanCapacity = 0 then none
  else some ⟨resampleBuilder, accumulators, meanCapacity, fun _ _ => .finite 0⟩

/-- A round of the loop of `analyze_mean`, which ends the process when it would write past the end
of the accumulators. -/
def meanRound (dist : Distribution) (capacity : ℕ) (lenNorm : Double) (s : (ℕ → Double) × ℕ)
    (bin : ℕ) : Option ((ℕ → Double) × ℕ) :=
  let (accumulators, prevEndRank) := s
  let value := dist.sortedValues bin
  let currEndRank := dist.counts bin
  let count := sizeSub currEndRank prevEndRank
  let relCount := (Double.ofSize count).mul lenNorm
  if capacity ≤ bin then none
  else some (Function.update accumulators bin (relCount.mul (.ofI64 value)), currEndRank)

/-- `analyze_mean`; `memory` is what `malloc` answers if it is called. -/
def analyzeMean (b : Build) (analyzer : Analyzer) (dist : Distribution) (memory : ℕ → Double) :
    Option (Double × Analyzer) := do
  if dist.numBins = 0 then none
  else
    let analyzer :=
      if analyzer.meanCapacity < dist.numBins then
        { analyzer with meanAccumulators := memory, meanCapacity := dist.numBins }
      else analyzer
    let len ← distributionLen b dist
    let lenNorm := (Double.finite 1).div (.ofSize len)
    let (accumulators, _) ← forRangeM 0 dist.numBins (analyzer.meanAccumulators, 0)
      (meanRound dist analyzer.meanCapacity lenNorm)
    let mean ← (sumF64 b.assertions
      ((List.range dist.numBins).map fun bin => (accumulators bin).bits)).toOption
    some (mean, { analyzer with meanAccumulators := accumulators })

variable {dist : Distribution} {p q x : ℚ} {n c : ℕ} {v : ℤ}

/-! ## One contribution -/

/-- What `analyze_mean` computes for `c` copies of `v` among `n` values. -/
def meanShare (n c : ℕ) (v : ℤ) : ℚ :=
  binary64.round (binary64.round (binary64.round c * binary64.round (1 / binary64.round n))
    * binary64.round v)

/-- Magnitudes that no rounding makes subnormal or infinite. -/
def Moderate (x : ℚ) : Prop := x = 0 ∨ 2 ^ (-200 : ℤ) ≤ |x| ∧ |x| ≤ 2 ^ (200 : ℤ)

theorem Moderate.normal (h : Moderate x) :
    x = 0 ∨ 2 ^ (binary64.emin + binary64.prec - 1) ≤ |x| :=
  h.imp_right fun h => (zpow_le_zpow_right₀ one_le_two (by decide)).trans h.1

theorem Moderate.le (h : Moderate x) : |x| ≤ 2 ^ (200 : ℤ) := by
  rcases h with rfl | ⟨-, h⟩
  · rw [abs_zero]
    positivity
  · exact h

theorem Moderate.ofExact (h : Moderate x) : Double.ofExact x = .finite (binary64.round x) :=
  (Double.isFinite_zpow (by decide) (by decide)).ofExact_of_le h.le

theorem Moderate.isFinite_round (h : Moderate x) : Double.IsFinite (binary64.round x) :=
  (Double.isFinite_zpow (by decide) (by decide)).round_of_le h.le

/-- An approximation of a number between the magnitudes of two words. -/
theorem moderate_of_relApprox {ε a : ℚ} (h : RelApprox ε a x) (hε : ε ≤ 1 / 2)
    (hx : x = 0 ∨ 2 ^ (-128 : ℤ) ≤ |x| ∧ |x| ≤ 2 ^ (128 : ℤ)) : Moderate a := by
  rcases hx with rfl | ⟨hlow, hhigh⟩
  · rw [RelApprox, abs_zero, mul_zero, sub_zero] at h
    exact .inl (abs_eq_zero.mp (le_antisymm h (abs_nonneg a)))
  · right
    constructor
    · calc (2 : ℚ) ^ (-200 : ℤ) ≤ 1 / 2 * 2 ^ (-128 : ℤ) := by norm_num
        _ ≤ (1 - ε) * |x| := mul_le_mul (by linarith) hlow (by positivity) (by linarith)
        _ ≤ |a| := h.le_abs
    · calc |a| ≤ (1 + ε) * |x| := h.abs_le
        _ ≤ 2 * 2 ^ (128 : ℤ) := mul_le_mul (by linarith) hhigh (abs_nonneg x) two_pos.le
        _ ≤ 2 ^ (200 : ℤ) := by norm_num

/-- One operation of the chain: its exact result `a` is near `x`, and so is the rounded one. -/
theorem round_chain {δ ε a : ℚ} (h : RelApprox δ a x)
    (hx : x = 0 ∨ 2 ^ (-128 : ℤ) ≤ |x| ∧ |x| ≤ 2 ^ (128 : ℤ)) (hδ : δ ≤ 1 / 2)
    (hε : δ + 2 ^ (-53 : ℤ) + δ * 2 ^ (-53 : ℤ) ≤ ε) :
    Double.ofExact a = .finite (binary64.round a) ∧ Double.IsFinite (binary64.round a) ∧
      RelApprox ε (binary64.round a) x := by
  have hmoderate := moderate_of_relApprox h hδ hx
  exact ⟨hmoderate.ofExact, hmoderate.isFinite_round,
    (relApprox_round_of h hmoderate.normal).mono hε⟩

theorem abs_natCast_range (hn0 : 0 < n) (hn : n < 2 ^ 64) : 1 ≤ |(n : ℚ)| ∧ |(n : ℚ)| ≤ 2 ^ 64 := by
  rw [Nat.abs_cast]
  exact ⟨by exact_mod_cast hn0, by exact_mod_cast hn.le⟩

/-- The contribution is computed without an overflow, and six roundings later it is close. -/
theorem meanShare_spec (hc0 : 0 < c) (hc : c < 2 ^ 64) (hn0 : 0 < n) (hn : n < 2 ^ 64)
    (hv : |v| ≤ 2 ^ 63) :
    ((Double.ofSize c).mul ((Double.finite 1).div (.ofSize n))).mul (.ofI64 v)
        = .finite (meanShare n c v) ∧
      Double.IsFinite (meanShare n c v) ∧
      RelApprox (13 / 2 * 2 ^ (-53 : ℤ)) (meanShare n c v) (c / n * v) := by
  obtain ⟨hclow, hchigh⟩ := abs_natCast_range hc0 hc
  obtain ⟨hnlow, hnhigh⟩ := abs_natCast_range hn0 hn
  have hn' : (n : ℚ) ≠ 0 := Nat.cast_ne_zero.mpr hn0.ne'
  have hlen := relApprox_round_natCast n
  -- the norm
  have hlen0 : binary64.round n ≠ 0 := by
    have hge := hlen.le_abs
    refine abs_pos.mp (lt_of_lt_of_le ?_ hge)
    exact mul_pos (by norm_num) (one_pos.trans_le hnlow)
  have hinvrange : 2 ^ (-128 : ℤ) ≤ |(n : ℚ)⁻¹| ∧ |(n : ℚ)⁻¹| ≤ 2 ^ (128 : ℤ) := by
    rw [abs_inv]
    constructor
    · calc (2 : ℚ) ^ (-128 : ℤ) ≤ (2 ^ 64)⁻¹ := by norm_num
        _ ≤ |(n : ℚ)|⁻¹ := inv_anti₀ (one_pos.trans_le hnlow) hnhigh
    · calc |(n : ℚ)|⁻¹ ≤ 1 := inv_le_one_of_one_le₀ hnlow
        _ ≤ 2 ^ (128 : ℤ) := by norm_num
  obtain ⟨hnorm, -, hnormErr⟩ := round_chain (ε := 21 / 10 * 2 ^ (-53 : ℤ))
    (hlen.inv hn' (by norm_num)) (.inr hinvrange) (by norm_num) (by norm_num)
  -- the relative count
  have hcountrange : 2 ^ (-128 : ℤ) ≤ |(c : ℚ) * (n : ℚ)⁻¹| ∧
      |(c : ℚ) * (n : ℚ)⁻¹| ≤ 2 ^ (64 : ℤ) := by
    rw [abs_mul, abs_inv]
    have hinv := inv_anti₀ (one_pos.trans_le hnlow) hnhigh
    constructor
    · calc (2 : ℚ) ^ (-128 : ℤ) ≤ 1 * (2 ^ 64)⁻¹ := by norm_num
        _ ≤ |(c : ℚ)| * |(n : ℚ)|⁻¹ := mul_le_mul hclow hinv (by positivity) (abs_nonneg _)
    · calc |(c : ℚ)| * |(n : ℚ)|⁻¹ ≤ 2 ^ 64 * 1 :=
            mul_le_mul hchigh (inv_le_one_of_one_le₀ hnlow) (by positivity) (by positivity)
        _ ≤ 2 ^ (64 : ℤ) := by norm_num
  obtain ⟨hcount, -, hcountErr⟩ := round_chain (ε := 43 / 10 * 2 ^ (-53 : ℤ))
    (((relApprox_round_natCast c).mul hnormErr).mono (ε := 32 / 10 * 2 ^ (-53 : ℤ)) (by norm_num))
    (.inr ⟨hcountrange.1, hcountrange.2.trans (by norm_num)⟩) (by norm_num) (by norm_num)
  -- the value
  have hvrange : (v : ℚ) = 0 ∨ 1 ≤ |(v : ℚ)| ∧ |(v : ℚ)| ≤ 2 ^ 63 := by
    rcases eq_or_ne v 0 with rfl | hv0
    · exact .inl Int.cast_zero
    · rw [← Int.cast_abs]
      exact .inr ⟨by exact_mod_cast Int.one_le_abs hv0, by exact_mod_cast hv⟩
  obtain ⟨hvalue, -, hvalueErr⟩ := round_chain (ε := 11 / 10 * 2 ^ (-53 : ℤ))
    (RelApprox.refl (v : ℚ))
    (hvrange.imp_right fun h => ⟨le_trans (by norm_num) h.1, h.2.trans (by norm_num)⟩)
    (by norm_num) (by norm_num)
  -- their product
  have hrange : (c : ℚ) * (n : ℚ)⁻¹ * v = 0 ∨ 2 ^ (-128 : ℤ) ≤ |(c : ℚ) * (n : ℚ)⁻¹ * v| ∧
      |(c : ℚ) * (n : ℚ)⁻¹ * v| ≤ 2 ^ (128 : ℤ) := by
    rcases hvrange with hv0 | ⟨hvlow, hvhigh⟩
    · exact .inl (by rw [hv0, mul_zero])
    · rw [abs_mul]
      right
      constructor
      · calc (2 : ℚ) ^ (-128 : ℤ) = 2 ^ (-128 : ℤ) * 1 := (mul_one _).symm
          _ ≤ |(c : ℚ) * (n : ℚ)⁻¹| * |(v : ℚ)| :=
            mul_le_mul hcountrange.1 hvlow zero_le_one (abs_nonneg _)
      · calc |(c : ℚ) * (n : ℚ)⁻¹| * |(v : ℚ)| ≤ 2 ^ (64 : ℤ) * 2 ^ 63 :=
            mul_le_mul hcountrange.2 hvhigh (abs_nonneg _) (by positivity)
          _ ≤ 2 ^ (128 : ℤ) := by norm_num
  obtain ⟨hshare, hfinite, hshareErr⟩ := round_chain (ε := 13 / 2 * 2 ^ (-53 : ℤ))
    ((hcountErr.mul hvalueErr).mono (ε := 541 / 100 * 2 ^ (-53 : ℤ)) (by norm_num)) hrange
    (by norm_num) (by norm_num)
  rw [← div_eq_mul_inv] at hshareErr
  rw [← one_div] at hnorm hcount hshare hshareErr hfinite
  refine ⟨?_, hfinite, hshareErr⟩
  have hdiv : (Double.finite 1).div (.ofSize n) = .finite (binary64.round (1 / binary64.round n)) := by
    rw [Double.ofSize_eq hn, Double.div, if_pos hlen0, hnorm]
  rw [hdiv, Double.ofSize_eq hc, Double.ofI64, hvalue, Double.mul, hcount, Double.mul, hshare]
  rfl

/-! ## The loop -/

/-- The contribution of a bin. -/
def Distribution.share (dist : Distribution) (i : ℕ) : ℚ :=
  meanShare dist.values.length (dist.binCount i) (dist.sortedValues i)

theorem binCount_lt (h : dist.Built) {i : ℕ} (hi : i < dist.numBins) : dist.binCount i < 2 ^ 64 :=
  (Nat.sub_le _ _).trans_lt (h.counts_lt hi)

theorem share_spec (h : dist.Built) (hvalues : ∀ v ∈ dist.values, |v| ≤ 2 ^ 63) {i : ℕ}
    (hi : i < dist.numBins) :
    ((Double.ofSize (dist.binCount i)).mul ((Double.finite 1).div (.ofSize dist.values.length))).mul
        (.ofI64 (dist.sortedValues i)) = .finite (dist.share i) ∧
      Double.IsFinite (dist.share i) ∧
      RelApprox (13 / 2 * 2 ^ (-53 : ℤ)) (dist.share i)
        (dist.binCount i / dist.values.length * dist.sortedValues i) :=
  meanShare_spec (h.binCount_pos hi) (binCount_lt h hi) h.length_values_pos h.length_values_lt
    (hvalues _ (h.mem_values.mpr ⟨i, hi, rfl⟩))

/-- The loop writes the contribution of every bin. -/
theorem meanLoop_spec (h : dist.Built) (hvalues : ∀ v ∈ dist.values, |v| ≤ 2 ^ 63) {capacity : ℕ}
    (hcapacity : dist.numBins ≤ capacity) (accumulators : ℕ → Double) :
    ∃ s, forRangeM 0 dist.numBins (accumulators, 0)
        (meanRound dist capacity ((Double.finite 1).div (.ofSize dist.values.length))) = some s ∧
      ∀ i < dist.numBins, s.1 i = .finite (dist.share i) := by
  have hround : ∀ i (s : (ℕ → Double) × ℕ), 0 ≤ i → i < 0 + dist.numBins →
      (∀ j < i, s.1 j = .finite (dist.share j)) ∧ s.2 = dist.startRank i →
      ∃ s', meanRound dist capacity ((Double.finite 1).div (.ofSize dist.values.length)) s i
          = some s' ∧
        (∀ j < i + 1, s'.1 j = .finite (dist.share j)) ∧ s'.2 = dist.startRank (i + 1) := by
    rintro i ⟨accs, rank⟩ - hi ⟨hbefore, rfl⟩
    rw [Nat.zero_add] at hi
    have hshare := (share_spec h hvalues hi).1
    rw [Distribution.binCount, ← sizeSub_eq (h.startRank_lt hi).le (h.counts_lt hi)] at hshare
    refine ⟨(Function.update accs i (.finite (dist.share i)), dist.counts i), ?_, ?_, rfl⟩
    · rw [meanRound, if_neg (by omega), hshare]
    · intro j hj
      show Function.update accs i _ j = _
      rcases Nat.lt_succ_iff_lt_or_eq.mp hj with hlt | rfl
      · rw [Function.update_of_ne hlt.ne]
        exact hbefore j hlt
      · rw [Function.update_self]
  obtain ⟨s, hloop, hs, -⟩ := forRangeM_induction 0 dist.numBins (accumulators, 0) _ _
    ⟨fun j hj => absurd hj (Nat.not_lt_zero j), rfl⟩ hround
  exact ⟨s, hloop, fun i hi => hs i (by omega)⟩

/-! ## The mean -/

/-- The exact mean. -/
def Distribution.mean (dist : Distribution) : ℚ := (dist.values.sum : ℤ) / dist.values.length

/-- The mean of the magnitudes. -/
def Distribution.meanMagnitude (dist : Distribution) : ℚ :=
  ((dist.values.map abs).sum : ℤ) / dist.values.length

theorem mean_eq (dist : Distribution) : dist.mean = ∑ i ∈ range dist.numBins,
    (dist.binCount i / dist.values.length * dist.sortedValues i : ℚ) := by
  rw [Distribution.mean, Finset.sum_congr rfl fun i _ => div_mul_eq_mul_div _ _ _,
    ← Finset.sum_div, Distribution.values, sum_runs]
  push_cast
  simp only [nsmul_eq_mul, Int.cast_mul, Int.cast_natCast]

theorem meanMagnitude_eq (dist : Distribution) : dist.meanMagnitude = ∑ i ∈ range dist.numBins,
    |(dist.binCount i / dist.values.length * dist.sortedValues i : ℚ)| := by
  have habs : ∀ i, |(dist.binCount i / dist.values.length * dist.sortedValues i : ℚ)|
      = dist.binCount i * |(dist.sortedValues i : ℚ)| / dist.values.length := by
    intro i
    rw [abs_mul, abs_div, Nat.abs_cast, Nat.abs_cast, div_mul_eq_mul_div]
  rw [Distribution.meanMagnitude, Finset.sum_congr rfl fun i _ => habs i, ← Finset.sum_div,
    Distribution.values, map_runs, sum_runs]
  push_cast
  simp only [nsmul_eq_mul, Int.cast_mul, Int.cast_natCast, Int.cast_abs]

theorem meanMagnitude_nonneg (dist : Distribution) : 0 ≤ dist.meanMagnitude := by
  rw [meanMagnitude_eq]
  exact Finset.sum_nonneg fun i _ => abs_nonneg _

theorem meanMagnitude_le (h : dist.Built) (hvalues : ∀ v ∈ dist.values, |v| ≤ 2 ^ 63) :
    dist.meanMagnitude ≤ 2 ^ 63 := by
  have hpos : (0 : ℚ) < dist.values.length := by exact_mod_cast h.length_values_pos
  rw [Distribution.meanMagnitude, div_le_iff₀ hpos]
  have hsum := List.sum_le_card_nsmul (dist.values.map abs) (2 ^ 63) fun x hx => by
    obtain ⟨v, hv, rfl⟩ := List.mem_map.mp hx
    exact hvalues v hv
  rw [List.length_map, nsmul_eq_mul, mul_comm] at hsum
  exact_mod_cast hsum

/-- The numbers that `analyze_mean` adds. -/
def Distribution.shareBits (dist : Distribution) : List (BitVec 64) :=
  (List.range dist.numBins).map fun bin => (Double.finite (dist.share bin)).bits

theorem finite_shareBits (h : dist.Built) (hvalues : ∀ v ∈ dist.values, |v| ≤ 2 ^ 63) :
    ∀ w ∈ dist.shareBits, Binary64.Finite w := by
  intro w hw
  obtain ⟨bin, hbin, rfl⟩ := List.mem_map.mp hw
  exact (share_spec h hvalues (List.mem_range.mp hbin)).2.1.bits_spec.1

theorem sum_shareBits (h : dist.Built) (hvalues : ∀ v ∈ dist.values, |v| ≤ 2 ^ 63) (f : ℚ → ℚ) :
    (dist.shareBits.map fun w => f (Binary64.value w)).sum
      = ∑ i ∈ range dist.numBins, f (dist.share i) := by
  have hvalue : ∀ i ∈ range dist.numBins,
      f (dist.share i) = f (Binary64.value (Double.finite (dist.share i)).bits) := by
    intro i hi
    rw [(share_spec h hvalues (mem_range.mp hi)).2.1.bits_spec.2]
  rw [Distribution.shareBits, List.map_map, Finset.sum_congr rfl hvalue]
  exact (Multiset.sum_coe _).symm

theorem sum_abs_share_le (h : dist.Built) (hvalues : ∀ v ∈ dist.values, |v| ≤ 2 ^ 63) :
    ∑ i ∈ range dist.numBins, |dist.share i|
      ≤ (1 + 13 / 2 * 2 ^ (-53 : ℤ)) * dist.meanMagnitude := by
  rw [meanMagnitude_eq, Finset.mul_sum]
  exact Finset.sum_le_sum fun i hi => (share_spec h hvalues (mem_range.mp hi)).2.2.abs_le

theorem abs_sum_share_le (h : dist.Built) (hvalues : ∀ v ∈ dist.values, |v| ≤ 2 ^ 63) :
    ∑ i ∈ range dist.numBins, |dist.share i| ≤ 2 ^ (64 : ℤ) := by
  refine (sum_abs_share_le h hvalues).trans ?_
  calc (1 + 13 / 2 * 2 ^ (-53 : ℤ)) * dist.meanMagnitude
      ≤ (1 + 13 / 2 * 2 ^ (-53 : ℤ)) * 2 ^ 63 :=
        mul_le_mul_of_nonneg_left (meanMagnitude_le h hvalues) (by positivity)
    _ ≤ 2 ^ (64 : ℤ) := by norm_num

/-- Nine units bound the error of a sum that is rounded once. -/
theorem abs_sub_mean_le {r : ℚ} (h : dist.Built) (hvalues : ∀ v ∈ dist.values, |v| ≤ 2 ^ 63)
    (hr : |r - ∑ i ∈ range dist.numBins, dist.share i|
      ≤ 2 * 2 ^ (-53 : ℤ) * |∑ i ∈ range dist.numBins, dist.share i|) :
    |r - dist.mean| ≤ 9 * 2 ^ (-53 : ℤ) * dist.meanMagnitude := by
  have hshares := RelApprox.sum fun i hi => (share_spec h hvalues (mem_range.mp hi)).2.2
  rw [← mean_eq, ← meanMagnitude_eq] at hshares
  have htotal := (Finset.abs_sum_le_sum_abs dist.share _).trans (sum_abs_share_le h hvalues)
  calc |r - dist.mean|
      ≤ |r - ∑ i ∈ range dist.numBins, dist.share i|
        + |∑ i ∈ range dist.numBins, dist.share i - dist.mean| := abs_sub_le _ _ _
    _ ≤ 2 * 2 ^ (-53 : ℤ) * ((1 + 13 / 2 * 2 ^ (-53 : ℤ)) * dist.meanMagnitude)
        + 13 / 2 * 2 ^ (-53 : ℤ) * dist.meanMagnitude :=
      add_le_add (hr.trans (mul_le_mul_of_nonneg_left htotal (by positivity))) hshares
    _ = (2 * 2 ^ (-53 : ℤ) * (1 + 13 / 2 * 2 ^ (-53 : ℤ)) + 13 / 2 * 2 ^ (-53 : ℤ))
        * dist.meanMagnitude := by ring
    _ ≤ 9 * 2 ^ (-53 : ℤ) * dist.meanMagnitude :=
      mul_le_mul_of_nonneg_right (by norm_num) (meanMagnitude_nonneg dist)

/-- The sum of the contributions. -/
theorem sumShares_spec (asserts : Bool) (h : dist.Built)
    (hvalues : ∀ v ∈ dist.values, |v| ≤ 2 ^ 63) :
    ∃ r, sumF64 asserts dist.shareBits = .ok (.finite r) ∧
      |r - dist.mean| ≤ 9 * 2 ^ (-53 : ℤ) * dist.meanMagnitude := by
  have hbound := abs_sum_share_le h hvalues
  have hsum := sum_shareBits h hvalues id
  have hfinite := finite_shareBits h hvalues
  have hexit := not_takesOverflowExit asserts hfinite
    ((sum_shareBits h hvalues abs).trans_lt (hbound.trans_lt (Double.zpow_lt_overflow (by decide))))
  obtain ⟨r, hrun, hfaithful, -⟩ := sumF64_faithful asserts _ hfinite hexit
  have hunits := sum_value dist.shareBits
  refine ⟨r, ?_, ?_⟩
  · have hrep : binary64.Representable (2 ^ (64 : ℤ)) := representable_zpow (by decide)
    have htotal := (Finset.abs_sum_le_sum_abs dist.share _).trans hbound
    obtain ⟨hlow, hhigh⟩ := abs_le.mp htotal
    rw [show (dist.shareBits.map Binary64.value).sum = _ from hsum] at hfaithful
    have hr : |r| ≤ 2 ^ (64 : ℤ) :=
      abs_le.mpr ⟨hfaithful.le_of_le _ hrep.neg hlow, hfaithful.le_of_ge _ hrep hhigh⟩
    rw [hrun, Double.ofRounded_of_lt (hr.trans_lt (Double.zpow_lt_overflow (by decide)))]
  · have hround := hfaithful.abs_sub_le_mul hunits
    have hu : (2 : ℚ) ^ (1 - binary64.prec : ℤ) = 2 * 2 ^ (-53 : ℤ) := by
      simp only [binary64]
      norm_num
    rw [hu, show (dist.shareBits.map Binary64.value).sum = _ from hsum] at hround
    exact abs_sub_mean_le h hvalues hround

/-- `analyze_mean` computes the mean up to nine units of rounding, relative to the mean magnitude. -/
theorem analyzeMean_spec (b : Build) (h : dist.Built) (hvalues : ∀ v ∈ dist.values, |v| ≤ 2 ^ 63)
    (analyzer : Analyzer) (memory : ℕ → Double) :
    ∃ mean analyzer', analyzeMean b analyzer dist memory = some (.finite mean, analyzer') ∧
      |mean - dist.mean| ≤ 9 * 2 ^ (-53 : ℤ) * dist.meanMagnitude ∧
      analyzer'.resampleBuilder = analyzer.resampleBuilder ∧
      analyzer'.statistics = analyzer.statistics := by
  generalize hanalyzer : (if analyzer.meanCapacity < dist.numBins then
      { analyzer with meanAccumulators := memory, meanCapacity := dist.numBins }
    else analyzer) = grown
  have hgrown : dist.numBins ≤ grown.meanCapacity ∧
      grown.resampleBuilder = analyzer.resampleBuilder ∧ grown.statistics = analyzer.statistics := by
    rw [← hanalyzer]
    split_ifs with hcapacity
    · exact ⟨le_rfl, rfl, rfl⟩
    · exact ⟨not_lt.mp hcapacity, rfl, rfl⟩
  obtain ⟨⟨accs, rank⟩, hloop, haccs⟩ :=
    meanLoop_spec h hvalues hgrown.1 grown.meanAccumulators
  obtain ⟨r, hsum, herr⟩ := sumShares_spec b.assertions h hvalues
  have hbits : (List.range dist.numBins).map (fun bin => (accs bin).bits) = dist.shareBits := by
    refine List.map_congr_left fun bin hbin => ?_
    exact congrArg Double.bits (haccs bin (List.mem_range.mp hbin))
  refine ⟨r, { grown with meanAccumulators := accs }, ?_, herr, hgrown.2⟩
  rw [analyzeMean, if_neg h.nonempty.ne', hanalyzer, h.distributionLen_eq b]
  simp only [Option.bind_eq_bind, Option.bind_some, hloop, hbits, hsum, Except.toOption]

/-- The mean of seven values, 33 / 7, is computed to a few units. -/
theorem analyzeMean_spec_threeRuns :
    ∃ mean analyzer', analyzeMean ⟨true⟩ ⟨smallBuilder, fun _ => .nan, 2, fun _ _ => .finite 0⟩
        threeRuns (fun _ => .nan) = some (.finite mean, analyzer') ∧
      |mean - 33 / 7| ≤ 9 * 2 ^ (-53 : ℤ) * (53 / 7) := by
  obtain ⟨mean, analyzer', hrun, herr, -⟩ := analyzeMean_spec ⟨true⟩ threeRuns_built (by decide)
    ⟨smallBuilder, fun _ => .nan, 2, fun _ _ => .finite 0⟩ fun _ => .nan
  have hmean : threeRuns.mean = 33 / 7 := by decide +kernel
  have hmagnitude : threeRuns.meanMagnitude = 53 / 7 := by decide +kernel
  rw [hmean, hmagnitude] at herr
  exact ⟨mean, analyzer', hrun, herr⟩

end Udipe

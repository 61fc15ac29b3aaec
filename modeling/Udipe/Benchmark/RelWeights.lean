import Udipe.Benchmark.Differences
import Udipe.Benchmark.OutlierFilter
import Udipe.Benchmark.Quantiles

/-!
# The relative weights of the outlier filter

Reference: `benchmark/outlier_filter.h`, `benchmark/outlier_filter.c`, `benchmark/distribution.h`.

`compute_rel_weights` weights each bin of a builder by its count and by the counts and the distances of
its neighbours, and divides all the weights by the largest one. `pow` is the function of the
mathematical library.
-/

namespace Udipe

open FloatFormat Function

/-- `distribution_max_count`. -/
def distributionMaxCount (b : Build) (builder : Distribution) : Option ℕ :=
  forRangeM 0 builder.numBins 0 fun maxCount bin => do
    let count := builder.counts bin
    b.assert (decide (0 < count))
    some (if maxCount < count then count else maxCount)

/-- `NEIGHBOR_CONTRIBUTION`. -/
def neighborContribution : Double := (Double.finite 1).div (.finite 4)

/-- `NEIGHBOR_DECAY`. -/
def neighborDecay : Double := .finite 2

/-- `neighbor_share`. -/
def neighborShare : Double := neighborContribution.div (.finite 2)

/-- `self_share`. -/
def selfShare : Double := (Double.finite 1).sub neighborContribution

/-- The variables of the loop of `compute_rel_weights`. -/
structure WeightLoop where
  binWeights : ℕ → Double
  currentValue : ℤ
  relCurrentCount : Double
  relPrevCount : Double
  relPrevDistance : Double
  maxWeight : Double

/-- What a neighbour contributes. -/
def neighborWeight (pow : Double → Double → Double) (relCount relDistance : Double) : Double :=
  relCount.mul (pow relDistance neighborDecay.neg)

/-- A round of this loop, which ends the process when it would write past the end of the weights. -/
def weightRound (b : Build) (pow : Double → Double → Double) (target : Distribution)
    (capacity : ℕ) (countNorm distanceNorm : Double) (s : WeightLoop) (bin : ℕ) :
    Option WeightLoop := do
  let nextValue := target.sortedValues bin
  b.assert (decide (s.currentValue < nextValue))
  let distanceToNext := uint64Of (int64Sub nextValue s.currentValue)
  let relNextDistance := distanceNorm.mul (.ofSize distanceToNext)
  let relNextCount := countNorm.mul (.ofSize (target.counts bin))
  let prevWeight := neighborWeight pow s.relPrevCount s.relPrevDistance
  let nextWeight := neighborWeight pow relNextCount relNextDistance
  let currentWeight :=
    ((neighborShare.mul prevWeight).add (selfShare.mul s.relCurrentCount)).add
      (neighborShare.mul nextWeight)
  if capacity ≤ bin - 1 then none
  else
    some
      { binWeights := update s.binWeights (bin - 1) currentWeight
        currentValue := nextValue
        relCurrentCount := relNextCount
        relPrevCount := s.relCurrentCount
        relPrevDistance := relNextDistance
        maxWeight := if s.maxWeight.lt currentWeight then currentWeight else s.maxWeight }

/-- The weights before the last loop, and the largest one. -/
def rawWeights (b : Build) (pow : Double → Double → Double) (binWeights : ℕ → Double)
    (capacity : ℕ) (target : Distribution) : Option ((ℕ → Double) × Double) := do
  let numBins := target.numBins
  let minDistance ← distributionMinDifference b target
  let maxCount ← distributionMaxCount b target
  let countNorm := (Double.finite 1).div (.ofSize maxCount)
  let distanceNorm := (Double.finite 1).div (.ofSize minDistance)
  let s ← forRangeM 1 (numBins - 1)
    { binWeights := binWeights
      currentValue := target.sortedValues 0
      relCurrentCount := countNorm.mul (.ofSize (target.counts 0))
      relPrevCount := .finite 0
      relPrevDistance := distanceNorm.mul (.ofSize uint64Max)
      maxWeight := .infinite true }
    (weightRound b pow target capacity countNorm distanceNorm)
  let prevWeight := neighborWeight pow s.relPrevCount s.relPrevDistance
  let lastWeight := (neighborShare.mul prevWeight).add (selfShare.mul s.relCurrentCount)
  if capacity ≤ numBins - 1 then none
  else
    some (update s.binWeights (numBins - 1) lastWeight,
      if s.maxWeight.lt lastWeight then lastWeight else s.maxWeight)

/-- `compute_rel_weights`; `memory` is what `malloc` answers if it is called. -/
def computeRelWeightsF64 (b : Build) (pow : Double → Double → Double) (memory : ℕ → Double)
    (filter : OutlierFilter Double) (target : Distribution) : Option (OutlierFilter Double) := do
  let numBins := target.numBins
  let filter :=
    if filter.binCapacity < numBins then
      { filter with binWeights := memory, binCapacity := numBins }
    else filter
  if numBins = 0 then none
  else if numBins = 1 then
    if filter.binCapacity = 0 then none
    else some { filter with binWeights := update filter.binWeights 0 (.finite 1) }
  else
    let (binWeights, maxWeight) ← rawWeights b pow filter.binWeights filter.binCapacity target
    let weightNorm := (Double.finite 1).div maxWeight
    let binWeights := forRange 0 numBins binWeights fun binWeights bin =>
      update binWeights bin ((binWeights bin).mul weightNorm)
    some { filter with binWeights := binWeights }

variable {b : Build} {pow : Double → Double → Double} {target : Distribution} {m : Multiset ℤ}
  {weights : ℕ → Double} {top d : Double} {x y : ℚ} {n : ℕ}

/-! ## The largest weight -/

/-- `top` is the largest one of the first `n` weights, or minus infinity without any. -/
def Heaviest (weights : ℕ → Double) (n : ℕ) (top : Double) : Prop :=
  n = 0 ∧ top = .infinite true ∨
    ∃ x, top = .finite x ∧ (∃ i < n, weights i = .finite x) ∧
      ∀ i < n, ∃ y, weights i = .finite y ∧ y ≤ x

/-- One more weight. -/
theorem Heaviest.push (h : Heaviest weights n top) (y : ℚ) :
    Heaviest (update weights n (.finite y)) (n + 1)
      (if top.lt (.finite y) then .finite y else top) := by
  right
  have hself : update weights n (Double.finite y) n = .finite y := update_self _ _ _
  have hother : ∀ i < n, update weights n (Double.finite y) i = weights i :=
    fun i hi => update_of_ne hi.ne _ _
  rcases h with ⟨rfl, rfl⟩ | ⟨x, rfl, ⟨i, hi, hix⟩, hall⟩
  · refine ⟨y, if_pos rfl, ⟨0, one_pos, hself⟩, fun i hi => ?_⟩
    obtain rfl := Nat.lt_one_iff.mp hi
    exact ⟨y, hself, le_rfl⟩
  · by_cases hlt : x < y
    · refine ⟨y, if_pos (decide_eq_true hlt), ⟨n, Nat.lt_succ_self n, hself⟩, fun j hj => ?_⟩
      rcases Nat.lt_succ_iff_lt_or_eq.mp hj with hj | rfl
      · obtain ⟨z, hz, hle⟩ := hall j hj
        exact ⟨z, (hother j hj).trans hz, hle.trans hlt.le⟩
      · exact ⟨y, hself, le_rfl⟩
    · refine ⟨x, if_neg (by simp [Double.lt, hlt]), ⟨i, by omega, (hother i hi).trans hix⟩,
        fun j hj => ?_⟩
      rcases Nat.lt_succ_iff_lt_or_eq.mp hj with hj | rfl
      · obtain ⟨z, hz, hle⟩ := hall j hj
        exact ⟨z, (hother j hj).trans hz, hle⟩
      · exact ⟨y, hself, not_lt.mp hlt⟩

/-! ## Counts, distances and neighbours -/

/-- What the filter relies on: at moderate numbers, `pow` computes an inverse square without an
overflow. -/
def InverseSquare (pow : Double → Double → Double) : Prop :=
  ∀ x : ℚ, 2 ^ (-70 : ℤ) ≤ x → x ≤ 2 ^ (70 : ℤ) →
    (pow (.finite x) (.finite (-2))).Within 0 (2 * (x ^ 2)⁻¹)

theorem within_ofSize (hn0 : 0 < n) (hn : n < 2 ^ 64) :
    (Double.ofSize n).Within 1 (2 ^ (64 : ℤ)) := by
  have hone : Double.IsFinite 1 := by
    have := Double.isFinite_zpow (k := 0) (by decide) (by decide)
    rwa [zpow_zero] at this
  refine Double.within_ofExact hone (Double.isFinite_zpow (by decide) (by decide)) zero_le_one ?_ ?_
  · exact_mod_cast hn0
  · exact_mod_cast hn.le

/-- Relative counts and distances. -/
theorem within_normalized {k : ℕ} (hk0 : 0 < k) (hk : k < 2 ^ 64) (hn0 : 0 < n) (hn : n < 2 ^ 64) :
    (((Double.finite 1).div (.ofSize k)).mul (.ofSize n)).Within (2 ^ (-64 : ℤ)) (2 ^ (64 : ℤ)) := by
  have hnorm : ((Double.finite 1).div (.ofSize k)).Within (2 ^ (-64 : ℤ)) (2 ^ (0 : ℤ)) :=
    (within_ofSize hk0 hk).one_div (Double.isFinite_zpow (by decide) (by decide))
      (Double.isFinite_zpow (by decide) (by decide)) (by positivity) one_pos (by norm_num)
      (by norm_num)
  exact hnorm.mul (within_ofSize hn0 hn) (Double.isFinite_zpow (by decide) (by decide))
    (Double.isFinite_zpow (by decide) (by decide)) (by positivity) (by positivity) zero_le_one
    (by norm_num) (by norm_num)

theorem within_neighborWeight (hpow : InverseSquare pow) {count distance : Double}
    (hcount : count.Within 0 (2 ^ (64 : ℤ)))
    (hdistance : distance.Within (2 ^ (-64 : ℤ)) (2 ^ (64 : ℤ))) :
    (neighborWeight pow count distance).Within 0 (2 ^ (193 : ℤ)) := by
  obtain ⟨x, rfl, hlow, hhigh⟩ := hdistance
  have hsquare := hpow x (le_trans (by norm_num) hlow) (hhigh.trans (by norm_num))
  have hinv : 2 * (x ^ 2)⁻¹ ≤ 2 ^ (129 : ℤ) := by
    calc 2 * (x ^ 2)⁻¹ ≤ 2 * ((2 ^ (-64 : ℤ)) ^ 2)⁻¹ := by gcongr
      _ = 2 ^ (129 : ℤ) := by norm_num
  exact hcount.mul (hsquare.mono le_rfl hinv) Double.isFinite_zero
    (Double.isFinite_zpow (by decide) (by decide)) le_rfl le_rfl le_rfl (by norm_num) (by norm_num)

/-- The shares are exact. -/
theorem shares_eq : neighborShare = .finite (1 / 8) ∧ selfShare = .finite (3 / 4) := by
  decide +kernel

/-- The weight of a bin that has a count and, at most, neighbours. -/
theorem within_weight {count prev : Double} (hcount : count.Within (2 ^ (-64 : ℤ)) (2 ^ (64 : ℤ)))
    (hprev : prev.Within 0 (2 ^ (193 : ℤ))) :
    ((neighborShare.mul prev).add (selfShare.mul count)).Within (2 ^ (-65 : ℤ))
      (2 ^ (191 : ℤ)) := by
  obtain ⟨hneighbor, hself⟩ := shares_eq
  have hshare : (neighborShare.mul prev).Within 0 (2 ^ (190 : ℤ)) := by
    rw [hneighbor]
    exact Double.Within.mul ⟨_, rfl, le_rfl, le_rfl⟩ hprev Double.isFinite_zero
      (Double.isFinite_zpow (by decide) (by decide)) le_rfl (by norm_num) le_rfl (by norm_num)
      (by norm_num)
  have hself : (selfShare.mul count).Within (2 ^ (-65 : ℤ)) (2 ^ (64 : ℤ)) := by
    rw [hself]
    exact Double.Within.mul ⟨_, rfl, le_rfl, le_rfl⟩ hcount
      (Double.isFinite_zpow (by decide) (by decide))
      (Double.isFinite_zpow (by decide) (by decide)) (by positivity) (by norm_num) (by positivity)
      (by norm_num) (by norm_num)
  exact hshare.add hself (Double.isFinite_zpow (by decide) (by decide))
    (Double.isFinite_zpow (by decide) (by decide)) (by positivity) (by norm_num) (by norm_num)

theorem within_weight_next {weight next : Double}
    (hweight : weight.Within (2 ^ (-65 : ℤ)) (2 ^ (191 : ℤ)))
    (hnext : next.Within 0 (2 ^ (193 : ℤ))) :
    (weight.add (neighborShare.mul next)).Within (2 ^ (-65 : ℤ)) (2 ^ (192 : ℤ)) := by
  have hshare : (neighborShare.mul next).Within 0 (2 ^ (190 : ℤ)) := by
    rw [shares_eq.1]
    exact Double.Within.mul ⟨_, rfl, le_rfl, le_rfl⟩ hnext Double.isFinite_zero
      (Double.isFinite_zpow (by decide) (by decide)) le_rfl (by norm_num) le_rfl (by norm_num)
      (by norm_num)
  exact hweight.add hshare (Double.isFinite_zpow (by decide) (by decide))
    (Double.isFinite_zpow (by decide) (by decide)) (by positivity) (by norm_num) (by norm_num)

theorem Distribution.IsHistogram.counts_lt (h : target.IsHistogram m) (hfits : m.card < 2 ^ 64) {i : ℕ}
    (hi : i < target.numBins) : target.counts i < 2 ^ 64 := by
  rw [← h.count_eq hi]
  exact (Multiset.count_le_card _ m).trans_lt hfits

theorem distributionMaxCount_spec (b : Build) (h : target.IsHistogram m) (hfits : m.card < 2 ^ 64)
    (hsome : 0 < target.numBins) :
    ∃ maxCount, distributionMaxCount b target = some maxCount ∧ 0 < maxCount ∧
      maxCount < 2 ^ 64 := by
  have hround : ∀ i (maxCount : ℕ), 0 ≤ i → i < 0 + target.numBins →
      (0 < i → 0 < maxCount) ∧ maxCount < 2 ^ 64 →
      ∃ maxCount', (do
          let count := target.counts i
          b.assert (decide (0 < count))
          some (if maxCount < count then count else maxCount)) = some maxCount' ∧
        (0 < i + 1 → 0 < maxCount') ∧ maxCount' < 2 ^ 64 := by
    rintro i maxCount - hi ⟨-, hlt⟩
    have hpos := h.positive i (by omega)
    have hcount := h.counts_lt hfits (show i < target.numBins by omega)
    simp only [b.assert_decide hpos, Option.bind_eq_bind, Option.bind_some]
    refine ⟨_, rfl, fun _ => ?_, ?_⟩ <;> split <;> omega
  obtain ⟨maxCount, hloop, hpos, hlt⟩ := forRangeM_induction 0 target.numBins 0 _ _
    ⟨fun h => absurd h (lt_irrefl 0), by norm_num⟩ hround
  exact ⟨maxCount, hloop, hpos (by omega), hlt⟩

/-- The distance of two bins. -/
theorem distance_spec (h : target.IsHistogram m)
    (hrange : ∀ i < target.numBins,
      -2 ^ 63 ≤ target.sortedValues i ∧ target.sortedValues i < 2 ^ 63) {i j : ℕ} (hij : i < j)
    (hj : j < target.numBins) :
    0 < uint64Of (int64Sub (target.sortedValues j) (target.sortedValues i)) ∧
      uint64Of (int64Sub (target.sortedValues j) (target.sortedValues i)) < 2 ^ 64 := by
  have hless := h.increasing.entry_lt hij hj
  have hi := hrange i (by omega)
  have hj := hrange j hj
  rw [uint64Of_int64Sub, uint64Of_eq (by omega) (by omega)]
  omega

/-! ## The loop -/

/-- What the loop keeps: everything is in a moderate range, and the largest weight is known. -/
structure WeightLoop.Good (target : Distribution) (s : WeightLoop) (bin : ℕ) : Prop where
  value : s.currentValue = target.sortedValues (bin - 1)
  current : s.relCurrentCount.Within (2 ^ (-64 : ℤ)) (2 ^ (64 : ℤ))
  prev : s.relPrevCount.Within 0 (2 ^ (64 : ℤ))
  distance : s.relPrevDistance.Within (2 ^ (-64 : ℤ)) (2 ^ (64 : ℤ))
  weights : ∀ i < bin - 1, (s.binWeights i).Within (2 ^ (-65 : ℤ)) (2 ^ (192 : ℤ))
  top : Heaviest s.binWeights (bin - 1) s.maxWeight

/-- One more weight in range. -/
theorem within_push (h : ∀ i < n, (weights i).Within x y) (hd : d.Within x y) :
    ∀ i < n + 1, (update weights n d i).Within x y := by
  intro i hi
  rcases Nat.lt_succ_iff_lt_or_eq.mp hi with hlt | rfl
  · rw [update_of_ne hlt.ne]
    exact h i hlt
  · rwa [update_self]

theorem weightRound_spec (b : Build) (hpow : InverseSquare pow) (h : target.IsHistogram m)
    (hfits : m.card < 2 ^ 64)
    (hrange : ∀ i < target.numBins,
      -2 ^ 63 ≤ target.sortedValues i ∧ target.sortedValues i < 2 ^ 63)
    {capacity minDistance maxCount bin : ℕ} (hcapacity : target.numBins ≤ capacity)
    (hminDistance : 0 < minDistance ∧ minDistance < 2 ^ 64)
    (hmaxCount : 0 < maxCount ∧ maxCount < 2 ^ 64) (hbin0 : 1 ≤ bin) (hbin : bin < target.numBins)
    {s : WeightLoop} (hs : s.Good target bin) :
    ∃ s', weightRound b pow target capacity ((Double.finite 1).div (.ofSize maxCount))
        ((Double.finite 1).div (.ofSize minDistance)) s bin = some s' ∧
      s'.Good target (bin + 1) := by
  obtain ⟨bin, rfl⟩ := Nat.exists_eq_add_of_le' hbin0
  have hless : s.currentValue < target.sortedValues (bin + 1) := by
    rw [hs.value]
    exact h.increasing.entry_lt (Nat.lt_succ_self bin) hbin
  obtain ⟨hdistance0, hdistance⟩ := distance_spec h hrange (Nat.lt_succ_self bin) hbin
  have hnextDistance := within_normalized hminDistance.1 hminDistance.2 hdistance0 hdistance
  have hnextCount := within_normalized hmaxCount.1 hmaxCount.2 (h.positive _ hbin)
    (h.counts_lt hfits hbin)
  have hprev := within_neighborWeight hpow hs.prev hs.distance
  have hnext := within_neighborWeight hpow (hnextCount.mono (by positivity) le_rfl) hnextDistance
  have hweight := within_weight_next (within_weight hs.current hprev) hnext
  rw [weightRound, b.assert_decide hless, hs.value]
  simp only [Option.bind_eq_bind, Option.bind_some, Nat.add_sub_cancel]
  rw [if_neg (by omega)]
  refine ⟨_, rfl, rfl, hnextCount, hs.current.mono (by positivity) le_rfl, hnextDistance,
    within_push hs.weights hweight, ?_⟩
  obtain ⟨y, hy, -⟩ := hweight
  simp only [hy]
  exact hs.top.push y

/-- The weights before they are divided by the largest one. -/
theorem rawWeights_spec (b : Build) (hpow : InverseSquare pow) (h : target.IsHistogram m)
    (hfits : m.card < 2 ^ 64)
    (hrange : ∀ i < target.numBins,
      -2 ^ 63 ≤ target.sortedValues i ∧ target.sortedValues i < 2 ^ 63)
    (hmany : 1 < target.numBins) {capacity : ℕ} (hcapacity : target.numBins ≤ capacity)
    (binWeights : ℕ → Double) :
    ∃ weights top, rawWeights b pow binWeights capacity target = some (weights, top) ∧
      (∀ i < target.numBins, (weights i).Within (2 ^ (-65 : ℤ)) (2 ^ (192 : ℤ))) ∧
      Heaviest weights target.numBins top := by
  obtain ⟨maxCount, hcount, hmaxCount⟩ := distributionMaxCount_spec b h hfits (by omega)
  have hdistance := distributionMinDifference_eq b h.increasing hrange
  have hless := h.increasing.entry_lt one_pos hmany
  have hrange0 := hrange 0 (by omega)
  have hrange1 := hrange 1 hmany
  rw [if_pos hmany] at hdistance
  have hminDistance : 0 < (target.sortedValues 1 - target.sortedValues 0).natAbs ∧
      (target.sortedValues 1 - target.sortedValues 0).natAbs < 2 ^ 64 := by omega
  obtain ⟨s, hloop, hs⟩ := forRangeM_induction 1 (target.numBins - 1) _
    (weightRound b pow target capacity ((Double.finite 1).div (.ofSize maxCount))
      ((Double.finite 1).div
        (.ofSize (target.sortedValues 1 - target.sortedValues 0).natAbs)))
    (fun bin s => s.Good target bin)
    (show WeightLoop.Good target
      { binWeights := binWeights
        currentValue := target.sortedValues 0
        relCurrentCount := ((Double.finite 1).div (.ofSize maxCount)).mul (.ofSize (target.counts 0))
        relPrevCount := .finite 0
        relPrevDistance := ((Double.finite 1).div
          (.ofSize (target.sortedValues 1 - target.sortedValues 0).natAbs)).mul (.ofSize uint64Max)
        maxWeight := .infinite true } 1 from
      { value := rfl
        current := within_normalized hmaxCount.1 hmaxCount.2 (h.positive 0 (by omega))
          (h.counts_lt hfits (by omega))
        prev := ⟨0, rfl, le_rfl, by positivity⟩
        distance := within_normalized hminDistance.1 hminDistance.2 (by decide) (by decide)
        weights := fun i hi => absurd hi (Nat.not_lt_zero i)
        top := .inl ⟨rfl, rfl⟩ })
    (fun bin s hbin0 hbin hs => weightRound_spec b hpow h hfits hrange hcapacity hminDistance
      hmaxCount hbin0 (by omega) hs)
  rw [Nat.add_sub_cancel' (by omega : 1 ≤ target.numBins)] at hs
  have hlast := within_weight hs.current (within_neighborWeight hpow hs.prev hs.distance)
  have hpush := within_push hs.weights (hlast.mono le_rfl (by norm_num))
  obtain ⟨y, hy, -⟩ := hlast
  have htop := hs.top.push y
  rw [Nat.sub_add_cancel (by omega : 1 ≤ target.numBins)] at hpush htop
  rw [rawWeights, hdistance, hcount]
  simp only [Option.bind_eq_bind, Option.bind_some, hloop]
  rw [if_neg (by omega)]
  refine ⟨_, _, rfl, hpush, ?_⟩
  simp only [hy]
  exact htop

/-! ## Dividing by the largest weight -/

/-- A product with a rounded reciprocal exceeds one by so little that it is rounded to one. -/
theorem round_mul_reciprocal (hx : 2 ^ (-65 : ℤ) ≤ x) (hx' : x ≤ 2 ^ (192 : ℤ)) :
    (∀ y, y ≤ x → binary64.round (y * binary64.round (1 / x)) ≤ 1) ∧
      1 - 2 ^ (-53 : ℤ) ≤ binary64.round (x * binary64.round (1 / x)) := by
  have hx0 : 0 < x := (zpow_pos two_pos _).trans_le hx
  have hnormal : 2 ^ (binary64.emin + binary64.prec - 1) ≤ |1 / x| := by
    rw [abs_of_pos (one_div_pos.mpr hx0)]
    calc (2 : ℚ) ^ (binary64.emin + binary64.prec - 1)
        ≤ 2 ^ (-192 : ℤ) := zpow_le_zpow_right₀ one_le_two (by decide)
      _ = 1 / 2 ^ (192 : ℤ) := by norm_num
      _ ≤ 1 / x := one_div_le_one_div_of_le hx0 hx'
  have herr : |binary64.round (1 / x) - 1 / x| ≤ 2 ^ (-53 : ℤ) * |1 / x| :=
    relApprox_round (.inr hnormal)
  rw [abs_of_pos (one_div_pos.mpr hx0)] at herr
  have hproduct : |x * binary64.round (1 / x) - 1| ≤ 2 ^ (-53 : ℤ) := by
    have hsplit : x * binary64.round (1 / x) - 1 = x * (binary64.round (1 / x) - 1 / x) := by
      field_simp
    rw [hsplit, abs_mul, abs_of_pos hx0]
    calc x * |binary64.round (1 / x) - 1 / x|
        ≤ x * (2 ^ (-53 : ℤ) * (1 / x)) := mul_le_mul_of_nonneg_left herr hx0.le
      _ = 2 ^ (-53 : ℤ) := by field_simp
  obtain ⟨hlow, hhigh⟩ := abs_le.mp hproduct
  refine ⟨fun y hy => ?_, ?_⟩
  · -- the bound is halfway to the next number, and one is even
    have htie : binary64.round (1 + 2 ^ (-53 : ℤ)) = 1 := by decide +kernel
    refine (round_mono ?_).trans htie.le
    have hle : y * binary64.round (1 / x) ≤ x * binary64.round (1 / x) :=
      mul_le_mul_of_nonneg_right hy (round_nonneg (one_div_pos.mpr hx0).le)
    linarith
  · have hexact : binary64.round (1 - 2 ^ (-53 : ℤ)) = 1 - 2 ^ (-53 : ℤ) := by decide +kernel
    refine hexact.ge.trans (round_mono ?_)
    linarith

/-- The loop that applies the norm. -/
theorem normalizeLoop_eq (weights : ℕ → Double) (norm : Double) (n : ℕ) :
    ∀ i < n, (forRange 0 n weights fun weights bin =>
      update weights bin ((weights bin).mul norm)) i = (weights i).mul norm := by
  have hloop := forRange_induction 0 n weights
    (fun weights bin => update weights bin ((weights bin).mul norm))
    (fun k weights' => (∀ i < k, weights' i = (weights i).mul norm) ∧
      ∀ i, k ≤ i → weights' i = weights i)
    ⟨fun i hi => absurd hi (Nat.not_lt_zero i), fun i _ => rfl⟩
    (fun k weights' _ _ hk => by
      refine ⟨fun i hi => ?_, fun i hi => ?_⟩
      · rcases Nat.lt_succ_iff_lt_or_eq.mp hi with hlt | rfl
        · rw [update_of_ne hlt.ne]
          exact hk.1 i hlt
        · rw [update_self, hk.2 i le_rfl]
      · rw [update_of_ne (by omega)]
        exact hk.2 i (by omega))
  intro i hi
  exact hloop.1 i (by omega)

/-- Every relative weight is positive and at most one, as `compute_scores` asserts, and the largest
one is one up to a rounding. -/
structure RelWeights (target : Distribution) (weights : ℕ → Double) : Prop where
  range : ∀ i < target.numBins, ∃ w, weights i = .finite w ∧ 0 < w ∧ w ≤ 1
  heaviest : ∃ i < target.numBins, ∃ w, weights i = .finite w ∧ 1 - 2 ^ (-53 : ℤ) ≤ w

theorem Heaviest.relWeights {raw : ℕ → Double} (h : Heaviest raw target.numBins top)
    (hsome : 0 < target.numBins)
    (hraw : ∀ i < target.numBins, (raw i).Within (2 ^ (-65 : ℤ)) (2 ^ (192 : ℤ)))
    (hweights : ∀ i < target.numBins,
      weights i = (raw i).mul ((Double.finite 1).div top)) :
    RelWeights target weights := by
  rcases h with ⟨hnone, -⟩ | ⟨x, rfl, ⟨i, hi, hix⟩, hall⟩
  · exact absurd hnone hsome.ne'
  obtain ⟨x', hx', hxlow, hxhigh⟩ := hraw i hi
  obtain rfl := Double.finite.inj (hix.symm.trans hx')
  have hx0 : 0 < x := (zpow_pos two_pos _).trans_le hxlow
  have hnorm : (Double.finite 1).div (.finite x) = .finite (binary64.round (1 / x)) := by
    rw [Double.div, if_pos hx0.ne']
    refine (Double.isFinite_zpow (k := 65) (by decide) (by decide)).ofExact_of_le ?_
    rw [abs_of_pos (one_div_pos.mpr hx0)]
    calc 1 / x ≤ 1 / 2 ^ (-65 : ℤ) := one_div_le_one_div_of_le (zpow_pos two_pos _) hxlow
      _ = 2 ^ (65 : ℤ) := by norm_num
  have hnormlow : 2 ^ (-192 : ℤ) ≤ binary64.round (1 / x) := by
    refine (representable_zpow (by decide)).le_round ?_
    calc (2 : ℚ) ^ (-192 : ℤ) = 1 / 2 ^ (192 : ℤ) := by norm_num
      _ ≤ 1 / x := one_div_le_one_div_of_le hx0 hxhigh
  obtain ⟨hone, hlow⟩ := round_mul_reciprocal hxlow hxhigh
  -- the product of a weight is a positive number
  have hproduct : ∀ y, 2 ^ (-65 : ℤ) ≤ y → y ≤ x →
      (Double.finite y).mul (.finite (binary64.round (1 / x)))
        = .finite (binary64.round (y * binary64.round (1 / x))) ∧
      0 < binary64.round (y * binary64.round (1 / x)) := by
    intro y hylow hyx
    have hge : 2 ^ (-257 : ℤ) ≤ y * binary64.round (1 / x) := by
      calc (2 : ℚ) ^ (-257 : ℤ) = 2 ^ (-65 : ℤ) * 2 ^ (-192 : ℤ) :=
            zpow_add₀ two_ne_zero (-65) (-192)
        _ ≤ y * binary64.round (1 / x) :=
          mul_le_mul hylow hnormlow (by positivity) ((zpow_pos two_pos _).le.trans hylow)
    have hpos : 0 < binary64.round (y * binary64.round (1 / x)) :=
      (zpow_pos two_pos _).trans_le ((representable_zpow (by decide)).le_round hge)
    refine ⟨Double.ofRounded_of_lt ?_, hpos⟩
    rw [abs_of_pos hpos]
    exact (hone y hyx).trans_lt (one_lt_pow₀ one_lt_two (by decide))
  refine ⟨fun j hj => ?_, i, hi, ?_⟩
  · obtain ⟨y, hjy, hyx⟩ := hall j hj
    obtain ⟨y', hjy', hylow, -⟩ := hraw j hj
    obtain rfl := Double.finite.inj (hjy.symm.trans hjy')
    obtain ⟨hmul, hpos⟩ := hproduct y hylow hyx
    exact ⟨_, by rw [hweights j hj, hjy, hnorm, hmul], hpos, hone y hyx⟩
  · exact ⟨_, by rw [hweights i hi, hix, hnorm, (hproduct x hxlow le_rfl).1], hlow⟩

/-- For every builder with a value, `compute_rel_weights` sets positive weights of at most one, the
largest one up to a rounding, and writes them into large enough an array. -/
theorem computeRelWeightsF64_spec (b : Build) (hpow : InverseSquare pow) (memory : ℕ → Double)
    (filter : OutlierFilter Double) (h : target.IsHistogram m) (hsome : m ≠ 0)
    (hfits : m.card < 2 ^ 64) (hrange : ∀ v ∈ m, -2 ^ 63 ≤ v ∧ v < 2 ^ 63) :
    ∃ relWeights, computeRelWeightsF64 b pow memory filter target
        = some (computeRelWeights relWeights filter target) ∧
      RelWeights target relWeights := by
  have hbins := h.numBins_pos hsome
  have hvalues : ∀ i < target.numBins,
      -2 ^ 63 ≤ target.sortedValues i ∧ target.sortedValues i < 2 ^ 63 :=
    fun i hi => hrange _ (h.mem_iff.mpr ⟨i, hi, rfl⟩)
  generalize hgrown : (if filter.binCapacity < target.numBins then
      { filter with binWeights := memory, binCapacity := target.numBins }
    else filter) = grown
  have hcapacity : grown.binCapacity = max filter.binCapacity target.numBins := by
    rw [← hgrown]
    split_ifs with hlt
    · exact (max_eq_right hlt.le).symm
    · exact (max_eq_left (not_lt.mp hlt)).symm
  have hroom : target.numBins ≤ grown.binCapacity := hcapacity ▸ le_max_right _ _
  have hresult : ∀ weights, { grown with binWeights := weights }
      = computeRelWeights weights filter target := by
    intro weights
    rw [computeRelWeights, ← hcapacity, ← hgrown]
    split_ifs <;> rfl
  rw [computeRelWeightsF64]
  simp only [hgrown, if_neg hbins.ne', hresult]
  by_cases hone : target.numBins = 1
  · rw [if_pos hone, if_neg (by omega)]
    refine ⟨_, rfl, fun i hi => ⟨1, ?_, one_pos, le_rfl⟩, 0, hbins, 1, update_self _ _ _, ?_⟩
    · rw [hone, Nat.lt_one_iff] at hi
      rw [hi, update_self]
    · norm_num
  · rw [if_neg hone]
    obtain ⟨raw, top, hraw, hwithin, htop⟩ :=
      rawWeights_spec b hpow h hfits hvalues (by omega) hroom grown.binWeights
    simp only [hraw, Option.bind_eq_bind, Option.bind_some]
    exact ⟨_, rfl, htop.relWeights hbins hwithin (normalizeLoop_eq raw _ _)⟩

/-- A correctly rounded inverse square. -/
def inverseSquare : Double → Double → Double
  | .finite x, .finite _ => .ofExact (x ^ 2)⁻¹
  | _, _ => .nan

theorem inverseSquare_spec : InverseSquare inverseSquare := by
  intro x hlow hhigh
  have hx0 : 0 < x := (zpow_pos two_pos _).trans_le hlow
  have hinv : (x ^ 2)⁻¹ ≤ 2 ^ (140 : ℤ) := by
    calc (x ^ 2)⁻¹ ≤ ((2 ^ (-70 : ℤ)) ^ 2)⁻¹ := by gcongr
      _ = 2 ^ (140 : ℤ) := by norm_num
  have hinv' : 2 ^ (-140 : ℤ) ≤ (x ^ 2)⁻¹ := by
    calc (2 : ℚ) ^ (-140 : ℤ) = ((2 ^ (70 : ℤ)) ^ 2)⁻¹ := by norm_num
      _ ≤ (x ^ 2)⁻¹ := by gcongr
  have hpos : 0 < (x ^ 2)⁻¹ := by positivity
  refine ⟨binary64.round (x ^ 2)⁻¹, ?_, round_nonneg hpos.le, ?_⟩
  · refine (Double.isFinite_zpow (k := 140) (by decide) (by decide)).ofExact_of_le ?_
    rwa [abs_of_pos hpos]
  · have herr := (relApprox_round (F := binary64) (x := (x ^ 2)⁻¹) (.inr (by
      rw [abs_of_pos hpos]
      exact (zpow_le_zpow_right₀ one_le_two (by decide)).trans hinv'))).abs_le
    rw [abs_of_pos hpos, abs_of_nonneg (round_nonneg hpos.le)] at herr
    refine herr.trans (mul_le_mul_of_nonneg_right ?_ hpos.le)
    simp only [binary64]
    norm_num

/-- A builder with two values -5, one 3 and four 10. -/
def threeCounts : Distribution where
  allocation := { sortedValues := fun i => [-5, 3, 10].getD i 0, counts := fun i =>
    [2, 1, 4].getD i 0 }
  numBins := 3
  capacity := 4

theorem threeCounts_isHistogram : threeCounts.IsHistogram {-5, -5, 3, 10, 10, 10, 10} where
  increasing := strictMonoOn_Iio_iff.mpr (by decide)
  positive := by decide
  contents := by decide
  room := by decide
  capacity := by decide

/-- The weights of three bins. -/
theorem computeRelWeightsF64_spec_grown :
    ∃ relWeights, computeRelWeightsF64 ⟨true⟩ inverseSquare (fun _ => .nan)
        ⟨fun _ => .nan, 2, ⟨smallBuilder, false⟩, ⟨smallBuilder, false⟩⟩ threeCounts
        = some (computeRelWeights relWeights
          ⟨fun _ => .nan, 2, ⟨smallBuilder, false⟩, ⟨smallBuilder, false⟩⟩ threeCounts) ∧
      RelWeights threeCounts relWeights :=
  computeRelWeightsF64_spec ⟨true⟩ inverseSquare_spec (fun _ => .nan)
    ⟨fun _ => .nan, 2, ⟨smallBuilder, false⟩, ⟨smallBuilder, false⟩⟩ threeCounts_isHistogram
    (by decide) (by decide) (by decide)

end Udipe

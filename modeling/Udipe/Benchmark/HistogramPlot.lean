import Udipe.Benchmark.Scaling
import Udipe.Lib.Intervals

/-!
# The histogram of a distribution

Reference: `benchmark/distribution_log.h`, `benchmark/distribution_log.c`.

The range of the values is cut into as many intervals as the display has lines, or as there are integers
in it. The bounds come from an interpolation in integers, counted from the last value. Only plots of type
`HISTOGRAM` are here: a coordinate is a value on the abscissa and a count on the ordinate.
-/

namespace Udipe

open Function Finset

/-- `axis_len_t`. -/
structure AxisLen where
  abscissa : ℕ
  ordinate : ℕ

/-- `range_t`, of values. -/
structure ValueRange where
  first : ℤ
  last : ℤ

/-- `DISTRIBUTION_HEIGHT`. -/
def distributionHeight : ℕ := 25

/-- `max_plot_axis_len`. -/
def maxPlotAxisLen : AxisLen :=
  let ordinateLen := distributionHeight - 1
  { abscissa := ordinateLen + 1, ordinate := ordinateLen }

/-- `distribution_min_value`. -/
def distributionMinValue (b : Build) (dist : Distribution) : Option ℤ := do
  b.assert (decide (1 ≤ dist.numBins))
  some (dist.sortedValues 0)

/-- `distribution_max_value`. -/
def distributionMaxValue (b : Build) (dist : Distribution) : Option ℤ := do
  b.assert (decide (1 ≤ dist.numBins))
  some (dist.sortedValues (dist.numBins - 1))

/-- `plot_autoscale_abscissa`. -/
def plotAutoscaleAbscissa (b : Build) (dist : Distribution) : Option ValueRange := do
  let first ← distributionMinValue b dist
  let last ← distributionMaxValue b dist
  some { first := first, last := last }

/-- The conversion of an `int64_t` to `size_t`. -/
def sizeOfInt64 (x : ℤ) : ℕ := (x % 2 ^ 64).toNat

/-- The conversion of a difference of `size_t` to `int64_t`. -/
def int64OfSize (x : ℤ) : ℤ := Int.bmod x (2 ^ 64)

/-- `plot_compute_abscissa`. -/
def plotComputeAbscissa (abscissa : ℕ → ℤ) (range : ValueRange) (len : AxisLen) :
    Option ((ℕ → ℤ) × AxisLen) :=
  if 2 ≤ len.abscissa then
    let first := range.first
    let last := range.last
    let numDistinctAbscissa := sizeOfInt64 (last - first + 1)
    let maxDisplayedAbscissa := (numDistinctAbscissa + 1) % 2 ^ 64
    let excessLen :=
      if maxDisplayedAbscissa < len.abscissa then len.abscissa - maxDisplayedAbscissa else 0
    let len : AxisLen :=
      { abscissa := len.abscissa - excessLen, ordinate := len.ordinate - excessLen }
    let lastA := len.abscissa - 1
    let abscissa := forRange 1 lastA (update abscissa 0 first) fun abscissa a =>
      let numAbscissaAfter : ℕ := numDistinctAbscissa * (lastA - a) % 2 ^ 64 / lastA
      update abscissa a (int64OfSize (last - numAbscissaAfter))
    some (abscissa, len)
  else none

/-- A round of `plot_compute_ordinate`. The state also has the rank where the interval starts. -/
def ordinateRound (b : Build) (dist : Distribution) (abscissa : ℕ → ℤ) (s : (ℕ → ℕ) × ℕ) (o : ℕ) :
    Option ((ℕ → ℕ) × ℕ) := do
  let (ordinate, startRank) := s
  let endRank ← distributionCountBelow b dist (abscissa (o + 1)) true
  if abscissa o < abscissa (o + 1) ∨ o = 0 then
    let count := sizeSub endRank startRank
    some (update ordinate o count, endRank)
  else do
    b.assert (decide (abscissa (o + 1) = abscissa o))
    some (update ordinate o (ordinate (o - 1)), endRank)

/-- `plot_compute_ordinate`. -/
def plotComputeOrdinate (b : Build) (dist : Distribution) (abscissa : ℕ → ℤ) (ordinate : ℕ → ℕ)
    (len : AxisLen) : Option (ℕ → ℕ) :=
  if len.abscissa = len.ordinate + 1 then do
    let startRank ← distributionCountBelow b dist (abscissa 0) false
    let (ordinate, _) ← forRangeM 0 len.ordinate (ordinate, startRank) (ordinateRound b dist abscissa)
    some ordinate
  else none

/-- What `log_plot` computes before it draws: the abscissas, the ordinates and how many there are. -/
def plotHistogram (b : Build) (dist : Distribution) (abscissa : ℕ → ℤ) (ordinate : ℕ → ℕ)
    (len : AxisLen) : Option ((ℕ → ℤ) × (ℕ → ℕ) × AxisLen) := do
  let range ← plotAutoscaleAbscissa b dist
  let (abscissa, len) ← plotComputeAbscissa abscissa range len
  let ordinate ← plotComputeOrdinate b dist abscissa ordinate len
  some (abscissa, ordinate, len)

/-! ## The abscissas -/

variable {b : Build} {dist : Distribution} {range : ValueRange} {len : AxisLen}
  {abscissa : ℕ → ℤ} {ordinate : ℕ → ℕ} {L a o : ℕ}

/-- The number of integers in a range. -/
def ValueRange.size (range : ValueRange) : ℕ := (range.last - range.first + 1).toNat

/-- The number of intervals of a range. -/
def numIntervals (range : ValueRange) (len : AxisLen) : ℕ := min len.ordinate range.size

/-- The arithmetic of `plot_compute_abscissa` does not overflow. -/
structure ValueRange.Fits (range : ValueRange) (len : AxisLen) : Prop where
  first : -2 ^ 63 ≤ range.first
  last : range.last < 2 ^ 63
  size : range.last - range.first + 1 < 2 ^ 63
  product : range.size * (numIntervals range len - 1) < 2 ^ 64

/-- The bound between interval `a` and the next one. The first interval starts before the first
value. -/
def plotBound (range : ValueRange) (L a : ℕ) : ℤ := range.last - gapAfter range.size L a

theorem plotBound_zero (hle : range.first ≤ range.last) (hL : 0 < L) :
    plotBound range L 0 = range.first - 1 := by
  rw [plotBound, gapAfter_zero _ hL, ValueRange.size, Int.toNat_of_nonneg (by omega)]
  ring

theorem plotBound_last (range : ValueRange) (L : ℕ) : plotBound range L L = range.last := by
  simp [plotBound]

theorem plotBound_lt (hL : L ≤ range.size) (ha : a < L) :
    plotBound range L a < plotBound range L (a + 1) := by
  have hgap := gapAfter_succ_lt hL ha
  rw [plotBound, plotBound]
  omega

theorem int64OfSize_eq {x : ℤ} (hlow : -2 ^ 63 ≤ x) (hhigh : x < 2 ^ 63) : int64OfSize x = x := by
  rw [int64OfSize, Int.bmod_eq_of_le] <;> omega

theorem plotBound_mono (hL : L ≤ range.size) {a' : ℕ} (haa' : a ≤ a') (ha' : a' ≤ L) :
    plotBound range L a ≤ plotBound range L a' := by
  induction a', haa' using Nat.le_induction with
  | base => exact le_rfl
  | succ a' haa' ih => exact (ih (by omega)).trans (plotBound_lt hL (by omega)).le

/-- The bounds after the first interval are in the range. -/
theorem plotBound_mem (hle : range.first ≤ range.last) (hL : L ≤ range.size) (ha : 1 ≤ a)
    (haL : a ≤ L) : range.first ≤ plotBound range L a ∧ plotBound range L a ≤ range.last := by
  have hstart := plotBound_lt hL (show 0 < L by omega)
  rw [plotBound_zero hle (by omega), Nat.zero_add] at hstart
  have hlow := plotBound_mono hL ha haL
  have hhigh := plotBound_mono hL haL le_rfl
  rw [plotBound_last] at hhigh
  exact ⟨by omega, hhigh⟩

/-- The excess is what makes the axis as long as there are intervals. -/
theorem shortenedLen (hle : range.first ≤ range.last) (hlen : len.abscissa = len.ordinate + 1)
    (hfits : range.Fits len) :
    sizeOfInt64 (range.last - range.first + 1) = range.size ∧
      len.abscissa - (if (range.size + 1) % 2 ^ 64 < len.abscissa then
        len.abscissa - (range.size + 1) % 2 ^ 64 else 0) = numIntervals range len + 1 ∧
      len.ordinate - (if (range.size + 1) % 2 ^ 64 < len.abscissa then
        len.abscissa - (range.size + 1) % 2 ^ 64 else 0) = numIntervals range len := by
  have hsize := hfits.size
  have hdistinct : sizeOfInt64 (range.last - range.first + 1) = range.size := by
    rw [sizeOfInt64, ValueRange.size]
    omega
  have hdisplayed : (range.size + 1) % 2 ^ 64 = range.size + 1 := by
    rw [ValueRange.size]
    omega
  have hpos : 1 ≤ range.size := by
    rw [ValueRange.size]
    omega
  rw [hdisplayed, numIntervals]
  refine ⟨hdistinct, ?_⟩
  split <;> exact ⟨by omega, by omega⟩

/-- The abscissas are the bounds, but for the first one, which is the first value. -/
theorem plotComputeAbscissa_spec (abscissa : ℕ → ℤ) (hle : range.first ≤ range.last)
    (hlen : len.abscissa = len.ordinate + 1) (hsome : 1 ≤ len.ordinate) (hfits : range.Fits len) :
    ∃ abscissa', plotComputeAbscissa abscissa range len =
        some (abscissa', ⟨numIntervals range len + 1, numIntervals range len⟩) ∧
      abscissa' 0 = range.first ∧
      ∀ a, 1 ≤ a → a ≤ numIntervals range len →
        abscissa' a = plotBound range (numIntervals range len) a := by
  obtain ⟨hdistinct, habscissa, hordinate⟩ := shortenedLen hle hlen hfits
  have hproduct := hfits.product
  have hL : numIntervals range len ≤ range.size := min_le_right ..
  rw [plotComputeAbscissa, if_pos (by omega)]
  simp only [hdistinct, habscissa, hordinate, Nat.add_sub_cancel]
  generalize numIntervals range len = L at *
  have hloop := forRange_induction 1 L (update abscissa 0 range.first)
    (fun abscissa a => update abscissa a
      (int64OfSize (range.last - (range.size * (L - a) % 2 ^ 64 / L : ℕ))))
    (fun k abscissa => abscissa 0 = range.first ∧
      ∀ a, 1 ≤ a → a < k → abscissa a = plotBound range L a)
    ⟨update_self .., fun a ha hlt => absurd hlt (by omega)⟩ ?_
  · obtain ⟨hfirst, hbounds⟩ := hloop
    exact ⟨_, rfl, hfirst, fun a ha haL => hbounds a ha (by omega)⟩
  · rintro k abscissa hk hkL ⟨hfirst, hbounds⟩
    refine ⟨by rw [update_of_ne (by omega), hfirst], fun a ha hlt => ?_⟩
    rcases eq_or_ne a k with rfl | hne
    · have hfits' : range.size * (L - a) < 2 ^ 64 :=
        (Nat.mul_le_mul_left _ (by omega)).trans_lt hproduct
      obtain ⟨hlow, hhigh⟩ := plotBound_mem hle hL ha (by omega)
      have hfirst := hfits.first
      have hlast := hfits.last
      rw [update_self, Nat.mod_eq_of_lt hfits']
      exact int64OfSize_eq (hfirst.trans hlow) (hhigh.trans_lt hlast)
    · rw [update_of_ne hne]
      exact hbounds a ha (by omega)

/-! ## The ordinates -/

/-- The values of a built distribution are as many as a `size_t` can count. -/
theorem Distribution.Built.countP_lt (h : dist.Built) (p : ℤ → Bool) :
    dist.values.countP p < 2 ^ 64 :=
  List.countP_le_length.trans_lt h.length_values_lt

/-- Each ordinate is the number of values between two bounds. -/
theorem plotComputeOrdinate_spec (b : Build) (h : dist.Built) (ordinate : ℕ → ℕ) {bound : ℕ → ℤ}
    (hstart : bound 0 = abscissa 0 - 1)
    (hbounds : ∀ a, 1 ≤ a → a ≤ L → abscissa a = bound a)
    (hincreasing : ∀ a < L, bound a < bound (a + 1)) :
    ∃ ordinate', plotComputeOrdinate b dist abscissa ordinate ⟨L + 1, L⟩ = some ordinate' ∧
      ∀ o < L, ordinate' o = countBetween dist.values (bound o) (bound (o + 1)) := by
  have hbelow : (fun x : ℤ => decide (x < abscissa 0)) = fun x => decide (x ≤ bound 0) := by
    funext x
    rw [decide_eq_decide, hstart, Int.le_sub_one_iff]
  have hrounds := forRangeM_induction 0 L
    (ordinate, dist.values.countP fun x => decide (x ≤ bound 0)) (ordinateRound b dist abscissa)
    (fun k s => (∀ o < k, s.1 o = countBetween dist.values (bound o) (bound (o + 1))) ∧
      s.2 = dist.values.countP fun x => decide (x ≤ bound k))
    ⟨fun o ho => absurd ho (Nat.not_lt_zero o), rfl⟩ ?_
  · obtain ⟨⟨ordinate', endRank⟩, hloop, hcounts, -⟩ := hrounds
    refine ⟨ordinate', ?_, fun o ho => hcounts o (by omega)⟩
    rw [plotComputeOrdinate, if_pos rfl, h.distributionCountBelow_exclusive, hbelow]
    simp only [Option.bind_eq_bind, Option.bind_some, hloop]
  · rintro o ⟨ordinate, startRank⟩ - ho ⟨hcounts, hrank⟩
    rw [Nat.zero_add] at ho
    have hend := hbounds (o + 1) (by omega) ho
    have hcond : abscissa o < abscissa (o + 1) ∨ o = 0 := by
      rcases Nat.eq_zero_or_pos o with rfl | hpos
      · exact .inr rfl
      · left
        rw [hbounds o hpos ho.le, hend]
        exact hincreasing o ho
    have hadd := countP_le_add_countBetween dist.values (hincreasing o ho).le
    refine ⟨(update ordinate o (countBetween dist.values (bound o) (bound (o + 1))),
      dist.values.countP fun x => decide (x ≤ bound (o + 1))), ?_, ?_, rfl⟩
    · simp only at hrank
      simp only [ordinateRound, h.distributionCountBelow_inclusive, hend, Option.bind_eq_bind,
        Option.bind_some]
      rw [if_pos (hend ▸ hcond), hrank, sizeSub_eq (by omega) (h.countP_lt _), ← hadd,
        Nat.add_sub_cancel_left]
    · intro o' ho'
      rcases eq_or_ne o' o with rfl | hne
      · exact update_self ..
      · exact (update_of_ne hne _ _).trans (hcounts o' (by omega))

/-! ## The partition -/

/-- What the coordinates of a histogram of `dist` should be. -/
structure PlotPartitions (dist : Distribution) (abscissa : ℕ → ℤ) (ordinate : ℕ → ℕ)
    (len : AxisLen) : Prop where
  nonempty : 1 ≤ len.ordinate ∧ len.abscissa = len.ordinate + 1
  first : IsLeast {x | x ∈ dist.values} (abscissa 0)
  last : IsGreatest {x | x ∈ dist.values} (abscissa len.ordinate)
  firstInterval : abscissa 0 ≤ abscissa 1
  increasing : ∀ a, 1 ≤ a → a < len.ordinate → abscissa a < abscissa (a + 1)
  firstOrdinate : ordinate 0 = dist.values.countP fun x => decide (abscissa 0 ≤ x ∧ x ≤ abscissa 1)
  ordinates : ∀ o, 1 ≤ o → o < len.ordinate →
    ordinate o = dist.values.countP fun x => decide (abscissa o < x ∧ x ≤ abscissa (o + 1))
  total : ∑ o ∈ Finset.range len.ordinate, ordinate o = dist.values.length

namespace Distribution.Built

theorem first_isLeast (h : dist.Built) : IsLeast {x | x ∈ dist.values} (dist.sortedValues 0) := by
  refine ⟨h.mem_values.mpr ⟨0, h.nonempty, rfl⟩, fun x hx => ?_⟩
  obtain ⟨i, hi, rfl⟩ := h.mem_values.mp hx
  exact (h.increasing.le_iff_le h.nonempty hi).mpr (Nat.zero_le i)

theorem last_isGreatest (h : dist.Built) :
    IsGreatest {x | x ∈ dist.values} (dist.sortedValues (dist.numBins - 1)) := by
  have hlast : dist.numBins - 1 < dist.numBins := Nat.sub_lt h.nonempty one_pos
  refine ⟨h.mem_values.mpr ⟨_, hlast, rfl⟩, fun x hx => ?_⟩
  obtain ⟨i, hi, rfl⟩ := h.mem_values.mp hx
  exact (h.increasing.le_iff_le hi hlast).mpr (by omega)

theorem plotAutoscaleAbscissa_eq (b : Build) (h : dist.Built) : plotAutoscaleAbscissa b dist =
    some ⟨dist.sortedValues 0, dist.sortedValues (dist.numBins - 1)⟩ := by
  have hassert := b.assert_decide (show 1 ≤ dist.numBins from h.nonempty)
  simp only [plotAutoscaleAbscissa, distributionMinValue, distributionMaxValue, hassert,
    Option.bind_eq_bind, Option.bind_some]

end Distribution.Built

/-- For every distribution and every length of the axes, the histogram is a partition of the values,
whatever the buffers hold before. -/
theorem histogramPlot_partitions (b : Build) (h : dist.Built) (abscissa : ℕ → ℤ) (ordinate : ℕ → ℕ)
    (hlen : len.abscissa = len.ordinate + 1) (hsome : 1 ≤ len.ordinate)
    (hfits : (ValueRange.mk (dist.sortedValues 0) (dist.sortedValues (dist.numBins - 1))).Fits len) :
    ∃ abscissa' ordinate' len', plotHistogram b dist abscissa ordinate len
        = some (abscissa', ordinate', len') ∧
      len'.ordinate ≤ len.ordinate ∧ PlotPartitions dist abscissa' ordinate' len' := by
  have hleast := h.first_isLeast
  have hgreatest := h.last_isGreatest
  generalize hrange : ValueRange.mk (dist.sortedValues 0) (dist.sortedValues (dist.numBins - 1)) = range
    at hfits
  have hfirst : dist.sortedValues 0 = range.first := by rw [← hrange]
  have hlast : dist.sortedValues (dist.numBins - 1) = range.last := by rw [← hrange]
  have hle : range.first ≤ range.last := by
    rw [← hfirst, ← hlast]
    exact hleast.2 hgreatest.1
  obtain ⟨abscissa', habscissa, hzero, hbounds⟩ := plotComputeAbscissa_spec abscissa hle hlen hsome hfits
  have hsize : 1 ≤ range.size := by
    rw [ValueRange.size]
    omega
  have hL : numIntervals range len ≤ range.size := min_le_right ..
  have hpos : 1 ≤ numIntervals range len := le_min hsome hsize
  have hshort : numIntervals range len ≤ len.ordinate := min_le_left ..
  generalize numIntervals range len = L at *
  have hincreasing : ∀ a < L, plotBound range L a < plotBound range L (a + 1) := fun a ha =>
    plotBound_lt hL ha
  have hstart : plotBound range L 0 = abscissa' 0 - 1 := by rw [plotBound_zero hle hpos, hzero]
  obtain ⟨ordinate', hordinate, hcounts⟩ := plotComputeOrdinate_spec b h ordinate hstart
    hbounds hincreasing
  refine ⟨abscissa', ordinate', ⟨L + 1, L⟩, ?_, hshort, ⟨hpos, rfl⟩, ?_, ?_, ?_, ?_, ?_, ?_, ?_⟩
  · rw [plotHistogram, h.plotAutoscaleAbscissa_eq b, hrange]
    simp only [Option.bind_eq_bind, Option.bind_some, habscissa, hordinate]
  · rw [hzero, ← hfirst]
    exact hleast
  · rw [hbounds L hpos le_rfl, plotBound_last, ← hlast]
    exact hgreatest
  · rw [hzero, hbounds 1 le_rfl hpos]
    exact (plotBound_mem hle hL le_rfl hpos).1
  · intro a ha haL
    rw [hbounds a ha haL.le, hbounds (a + 1) (by omega) haL]
    exact hincreasing a haL
  · rw [hcounts 0 hpos, countBetween, hstart, hbounds 1 le_rfl hpos]
    congr 1
    funext x
    rw [decide_eq_decide, Int.sub_one_lt_iff]
  · intro o ho hoL
    rw [hcounts o hoL, countBetween, hbounds o ho hoL.le, hbounds (o + 1) (by omega) hoL]
  · have hsum := sum_countBetween dist.values fun i hi => (hincreasing i hi).le
    have hnone : dist.values.countP (fun x => decide (x ≤ plotBound range L 0)) = 0 := by
      rw [List.countP_eq_zero]
      intro x hx
      have hmin : dist.sortedValues 0 ≤ x := hleast.2 hx
      rw [decide_eq_true_eq, hstart, hzero, ← hfirst]
      omega
    have hall : dist.values.countP (fun x => decide (x ≤ plotBound range L L)) =
        dist.values.length := by
      rw [List.countP_eq_length]
      intro x hx
      rw [decide_eq_true_eq, plotBound_last, ← hlast]
      exact hgreatest.2 hx
    rw [hnone, hall, Nat.zero_add] at hsum
    rw [← hsum]
    exact Finset.sum_congr rfl fun o ho => hcounts o (Finset.mem_range.mp ho)

/-- The lengths that `log_plot` asks for, on values from -5 to 10. -/
theorem histogramPlot_partitions_threeRuns : ∃ abscissa ordinate len,
    plotHistogram ⟨true⟩ threeRuns (fun _ => 0) (fun _ => 0) maxPlotAxisLen
        = some (abscissa, ordinate, len) ∧
      len.ordinate ≤ 24 ∧ PlotPartitions threeRuns abscissa ordinate len :=
  histogramPlot_partitions ⟨true⟩ threeRuns_built (fun _ => 0) (fun _ => 0) rfl (by decide)
    ⟨by decide, by decide, by decide, by decide⟩

end Udipe

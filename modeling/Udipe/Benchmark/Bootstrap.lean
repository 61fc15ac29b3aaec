import Udipe.Benchmark.Means
import Udipe.Benchmark.Sampling

/-!
# Bootstrap resampling

Reference: `benchmark/statistics.h`, `benchmark/statistics.c`, `benchmark/distribution.c`.

`analyzer_apply` computes six statistics of a distribution and of resamples of it, and reads
confidence intervals from the sorted statistics of the resamples. `draws` has the numbers that `rand`
answers in each run, `memory` and `accumulators` what `malloc` does.
-/

namespace Udipe

open Function FloatFormat

/-! ## Resampling -/

/-- `distribution_resample`. -/
def distributionResample (b : Build) (builder dist : Distribution) (draws : ℕ → ℕ)
    (memory : ℕ → Allocation) : Option Distribution :=
  if builder.numBins ≠ 0 then none
  else do
    let len ← distributionLen b dist
    let builder ← forRangeM 0 len builder fun builder i => do
      let value ← distributionChoose b dist (draws i)
      distributionInsert b builder value (memory i)
    distributionBuild builder

/-! ## The analyzer -/

/-- `estimate_t`. -/
structure Estimate where
  sample : Double
  low : Double
  high : Double
deriving DecidableEq

/-- `statistics_t`. -/
structure Statistics where
  centerStart : Estimate
  lowTailBound : Estimate
  mean : Estimate
  highTailBound : Estimate
  centerEnd : Estimate
  centerWidth : Estimate

/-- `DISPERSION_EXCLUDED_FRACTION`. -/
def dispersionExcludedFraction : Double := .ofExact (5 / 100)

/-- `CENTER_START_QUANTILE`. -/
def centerStartQuantile : Double := dispersionExcludedFraction.div (.finite 2)

/-- `CENTER_END_QUANTILE`. -/
def centerEndQuantile : Double :=
  (Double.finite 1).sub (dispersionExcludedFraction.div (.finite 2))

/-- `LOW_TAIL_QUANTILE`. -/
def lowTailQuantile : Double := dispersionExcludedFraction

/-- `HIGH_TAIL_QUANTILE`. -/
def highTailQuantile : Double := (Double.finite 1).sub dispersionExcludedFraction

/-- `CONFIDENCE`. -/
def confidence : Double := .ofExact (95 / 100)

/-- `compare_f64`. -/
def compareF64 (d1 d2 : Double) : ℤ :=
  if d1.lt d2 then -1
  else if d2.lt d1 then 1
  else 0

/-- `qsort` with this comparison. -/
def sortF64 (values : List Double) : List Double :=
  values.mergeSort fun d1 d2 => decide (compareF64 d1 d2 ≤ 0)

/-- `analyzer->statistics[stat][run] = value`. -/
def Analyzer.setStatistic (analyzer : Analyzer) (stat : StatisticId) (run : ℕ) (value : Double) :
    Analyzer :=
  { analyzer with
    statistics := update analyzer.statistics stat (update (analyzer.statistics stat) run value) }

/-- `analyzer->statistics[stat][idx]`. -/
def Analyzer.statistic (analyzer : Analyzer) (stat : StatisticId) (idx : ℕ) : Option Double :=
  if idx < numResamples then some (analyzer.statistics stat idx) else none

/-- `set_result_confidence`. -/
def setResultConfidence (analyzer : Analyzer) (stat : StatisticId) (estimate : Estimate) :
    Option (Estimate × Analyzer) := do
  let sorted := sortF64 ((List.range numResamples).map (analyzer.statistics stat))
  let analyzer :=
    { analyzer with
      statistics := update analyzer.statistics stat fun idx =>
        sorted.getD idx (analyzer.statistics stat idx) }
  let lastIdx := numResamples - 1
  let lowIdx ←
    ((((Double.finite 1).sub confidence).div (.finite 2)).mul (.ofSize lastIdx)).roundSize
  let highIdx ←
    ((((Double.finite 1).add confidence).div (.finite 2)).mul (.ofSize lastIdx)).roundSize
  let low ← analyzer.statistic stat lowIdx
  let high ← analyzer.statistic stat highIdx
  some ({ estimate with low := low, high := high }, analyzer)

/-- A run of the loop of `analyzer_apply`. -/
def resampleRound (b : Build) (dist : Distribution) (draws : ℕ → ℕ → ℕ)
    (memory : ℕ → ℕ → Allocation) (accumulators : ℕ → ℕ → Double) (analyzer : Analyzer)
    (run : ℕ) : Option Analyzer := do
  let resample ←
    distributionResample b analyzer.resampleBuilder dist (draws run) (memory run)
  let (mean, analyzer) ← analyzeMean b analyzer resample (accumulators run)
  let analyzer := analyzer.setStatistic .mean run mean
  let centerStart ← distributionQuantile b resample centerStartQuantile
  let analyzer := analyzer.setStatistic .centerStart run (.ofI64 centerStart)
  let lowTailBound ← distributionQuantile b resample lowTailQuantile
  let analyzer := analyzer.setStatistic .lowTailBound run (.ofI64 lowTailBound)
  let highTailBound ← distributionQuantile b resample highTailQuantile
  let analyzer := analyzer.setStatistic .highTailBound run (.ofI64 highTailBound)
  let centerEnd ← distributionQuantile b resample centerEndQuantile
  let analyzer := analyzer.setStatistic .centerEnd run (.ofI64 centerEnd)
  let analyzer :=
    analyzer.setStatistic .centerWidth run (.ofI64 (int64Sub centerEnd centerStart))
  some { analyzer with resampleBuilder := distributionReset resample }

/-- An estimate whose bounds are not set yet; they are arbitrary in C. -/
def Estimate.ofSample (sample : Double) : Estimate := ⟨sample, .nan, .nan⟩

/-- `analyzer_apply`. The allocation of `analyze_mean` for the sample is `sampleAccumulators`. -/
def analyzerApply (b : Build) (analyzer : Analyzer) (dist : Distribution) (draws : ℕ → ℕ → ℕ)
    (memory : ℕ → ℕ → Allocation) (sampleAccumulators : ℕ → Double)
    (accumulators : ℕ → ℕ → Double) : Option (Statistics × Analyzer) := do
  let centerStart ← distributionQuantile b dist centerStartQuantile
  let lowTailBound ← distributionQuantile b dist lowTailQuantile
  let (mean, analyzer) ← analyzeMean b analyzer dist sampleAccumulators
  let highTailBound ← distributionQuantile b dist highTailQuantile
  let centerEnd ← distributionQuantile b dist centerEndQuantile
  let centerWidth := (Double.ofI64 centerEnd).sub (.ofI64 centerStart)
  let analyzer ← forRangeM 0 numResamples analyzer
    (resampleRound b dist draws memory accumulators)
  let (centerStart, analyzer) ←
    setResultConfidence analyzer .centerStart (.ofSample (.ofI64 centerStart))
  let (lowTailBound, analyzer) ←
    setResultConfidence analyzer .lowTailBound (.ofSample (.ofI64 lowTailBound))
  let (mean, analyzer) ← setResultConfidence analyzer .mean (.ofSample mean)
  let (highTailBound, analyzer) ←
    setResultConfidence analyzer .highTailBound (.ofSample (.ofI64 highTailBound))
  let (centerEnd, analyzer) ←
    setResultConfidence analyzer .centerEnd (.ofSample (.ofI64 centerEnd))
  let (centerWidth, analyzer) ←
    setResultConfidence analyzer .centerWidth (.ofSample centerWidth)
  some (⟨centerStart, lowTailBound, mean, highTailBound, centerEnd, centerWidth⟩, analyzer)

/-- The estimate of a statistic. -/
def Statistics.estimate (stats : Statistics) : StatisticId → Estimate
  | .centerStart => stats.centerStart
  | .lowTailBound => stats.lowTailBound
  | .mean => stats.mean
  | .highTailBound => stats.highTailBound
  | .centerEnd => stats.centerEnd
  | .centerWidth => stats.centerWidth

variable {dist builder result : Distribution} {f g : StatisticId → ℚ}

/-! ## Resamples -/

/-- A resample has as many values as the distribution, each drawn from it. -/
theorem distributionResample_spec (b : Build) (h : dist.Built) (hempty : builder.numBins = 0)
    (hroom : 0 < builder.capacity) (draws : ℕ → ℕ) (memory : ℕ → Allocation) :
    ∃ result, distributionResample b builder dist draws memory = some result ∧ result.Built ∧
      (result.values : Multiset ℤ) = ((List.range dist.values.length).map fun i =>
        dist.values.getD (draws i % dist.values.length) 0 : List ℤ) := by
  have hlength := h.length_values_pos
  generalize hxs : ((List.range dist.values.length).map fun i =>
    dist.values.getD (draws i % dist.values.length) 0) = xs
  have hxslen : xs.length = dist.values.length := by
    rw [← hxs, List.length_map, List.length_range]
  have hchoose : ∀ i (hi : i < xs.length), distributionChoose b dist (draws i) = some xs[i] := by
    intro i hi
    have hrank : draws i % dist.values.length < dist.values.length := Nat.mod_lt _ hlength
    have hxi : xs[i] = dist.values[draws i % dist.values.length] := by
      simp only [← hxs, List.getElem_map, List.getElem_range, List.getD_eq_getElem _ _ hrank]
    rw [hxi, distributionChoose, b.assert_decide (show 1 ≤ dist.numBins from h.nonempty),
      h.distributionLen_eq b]
    simp only [Option.bind_eq_bind, Option.bind_some]
    rw [if_neg hlength.ne', h.distributionNth_eq b hrank, List.getElem?_eq_getElem hrank]
  obtain ⟨inner, hloop, hinner⟩ := (Distribution.IsHistogram.empty hempty hroom).insertLoop b
    (hxslen ▸ h.length_values_lt) hchoose memory
  have hcard : (xs : Multiset ℤ).card < 2 ^ 64 := by
    rw [Multiset.coe_card, hxslen]
    exact h.length_values_lt
  have hsome : (xs : Multiset ℤ) ≠ 0 := by
    intro hzero
    rw [Multiset.coe_eq_zero] at hzero
    rw [hzero] at hxslen
    exact hlength.ne hxslen
  obtain ⟨result, hbuild, hbuilt, hvalues, -⟩ := hinner.build (hinner.numBins_pos hsome) hcard
  refine ⟨result, ?_, hbuilt, hvalues⟩
  rw [distributionResample, if_neg (not_not.mpr hempty), h.distributionLen_eq b, ← hxslen]
  simp only [Option.bind_eq_bind, Option.bind_some, hloop]
  exact hbuild

/-! ## Quantiles -/

/-- The probabilities of the dispersion study. -/
def dispersionProbability : StatisticId → ℚ
  | .centerStart => 3602879701896397 / 2 ^ 57
  | .lowTailBound => 3602879701896397 / 2 ^ 56
  | .highTailBound => 4278419646001971 / 2 ^ 52
  | .centerEnd => 8782019273372467 / 2 ^ 53
  | _ => 0

theorem quantiles_eq : centerStartQuantile = .finite (dispersionProbability .centerStart) ∧
    lowTailQuantile = .finite (dispersionProbability .lowTailBound) ∧
    highTailQuantile = .finite (dispersionProbability .highTailBound) ∧
    centerEndQuantile = .finite (dispersionProbability .centerEnd) := by decide +kernel

theorem dispersionProbability_mem (stat : StatisticId) :
    0 ≤ dispersionProbability stat ∧ dispersionProbability stat ≤ 63 / 64 := by
  cases stat <;> simp only [dispersionProbability] <;> norm_num

theorem dispersionProbability_mono :
    dispersionProbability .centerStart ≤ dispersionProbability .lowTailBound ∧
      dispersionProbability .lowTailBound ≤ dispersionProbability .highTailBound ∧
      dispersionProbability .highTailBound ≤ dispersionProbability .centerEnd := by
  simp only [dispersionProbability]
  norm_num

/-- The quantiles of the dispersion study exist for every distribution. -/
theorem exists_quantile (b : Build) (h : dist.Built) (stat : StatisticId) :
    ∃ v, distributionQuantile b dist (.finite (dispersionProbability stat)) = some v ∧
      IsQuantile dist (dispersionProbability stat) v := by
  obtain ⟨hlow, hhigh⟩ := dispersionProbability_mem stat
  exact distributionQuantile_isQuantile b h hlow (hhigh.trans (by norm_num))
    (quantileCount_le_of_lt_one hlow hhigh)

theorem ofI64_eq {v : ℤ} (hv : |v| ≤ 2 ^ 63) : Double.ofI64 v = .finite (binary64.round v) := by
  refine (Double.isFinite_zpow (k := 63) (by decide) (by decide)).ofExact_of_le ?_
  exact_mod_cast hv

/-! ## Plausible statistics -/

/-- The largest magnitude. -/
def Distribution.maxMagnitude (dist : Distribution) : ℚ :=
  max |(dist.sortedValues 0 : ℚ)| |(dist.sortedValues (dist.numBins - 1) : ℚ)|

/-- A bound on the error of the means of resamples. -/
def Distribution.meanError (dist : Distribution) : ℚ := 9 * 2 ^ (-53 : ℤ) * dist.maxMagnitude

/-- What the statistics of a distribution, of its resamples and of their confidence bounds have in
common: quantiles are values, as exact as a `double` can be, and come in their order; widths are not
negative, and means are between the smallest and the largest value, up to their rounding errors. -/
structure PlausibleFor (dist : Distribution) (f : StatisticId → ℚ) : Prop where
  values : ∀ stat ∈ [StatisticId.centerStart, .lowTailBound, .highTailBound, .centerEnd],
    ∃ v ∈ dist.values, f stat = binary64.round v
  lowTail : f .centerStart ≤ f .lowTailBound
  tails : f .lowTailBound ≤ f .highTailBound
  highTail : f .highTailBound ≤ f .centerEnd
  width : 0 ≤ f .centerWidth
  mean : dist.sortedValues 0 - dist.meanError ≤ f .mean ∧
    f .mean ≤ dist.sortedValues (dist.numBins - 1) + dist.meanError

/-- The statistics of a distribution: each quantile is rounded once, the mean up to nine times. -/
structure StatisticsOf (result : Distribution) (f : StatisticId → ℚ) : Prop where
  quantile : ∀ stat ∈ [StatisticId.centerStart, .lowTailBound, .highTailBound, .centerEnd],
    ∃ v, IsQuantile result (dispersionProbability stat) v ∧ f stat = binary64.round v
  mean : |f .mean - result.mean| ≤ 9 * 2 ^ (-53 : ℤ) * result.meanMagnitude

/-- The statistics of the resample that these random numbers draw, whose width is rounded once. -/
def ResampleStatistics (dist : Distribution) (draws : ℕ → ℕ) (f : StatisticId → ℚ) : Prop :=
  ∃ resample : Distribution, resample.Built ∧
    (resample.values : Multiset ℤ) = ((List.range dist.values.length).map fun i =>
      dist.values.getD (draws i % dist.values.length) 0 : List ℤ) ∧
    StatisticsOf resample f ∧
    ∃ first last, IsQuantile resample (dispersionProbability .centerStart) first ∧
      IsQuantile resample (dispersionProbability .centerEnd) last ∧
      f .centerWidth = binary64.round (last - first)

theorem values_between (h : dist.Built) {v : ℤ} (hv : v ∈ dist.values) :
    dist.sortedValues 0 ≤ v ∧ v ≤ dist.sortedValues (dist.numBins - 1) := by
  have hnonempty := h.nonempty
  obtain ⟨i, hi, rfl⟩ := h.mem_values.mp hv
  exact ⟨h.increasing.entry_le (Nat.zero_le i) hi, h.increasing.entry_le (by omega) (by omega)⟩

theorem abs_le_maxMagnitude (h : dist.Built) {v : ℤ} (hv : v ∈ dist.values) :
    |(v : ℚ)| ≤ dist.maxMagnitude := by
  obtain ⟨hlow, hhigh⟩ := values_between h hv
  exact abs_le_max_abs_abs (by exact_mod_cast hlow) (by exact_mod_cast hhigh)

/-- The mean of values that are taken from a distribution. -/
theorem mean_between (h : dist.Built) (hresult : result.Built)
    (hsubset : ∀ v ∈ result.values, v ∈ dist.values) :
    (dist.sortedValues 0 ≤ result.mean ∧ result.mean ≤ dist.sortedValues (dist.numBins - 1)) ∧
      result.meanMagnitude ≤ dist.maxMagnitude := by
  have hlength : (0 : ℚ) < result.values.length := by exact_mod_cast hresult.length_values_pos
  have hmap : ∀ g : ℤ → ℤ, (((result.values.map g).sum : ℤ) : ℚ)
      = (result.values.map fun v => (g v : ℚ)).sum := by
    intro g
    rw [Int.cast_list_sum, List.map_map]
    rfl
  have hsum := hmap id
  rw [List.map_id] at hsum
  have hbetween := fun v hv => values_between h (hsubset v hv)
  refine ⟨⟨?_, ?_⟩, ?_⟩
  · rw [Distribution.mean, le_div_iff₀ hlength, hsum, mul_comm, ← nsmul_eq_mul,
      ← List.length_map (f := fun v : ℤ => ((id v : ℤ) : ℚ))]
    refine List.card_nsmul_le_sum _ _ fun x hx => ?_
    obtain ⟨v, hv, rfl⟩ := List.mem_map.mp hx
    exact_mod_cast (hbetween v hv).1
  · rw [Distribution.mean, div_le_iff₀ hlength, hsum, mul_comm, ← nsmul_eq_mul,
      ← List.length_map (f := fun v : ℤ => ((id v : ℤ) : ℚ))]
    refine List.sum_le_card_nsmul _ _ fun x hx => ?_
    obtain ⟨v, hv, rfl⟩ := List.mem_map.mp hx
    exact_mod_cast (hbetween v hv).2
  · rw [Distribution.meanMagnitude, div_le_iff₀ hlength, hmap abs, mul_comm, ← nsmul_eq_mul,
      ← List.length_map (f := fun v : ℤ => ((|v| : ℤ) : ℚ))]
    refine List.sum_le_card_nsmul _ _ fun x hx => ?_
    obtain ⟨v, hv, rfl⟩ := List.mem_map.mp hx
    rw [Int.cast_abs]
    exact abs_le_maxMagnitude h (hsubset v hv)

/-- Taking the same order statistic of each statistic keeps them plausible. -/
theorem PlausibleFor.orderStatistic {runs : List (StatisticId → ℚ)} {k : ℕ}
    (hruns : ∀ f ∈ runs, PlausibleFor dist f)
    (hg : ∀ stat, IsOrderStatistic (runs.map fun f => f stat) k (g stat)) :
    PlausibleFor dist g := by
  have hmem : ∀ stat, ∃ f, PlausibleFor dist f ∧ f stat = g stat := by
    intro stat
    obtain ⟨f, hf, heq⟩ := List.mem_map.mp (hg stat).mem
    exact ⟨f, hruns f hf, heq⟩
  have hle : ∀ {stat stat' : StatisticId}, (∀ f, PlausibleFor dist f → f stat ≤ f stat') →
      g stat ≤ g stat' := by
    intro stat stat' h
    refine IsOrderStatistic.le_of_forall₂ ?_ (hg stat) (hg stat')
    rw [List.forall₂_map_left_iff, List.forall₂_map_right_iff, List.forall₂_same]
    exact fun f hf => h f (hruns f hf)
  refine ⟨fun stat hstat => ?_, hle fun f hf => hf.lowTail, hle fun f hf => hf.tails,
    hle fun f hf => hf.highTail, ?_, ?_⟩
  · obtain ⟨f, hf, heq⟩ := hmem stat
    rw [← heq]
    exact hf.values stat hstat
  · obtain ⟨f, hf, heq⟩ := hmem .centerWidth
    rw [← heq]
    exact hf.width
  · obtain ⟨f, hf, heq⟩ := hmem .mean
    rw [← heq]
    exact hf.mean

/-! ## One resample -/

/-- The statistics of values that are taken from a distribution. -/
theorem measure_spec (b : Build) (h : dist.Built)
    (hvalues : ∀ v ∈ dist.values, |v| ≤ 2 ^ 63)
    (hwidth : ∀ v ∈ dist.values, ∀ w ∈ dist.values, v - w < 2 ^ 63) (hresult : result.Built)
    (hsubset : ∀ v ∈ result.values, v ∈ dist.values) {mean : ℚ}
    (hmean : |mean - result.mean| ≤ 9 * 2 ^ (-53 : ℤ) * result.meanMagnitude) :
    ∃ q : StatisticId → ℤ,
      (∀ stat, distributionQuantile b result (.finite (dispersionProbability stat))
        = some (q stat) ∧ IsQuantile result (dispersionProbability stat) (q stat)) ∧
      (∀ stat, Double.ofI64 (q stat) = .finite (binary64.round (q stat))) ∧
      Double.ofI64 (int64Sub (q .centerEnd) (q .centerStart))
        = .finite (binary64.round (q .centerEnd - q .centerStart)) ∧
      ∀ width, 0 ≤ width →
        let f : StatisticId → ℚ := fun stat =>
          match stat with
          | .mean => mean
          | .centerWidth => width
          | stat => binary64.round (q stat)
        PlausibleFor dist f ∧ StatisticsOf result f := by
  choose q hq using exists_quantile b hresult
  have hmem : ∀ stat, q stat ∈ dist.values := fun stat => hsubset _ (hq stat).2.1.1
  obtain ⟨hlow, htails, hhigh⟩ := dispersionProbability_mono
  have horder₁ := (hq .centerStart).2.mono (hq .lowTailBound).2 hlow
  have horder₂ := (hq .lowTailBound).2.mono (hq .highTailBound).2 htails
  have horder₃ := (hq .highTailBound).2.mono (hq .centerEnd).2 hhigh
  have hround : ∀ {v w : ℤ}, v ≤ w → binary64.round v ≤ binary64.round w :=
    fun hvw => round_mono (by exact_mod_cast hvw)
  refine ⟨q, hq, fun stat => ofI64_eq (hvalues _ (hmem stat)), ?_, fun width hwidth0 => ?_⟩
  · have hlt := hwidth _ (hmem .centerEnd) _ (hmem .centerStart)
    rw [int64Sub, Int.bmod_eq_of_le (by omega) (by omega), ofI64_eq (abs_le.mpr ⟨by omega, by omega⟩)]
    push_cast
    rfl
  · obtain ⟨⟨hmin, hmax⟩, hmagnitude⟩ := mean_between h hresult hsubset
    have herr : |mean - result.mean| ≤ dist.meanError :=
      hmean.trans (mul_le_mul_of_nonneg_left hmagnitude (by positivity))
    obtain ⟨hbelow, habove⟩ := abs_le.mp herr
    refine ⟨⟨?_, hround horder₁, hround horder₂, hround horder₃, hwidth0, ?_, ?_⟩, ?_, hmean⟩
    · intro stat hstat
      simp only [List.mem_cons, List.not_mem_nil, or_false] at hstat
      rcases hstat with rfl | rfl | rfl | rfl <;> exact ⟨_, hmem _, rfl⟩
    · linarith
    · linarith
    · intro stat hstat
      simp only [List.mem_cons, List.not_mem_nil, or_false] at hstat
      rcases hstat with rfl | rfl | rfl | rfl <;> exact ⟨_, (hq _).2, rfl⟩

/-- The analyzer can be applied. -/
def Analyzer.Ready (analyzer : Analyzer) : Prop :=
  analyzer.resampleBuilder.numBins = 0 ∧ 0 < analyzer.resampleBuilder.capacity

theorem analyzerInitialize_ready {pageSize : ℕ} {memory : Allocation} {accumulators : ℕ → Double}
    {analyzer : Analyzer} (h : analyzerInitialize pageSize memory accumulators = some analyzer) :
    analyzer.Ready := by
  simp only [analyzerInitialize, distributionInitialize, distributionAllocate, Option.bind_eq_bind,
    Option.bind_eq_some_iff] at h
  obtain ⟨builder, hbuilder, hanalyzer⟩ := h
  split_ifs at hbuilder hanalyzer with hcapacity
  obtain rfl := Option.some.inj hbuilder
  obtain rfl := Option.some.inj hanalyzer
  exact ⟨rfl, Nat.pos_of_ne_zero hcapacity⟩

/-- The statistics of a run. -/
def Analyzer.RunIs (analyzer : Analyzer) (run : ℕ) (f : StatisticId → ℚ) : Prop :=
  ∀ stat, analyzer.statistics stat run = .finite (f stat)

theorem setStatistic_self (analyzer : Analyzer) (stat : StatisticId) (run : ℕ) (value : Double) :
    (analyzer.setStatistic stat run value).statistics stat run = value := by
  simp [Analyzer.setStatistic]

theorem setStatistic_of_ne_stat (analyzer : Analyzer) {stat stat' : StatisticId} (run run' : ℕ)
    (value : Double) (h : stat' ≠ stat) :
    (analyzer.setStatistic stat run value).statistics stat' run' = analyzer.statistics stat' run' := by
  simp [Analyzer.setStatistic, update_of_ne h]

theorem setStatistic_of_ne_run (analyzer : Analyzer) (stat stat' : StatisticId) {run run' : ℕ}
    (value : Double) (h : run' ≠ run) :
    (analyzer.setStatistic stat run value).statistics stat' run' = analyzer.statistics stat' run' := by
  by_cases hstat : stat' = stat
  · subst hstat
    simp [Analyzer.setStatistic, update_of_ne h]
  · exact setStatistic_of_ne_stat analyzer run run' value hstat

/-- One run adds the statistics of a resample. -/
theorem resampleRound_spec (b : Build) (h : dist.Built) (hvalues : ∀ v ∈ dist.values, |v| ≤ 2 ^ 63)
    (hwidth : ∀ v ∈ dist.values, ∀ w ∈ dist.values, v - w < 2 ^ 63) (draws : ℕ → ℕ → ℕ)
    (memory : ℕ → ℕ → Allocation) (accumulators : ℕ → ℕ → Double) {analyzer : Analyzer}
    (hready : analyzer.Ready) (run : ℕ) :
    ∃ analyzer', resampleRound b dist draws memory accumulators analyzer run = some analyzer' ∧
      analyzer'.Ready ∧
      (∃ f, PlausibleFor dist f ∧ ResampleStatistics dist (draws run) f ∧ analyzer'.RunIs run f) ∧
      ∀ stat run', run' ≠ run → analyzer'.statistics stat run' = analyzer.statistics stat run' := by
  obtain ⟨resample, hresample, hbuilt, hdrawn⟩ :=
    distributionResample_spec b h hready.1 hready.2 (draws run) (memory run)
  have hsubset : ∀ v ∈ resample.values, v ∈ dist.values := by
    intro v hv
    rw [← Multiset.mem_coe, hdrawn, Multiset.mem_coe] at hv
    obtain ⟨i, -, rfl⟩ := List.mem_map.mp hv
    rw [List.getD_eq_getElem _ _ (Nat.mod_lt _ h.length_values_pos)]
    exact List.getElem_mem _
  obtain ⟨mean, analyzer₁, hmean, herr, -, hstatistics⟩ := analyzeMean_spec b hbuilt
    (fun v hv => hvalues v (hsubset v hv)) analyzer (accumulators run)
  obtain ⟨q, hq, hofI64, hofI64Width, hplausible⟩ :=
    measure_spec b h hvalues hwidth hbuilt hsubset herr
  obtain ⟨hstart, hlow, hhigh, hend⟩ := quantiles_eq
  have horder := (hq .centerStart).2.mono (hq .centerEnd).2 (by
    obtain ⟨hlow, htails, hhigh⟩ := dispersionProbability_mono
    exact hlow.trans (htails.trans hhigh))
  have hwidth0 : 0 ≤ binary64.round (q .centerEnd - q .centerStart) := by
    refine round_nonneg ?_
    rw [sub_nonneg]
    exact_mod_cast horder
  rw [resampleRound, hresample]
  simp only [Option.bind_eq_bind, Option.bind_some, hmean, hstart, hlow, hhigh, hend, (hq _).1,
    hofI64, hofI64Width, Option.some.injEq, exists_eq_left']
  obtain ⟨hplausibleRun, hstatisticsRun⟩ := hplausible _ hwidth0
  have hdraws : ResampleStatistics dist (draws run) _ :=
    ⟨resample, hbuilt, hdrawn, hstatisticsRun, _, _, (hq _).2, (hq _).2, rfl⟩
  refine ⟨⟨rfl, hbuilt.nonempty.trans_le hbuilt.room⟩, ⟨_, hplausibleRun, hdraws, ?_⟩, ?_⟩
  · intro stat
    cases stat <;>
      simp only [setStatistic_self, setStatistic_of_ne_stat, ne_eq, reduceCtorEq, not_false_eq_true]
  · intro stat run' hrun'
    simp only [setStatistic_of_ne_run _ _ _ _ hrun', hstatistics]

/-- Every run adds its statistics. -/
theorem resampleLoop_spec (b : Build) (h : dist.Built) (hvalues : ∀ v ∈ dist.values, |v| ≤ 2 ^ 63)
    (hwidth : ∀ v ∈ dist.values, ∀ w ∈ dist.values, v - w < 2 ^ 63) (draws : ℕ → ℕ → ℕ)
    (memory : ℕ → ℕ → Allocation) (accumulators : ℕ → ℕ → Double) {analyzer : Analyzer}
    (hready : analyzer.Ready) :
    ∃ analyzer', forRangeM 0 numResamples analyzer (resampleRound b dist draws memory accumulators)
        = some analyzer' ∧ analyzer'.Ready ∧
      ∃ f : ℕ → StatisticId → ℚ, ∀ run < numResamples, PlausibleFor dist (f run) ∧
        ResampleStatistics dist (draws run) (f run) ∧ analyzer'.RunIs run (f run) := by
  have hround : ∀ i (s : Analyzer), 0 ≤ i → i < 0 + numResamples →
      s.Ready ∧ (∀ run < i, ∃ f, PlausibleFor dist f ∧ ResampleStatistics dist (draws run) f ∧
        s.RunIs run f) →
      ∃ s', resampleRound b dist draws memory accumulators s i = some s' ∧
        s'.Ready ∧ (∀ run < i + 1, ∃ f, PlausibleFor dist f ∧
          ResampleStatistics dist (draws run) f ∧ s'.RunIs run f) := by
    rintro i s - - ⟨hs, hbefore⟩
    obtain ⟨s', hs', hready', hnew, hframe⟩ :=
      resampleRound_spec b h hvalues hwidth draws memory accumulators hs i
    refine ⟨s', hs', hready', fun run hrun => ?_⟩
    rcases Nat.lt_succ_iff_lt_or_eq.mp hrun with hlt | rfl
    · obtain ⟨f, hf, hdrawn, hrunIs⟩ := hbefore run hlt
      exact ⟨f, hf, hdrawn, fun stat => (hframe stat run hlt.ne).trans (hrunIs stat)⟩
    · exact hnew
  obtain ⟨s, hloop, hs, hruns⟩ := forRangeM_induction 0 numResamples analyzer _ _
    ⟨hready, fun run hrun => absurd hrun (Nat.not_lt_zero run)⟩ hround
  rw [Nat.zero_add] at hruns
  choose! f hf using hruns
  exact ⟨s, hloop, hs, f, hf⟩

/-! ## Confidence intervals -/

/-- The ranks of the bounds among the resamples. -/
theorem confidence_ranks :
    ((((Double.finite 1).sub confidence).div (.finite 2)).mul
      (.ofSize (numResamples - 1))).roundSize = some 5 ∧
    ((((Double.finite 1).add confidence).div (.finite 2)).mul
      (.ofSize (numResamples - 1))).roundSize = some 195 := by decide +kernel

theorem sortF64_map_finite (xs : List ℚ) :
    sortF64 (xs.map .finite) = (ascending xs).map .finite := by
  refine (List.map_mergeSort fun x _ y _ => ?_).symm
  rw [decide_eq_decide, compareF64]
  simp only [Double.lt, decide_eq_true_eq]
  split_ifs with hlt hgt <;> simp <;> linarith

/-- Among the statistics that are still to be sorted, the bounds of the first one are order
statistics of its runs. -/
theorem setResultConfidence_spec {analyzer : Analyzer} {stat : StatisticId}
    {pending : List StatisticId} {runs : ℕ → StatisticId → ℚ} {low high : StatisticId → ℚ}
    (hruns : ∀ stat' ∈ stat :: pending, ∀ run < numResamples,
      analyzer.statistics stat' run = .finite (runs run stat'))
    (hpending : stat ∉ pending)
    (hlow : ∀ stat, IsOrderStatistic ((List.range numResamples).map fun run => runs run stat) 5
      (low stat))
    (hhigh : ∀ stat, IsOrderStatistic ((List.range numResamples).map fun run => runs run stat) 195
      (high stat))
    (sample : ℚ) :
    ∃ analyzer', setResultConfidence analyzer stat (.ofSample (.finite sample))
        = some (⟨.finite sample, .finite (low stat), .finite (high stat)⟩, analyzer') ∧
      analyzer'.resampleBuilder = analyzer.resampleBuilder ∧
      ∀ stat' ∈ pending, ∀ run < numResamples,
        analyzer'.statistics stat' run = .finite (runs run stat') := by
  have hsorted : sortF64 ((List.range numResamples).map (analyzer.statistics stat))
      = (ascending ((List.range numResamples).map fun run => runs run stat)).map .finite := by
    rw [← sortF64_map_finite, List.map_map]
    refine congrArg sortF64 (List.map_congr_left fun run hrun => ?_)
    exact hruns stat List.mem_cons_self run (List.mem_range.mp hrun)
  have hread : ∀ {k : ℕ} {y : ℚ} (default : Double),
      IsOrderStatistic ((List.range numResamples).map fun run => runs run stat) k y →
      ((ascending ((List.range numResamples).map fun run => runs run stat)).map
        Double.finite).getD k default = .finite y := by
    intro k y default hy
    rw [List.getD_eq_getElem?_getD, List.getElem?_map, hy]
    rfl
  obtain ⟨hlowIdx, hhighIdx⟩ := confidence_ranks
  refine ⟨{ analyzer with
    statistics := update analyzer.statistics stat fun idx =>
      (sortF64 ((List.range numResamples).map (analyzer.statistics stat))).getD idx
        (analyzer.statistics stat idx) }, ?_, rfl, fun stat' hstat' run hrun => ?_⟩
  · rw [setResultConfidence]
    simp only [hlowIdx, hhighIdx, Option.bind_eq_bind, Option.bind_some, Analyzer.statistic,
      update_self, hsorted, hread _ (hlow stat), hread _ (hhigh stat)]
    rw [if_pos (by decide), if_pos (by decide)]
    rfl
  · show update analyzer.statistics stat _ stat' run = _
    have hne : stat' ≠ stat := by
      rintro rfl
      exact hpending hstat'
    rw [update_of_ne hne]
    exact hruns stat' (List.mem_cons_of_mem _ hstat') run hrun

/-- The width of the sample. -/
theorem sub_ofI64 {v w : ℤ} (hv : |v| ≤ 2 ^ 63) (hw : |w| ≤ 2 ^ 63) (hle : v ≤ w) :
    ∃ width, 0 ≤ width ∧ (Double.ofI64 w).sub (.ofI64 v) = .finite width := by
  have hrep : binary64.Representable (2 ^ (63 : ℤ)) := representable_zpow (by decide)
  have hround : ∀ {u : ℤ}, |u| ≤ 2 ^ 63 → |binary64.round u| ≤ 2 ^ (63 : ℤ) := by
    intro u hu
    have hu' : |(u : ℚ)| ≤ 2 ^ (63 : ℤ) := by exact_mod_cast hu
    obtain ⟨hlow, hhigh⟩ := abs_le.mp hu'
    exact abs_le.mpr ⟨hrep.neg.le_round hlow, hrep.round_le hhigh⟩
  have hdiff : |binary64.round w + -binary64.round v| ≤ 2 ^ (64 : ℤ) := by
    have htwice : (2 : ℚ) ^ (64 : ℤ) = 2 ^ (63 : ℤ) + 2 ^ (63 : ℤ) := by norm_num
    rw [htwice]
    refine (abs_add_le _ _).trans (add_le_add (hround hw) ?_)
    rw [abs_neg]
    exact hround hv
  refine ⟨binary64.round (binary64.round w + -binary64.round v), round_nonneg ?_, ?_⟩
  · rw [← sub_eq_add_neg, sub_nonneg]
    exact round_mono (by exact_mod_cast hle)
  · rw [ofI64_eq hv, ofI64_eq hw, Double.sub, Double.neg, Double.add]
    exact (Double.isFinite_zpow (by decide) (by decide)).ofExact_of_le hdiff

/-- The order statistics of plausible runs are plausible. -/
theorem exists_orderStatistics {runs : ℕ → StatisticId → ℚ} {k : ℕ}
    (hruns : ∀ run < numResamples, PlausibleFor dist (runs run)) (hk : k < numResamples) :
    ∃ bound : StatisticId → ℚ, PlausibleFor dist bound ∧ ∀ stat,
      IsOrderStatistic ((List.range numResamples).map fun run => runs run stat) k (bound stat) := by
  have hrank : ∀ stat, ∃ y,
      IsOrderStatistic ((List.range numResamples).map fun run => runs run stat) k y := by
    intro stat
    refine IsOrderStatistic.exists_of_lt ?_
    rwa [List.length_map, List.length_range]
  choose bound hbound using hrank
  have hplausible : ∀ f ∈ (List.range numResamples).map runs, PlausibleFor dist f := by
    intro f hf
    obtain ⟨run, hrun, rfl⟩ := List.mem_map.mp hf
    exact hruns run (List.mem_range.mp hrun)
  refine ⟨bound, PlausibleFor.orderStatistic (k := k) hplausible fun stat => ?_, hbound⟩
  rw [List.map_map]
  exact hbound stat

/-- Applied to any distribution, a ready analyzer computes plausible statistics with nonempty
confidence intervals, whose bounds are ordered like the statistics, and is ready again. The bounds of
every interval have the ranks 5 and 195 among the statistics of the 201 resamples. -/
theorem analyzerApply_spec (b : Build) {analyzer : Analyzer} (hready : analyzer.Ready)
    (h : dist.Built) (hvalues : ∀ v ∈ dist.values, |v| ≤ 2 ^ 63)
    (hwidth : ∀ v ∈ dist.values, ∀ w ∈ dist.values, v - w < 2 ^ 63) (draws : ℕ → ℕ → ℕ)
    (memory : ℕ → ℕ → Allocation) (sampleAccumulators : ℕ → Double)
    (accumulators : ℕ → ℕ → Double) :
    ∃ stats analyzer', analyzerApply b analyzer dist draws memory sampleAccumulators accumulators
        = some (stats, analyzer') ∧ analyzer'.Ready ∧
      ∃ (sample low high : StatisticId → ℚ) (runs : ℕ → StatisticId → ℚ),
        (∀ stat, stats.estimate stat
          = ⟨.finite (sample stat), .finite (low stat), .finite (high stat)⟩) ∧
        PlausibleFor dist sample ∧ PlausibleFor dist low ∧ PlausibleFor dist high ∧
        StatisticsOf dist sample ∧ (∀ stat, low stat ≤ high stat) ∧
        (∀ run < numResamples, ResampleStatistics dist (draws run) (runs run)) ∧
        ∀ stat,
          IsOrderStatistic ((List.range numResamples).map fun run => runs run stat) 5 (low stat) ∧
          IsOrderStatistic ((List.range numResamples).map fun run => runs run stat) 195
            (high stat) := by
  obtain ⟨mean, analyzer₁, hmean, herr, hbuilder, -⟩ :=
    analyzeMean_spec b h hvalues analyzer sampleAccumulators
  obtain ⟨q, hq, hofI64, -, hplausible⟩ :=
    measure_spec b h hvalues hwidth h (fun v hv => hv) herr
  have hmem : ∀ stat, |q stat| ≤ 2 ^ 63 := fun stat => hvalues _ (hq stat).2.1.1
  have horder : q .centerStart ≤ q .centerEnd := by
    obtain ⟨hlow, htails, hhigh⟩ := dispersionProbability_mono
    exact (hq .centerStart).2.mono (hq .centerEnd).2 (hlow.trans (htails.trans hhigh))
  obtain ⟨width, hwidth0, hsub⟩ := sub_ofI64 (hmem .centerStart) (hmem .centerEnd) horder
  rw [hofI64, hofI64] at hsub
  obtain ⟨analyzer₂, hloop, hready₂, runs, hruns⟩ :=
    resampleLoop_spec b h hvalues hwidth draws memory accumulators
      (show analyzer₁.Ready by rw [Analyzer.Ready, hbuilder]; exact hready)
  have hplausibleRuns := fun run hrun => (hruns run hrun).1
  obtain ⟨low, hplausibleLow, hlow⟩ :=
    exists_orderStatistics hplausibleRuns (by decide : 5 < numResamples)
  obtain ⟨high, hplausibleHigh, hhigh⟩ :=
    exists_orderStatistics hplausibleRuns (by decide : 195 < numResamples)
  -- one statistic is sorted after the other
  have hpending : ∀ stat ∈ [.centerStart, .lowTailBound, .mean, .highTailBound, .centerEnd, .centerWidth],
      ∀ run < numResamples, analyzer₂.statistics stat run = .finite (runs run stat) :=
    fun stat _ run hrun => (hruns run hrun).2.2 stat
  obtain ⟨a₁, ha₁, hb₁, hp₁⟩ := setResultConfidence_spec hpending (by decide) hlow hhigh
    (binary64.round (q .centerStart))
  obtain ⟨a₂, ha₂, hb₂, hp₂⟩ := setResultConfidence_spec hp₁ (by decide) hlow hhigh
    (binary64.round (q .lowTailBound))
  obtain ⟨a₃, ha₃, hb₃, hp₃⟩ := setResultConfidence_spec hp₂ (by decide) hlow hhigh mean
  obtain ⟨a₄, ha₄, hb₄, hp₄⟩ := setResultConfidence_spec hp₃ (by decide) hlow hhigh
    (binary64.round (q .highTailBound))
  obtain ⟨a₅, ha₅, hb₅, hp₅⟩ := setResultConfidence_spec hp₄ (by decide) hlow hhigh
    (binary64.round (q .centerEnd))
  obtain ⟨a₆, ha₆, hb₆, -⟩ := setResultConfidence_spec hp₅ (by decide) hlow hhigh width
  obtain ⟨hstart, hlowTail, hhighTail, hend⟩ := quantiles_eq
  rw [analyzerApply]
  simp only [Option.bind_eq_bind, Option.bind_some, hstart, hlowTail, hhighTail, hend, (hq _).1,
    hmean, hofI64, hsub, hloop, ha₁, ha₂, ha₃, ha₄, ha₅, ha₆]
  obtain ⟨hplausibleSample, hsample⟩ := hplausible width hwidth0
  refine ⟨_, a₆, rfl, ?_, _, low, high, runs, ?_, hplausibleSample, hplausibleLow, hplausibleHigh, hsample,
    fun stat => (hlow stat).mono (hhigh stat) (by decide), fun run hrun => (hruns run hrun).2.1,
    fun stat => ⟨hlow stat, hhigh stat⟩⟩
  · rw [Analyzer.Ready, hb₆, hb₅, hb₄, hb₃, hb₂, hb₁]
    exact hready₂
  · intro stat
    cases stat <;> rfl

/-- The values of a small distribution, drawn in turns. -/
theorem analyzerApply_spec_threeRuns :
    ∃ stats analyzer', analyzerApply ⟨true⟩
        ⟨smallBuilder, fun _ => .nan, 2, fun _ _ => .finite 0⟩ threeRuns (fun run i => run + i)
        (fun _ _ => .zero) (fun _ => .nan) (fun _ _ => .nan) = some (stats, analyzer') ∧
      ∃ low high : ℚ, stats.mean.low = .finite low ∧ stats.mean.high = .finite high ∧
        low ≤ high := by
  obtain ⟨stats, analyzer', hrun, -, sample, low, high, runs, hestimate, -, -, -, -, hle, -⟩ :=
    analyzerApply_spec ⟨true⟩ (show Analyzer.Ready ⟨smallBuilder, fun _ => .nan, 2, fun _ _ => .finite 0⟩ from
      ⟨rfl, by decide⟩) threeRuns_built (by decide) (by decide) (fun run i => run + i)
      (fun _ _ => .zero) (fun _ => .nan) fun _ _ => .nan
  have hmean := hestimate .mean
  exact ⟨stats, analyzer', hrun, low .mean, high .mean, congrArg Estimate.low hmean,
    congrArg Estimate.high hmean, hle .mean⟩

end Udipe

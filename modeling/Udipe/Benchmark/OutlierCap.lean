import Udipe.Benchmark.Quantiles
import Udipe.Benchmark.RejectionReport

/-!
# At most one value in twenty is rejected

Reference: `benchmark/outlier_filter.c`.

The threshold is found in a histogram of scores. When too many values are up to the score of
`OUTLIER_THRESHOLD`, it is the weight of the last score whose values are few enough. The conversions
between weights and scores round, by any amounts that keep the order. The number of values that is few
enough is computed as a `double`, and exact up to `2 ^ 52` values.
-/

namespace Udipe

open Finset FloatFormat

/-! ## The quota -/

/-- The value of `MAX_OUTLIER_FRACTION`, which is just above a twentieth. -/
def outlierFraction : ℚ := 7205759403792794 / 2 ^ 57

theorem maxOutlierFraction_eq : maxOutlierFraction = .finite outlierFraction := by
  decide +kernel

theorem outlierFraction_eq : outlierFraction = (1 + 2 ^ (-54 : ℤ)) / 20 := by
  norm_num [outlierFraction]

variable {n : ℕ}

/-- The product is short of the number of values by far. -/
theorem outlierCount_lt (hpos : 0 < n) : quantileCount outlierFraction n < n := by
  have hn : (0 : ℚ) < n := by exact_mod_cast hpos
  have hfraction : 0 ≤ outlierFraction := by norm_num [outlierFraction]
  have hone : (1 : ℚ) ≤ binary64.round n := by
    have hrep : binary64.Representable (1 : ℚ) := representable_zpow (k := 0) (by decide)
    exact hrep.le_round (by exact_mod_cast hpos)
  have hround0 : 0 ≤ binary64.round n := zero_le_one.trans hone
  have hnormal : (2 : ℚ) ^ (binary64.emin + binary64.prec - 1)
      ≤ |outlierFraction * binary64.round n| := by
    rw [abs_of_nonneg (mul_nonneg hfraction hround0)]
    calc (2 : ℚ) ^ (binary64.emin + binary64.prec - 1)
        ≤ 2 ^ (-5 : ℤ) := zpow_le_zpow_right₀ one_le_two (by decide)
      _ ≤ outlierFraction := by norm_num [outlierFraction]
      _ ≤ outlierFraction * binary64.round n := le_mul_of_one_le_right hfraction hone
  have hlen := (relApprox_round_natCast n).abs_le
  have herr : |quantileCount outlierFraction n|
      ≤ (1 + 2 ^ (-53 : ℤ)) * |outlierFraction * binary64.round n| :=
    (relApprox_round (.inr hnormal)).abs_le
  rw [abs_of_nonneg hround0, abs_of_nonneg hn.le] at hlen
  rw [abs_of_nonneg (mul_nonneg hfraction hround0), abs_of_nonneg (quantileCount_nonneg hfraction)]
    at herr
  calc quantileCount outlierFraction n
      ≤ (1 + 2 ^ (-53 : ℤ)) * (outlierFraction * binary64.round n) := herr
    _ ≤ (1 + 2 ^ (-53 : ℤ)) * (outlierFraction * ((1 + 2 ^ (-53 : ℤ)) * n)) := by gcongr
    _ = (1 + 2 ^ (-53 : ℤ)) * outlierFraction * (1 + 2 ^ (-53 : ℤ)) * n := by ring
    _ < n := mul_lt_of_lt_one_left hn (by norm_num [outlierFraction])

/-- Up to `2 ^ 52` values, neither the fraction nor the product is rounded across a whole number. -/
theorem floor_outlierCount (hsmall : n ≤ 2 ^ 52) : ⌊quantileCount outlierFraction n⌋ = (n / 20 : ℕ) := by
  have hexact := round_natCast (hsmall.trans (by norm_num))
  have hsize : (n : ℚ) ≤ 2 ^ 52 := by exact_mod_cast hsmall
  have hdiv : (n : ℚ) = 20 * (n / 20 : ℕ) + (n % 20 : ℕ) := by
    exact_mod_cast (Nat.div_add_mod n 20).symm
  have hmod : ((n % 20 : ℕ) : ℚ) ≤ 19 := by
    exact_mod_cast Nat.le_of_lt_succ (Nat.mod_lt n (by norm_num))
  have hmod0 : (0 : ℚ) ≤ (n % 20 : ℕ) := Nat.cast_nonneg _
  have hfraction : outlierFraction * n = n / 20 + 2 ^ (-54 : ℤ) * n / 20 := by
    rw [outlierFraction_eq]
    ring
  have herr : (2 : ℚ) ^ (-54 : ℤ) * n / 20 ≤ 1 / 80 := by
    rw [zpow_neg]
    norm_num
    linarith
  have herr0 : (0 : ℚ) ≤ 2 ^ (-54 : ℤ) * n / 20 := by positivity
  rw [Int.floor_eq_iff, quantileCount, hexact, hfraction, Int.cast_natCast]
  constructor
  · have hrep : binary64.Representable ((n / 20 : ℕ) : ℚ) := by
      have hquota := representable_natCast_mul_zpow (F := binary64) (n := n / 20) (k := 0)
        ((Nat.div_le_self n 20).trans (hsmall.trans (by decide))) (by decide)
      rwa [zpow_zero, mul_one] at hquota
    exact hrep.le_round (by linarith)
  · -- a `double` between the product and the next whole number
    have hbelow : binary64.Representable (((32 * (n / 20) + 31 : ℕ) : ℚ) * 2 ^ (-5 : ℤ)) := by
      refine representable_natCast_mul_zpow ?_ (by decide)
      have hquota : n / 20 ≤ 2 ^ 52 / 20 := Nat.div_le_div_right hsmall
      exact (Nat.add_le_add_right (Nat.mul_le_mul_left 32 hquota) 31).trans (by decide)
    refine (hbelow.round_le ?_).trans_lt ?_
    · push_cast
      norm_num
      linarith
    · push_cast
      norm_num
      linarith

/-- How many values may be rejected: a twentieth, and never all. -/
theorem maxOutliers_spec (hpos : 0 < n) (hn : n < 2 ^ 64) :
    ∃ quota, maxOutliers n = some quota ∧ quota < n ∧ (n ≤ 2 ^ 52 → quota = n / 20) := by
  have hfraction : 0 ≤ outlierFraction ∧ outlierFraction ≤ 1 := by norm_num [outlierFraction]
  have hfloor0 : 0 ≤ ⌊quantileCount outlierFraction n⌋ :=
    Int.floor_nonneg.mpr (quantileCount_nonneg hfraction.1)
  have hfloor : ⌊quantileCount outlierFraction n⌋ < n := Int.floor_lt.mpr (outlierCount_lt hpos)
  refine ⟨⌊quantileCount outlierFraction n⌋.toNat, ?_, by omega, fun hsmall => ?_⟩
  · rw [maxOutliers, maxOutlierFraction_eq, Double.mul_ofSize hfraction.1 hfraction.2 hn,
      Double.floorSize, Double.toSize, if_pos ⟨hfloor0, by omega⟩]
  · rw [floor_outlierCount hsmall, Int.toNat_natCast]

/-! ## The histogram of scores -/

section Scores

variable {W : Type} {scale : WeightScale W} {target : Distribution} {relWeights : ℕ → W}

/-- The scores of the values in the first `k` bins. -/
def scoresOf (scale : WeightScale W) (relWeights : ℕ → W) (target : Distribution) (k : ℕ) :
    Multiset ℤ :=
  ∑ bin ∈ range k,
    Multiset.replicate (target.counts bin) (scale.relWeightToScore (relWeights bin))

theorem scoresOf_succ (k : ℕ) : scoresOf scale relWeights target (k + 1) =
    scoresOf scale relWeights target k +
      Multiset.replicate (target.counts k) (scale.relWeightToScore (relWeights k)) :=
  Finset.sum_range_succ ..

theorem card_scoresOf (k : ℕ) :
    (scoresOf scale relWeights target k).card = ∑ bin ∈ range k, target.counts bin := by
  rw [scoresOf, Multiset.card_sum]
  simp only [Multiset.card_replicate]

/-- The values whose score is at most `score`. -/
theorem countP_scoresOf (score : ℤ) (k : ℕ) :
    (scoresOf scale relWeights target k).countP (· ≤ score) =
      ∑ bin ∈ range k with scale.relWeightToScore (relWeights bin) ≤ score, target.counts bin := by
  induction k with
  | zero => rfl
  | succ k ih =>
      rw [scoresOf_succ, Multiset.countP_add, ih, Finset.range_add_one, Finset.filter_insert]
      split
      · rename_i hle
        rw [Finset.sum_insert (by simp), add_comm, Multiset.countP_eq_card.mpr, Multiset.card_replicate]
        intro x hx
        rw [Multiset.eq_of_mem_replicate hx]
        exact hle
      · rename_i hgt
        rw [Multiset.countP_eq_zero.mpr, add_zero]
        intro x hx
        rw [Multiset.eq_of_mem_replicate hx]
        exact hgt

/-- Only the scores of bins are in the histogram. -/
theorem mem_scoresOf {score : ℤ} {k : ℕ} (h : score ∈ scoresOf scale relWeights target k) :
    ∃ bin < k, score = scale.relWeightToScore (relWeights bin) := by
  obtain ⟨bin, hbin, hmem⟩ := Multiset.mem_sum.mp h
  exact ⟨bin, Finset.mem_range.mp hbin, Multiset.eq_of_mem_replicate hmem⟩

/-- The scores are as many as the values. -/
theorem scoresOf_count_lt {m : Multiset ℤ} {k : ℕ} (h : target.IsHistogram m)
    (hfits : m.card < 2 ^ 64) (hk : k < target.numBins) :
    (scoresOf scale relWeights target k).count (scale.relWeightToScore (relWeights k)) +
      target.counts k < 2 ^ 64 := by
  have hcard : (scoresOf scale relWeights target k).card + target.counts k ≤ m.card := by
    rw [card_scoresOf, ← Finset.sum_range_succ]
    exact h.prefixSum_le hk
  have hcount := Multiset.count_le_card (scale.relWeightToScore (relWeights k))
    (scoresOf scale relWeights target k)
  omega

/-- The scores of a target are as many as its values. -/
theorem length_scores {scores : Distribution} {m : Multiset ℤ} (h : target.IsHistogram m)
    (hvalues : (scores.values : Multiset ℤ) = scoresOf scale relWeights target target.numBins) :
    scores.values.length = m.card := by
  rw [← Multiset.coe_card, hvalues, card_scoresOf, ← h.contents, Distribution.contents,
    Multiset.card_sum]
  simp only [Multiset.card_replicate]
  rfl

end Scores

variable {W : Type} [LinearOrder W] {b : Build} {scale : WeightScale W}
  {filter filter' scored : OutlierFilter W} {target target' scores : Distribution} {m : Multiset ℤ}
  {threshold : W} {relWeights : ℕ → W} {memory memory' : ℕ → Allocation} {k : ℕ}

/-- The number of values whose weight is at most the threshold. -/
def valuesUpTo (relWeights : ℕ → W) (threshold : W) (target : Distribution) : ℕ :=
  ∑ bin ∈ range target.numBins with relWeights bin ≤ threshold, target.counts bin

/-- A larger weight has no smaller score, and what is at most the weight of a score has at most this
score. -/
structure WeightScale.KeepsOrder (scale : WeightScale W) : Prop where
  monotone : Monotone scale.relWeightToScore
  rounds : ∀ relWeight score, relWeight ≤ scale.scoreToRelWeight score →
    scale.relWeightToScore relWeight ≤ score

/-- The weights up to one have scores up to zero, and these have weights from zero to one. -/
structure WeightScale.InRange (scale : WeightScale W) : Prop where
  outlierThreshold : scale.zero < scale.outlierThreshold ∧ scale.outlierThreshold < scale.one
  score : ∀ relWeight ≤ scale.one, scale.relWeightToScore relWeight ≤ 0
  relWeight : ∀ score ≤ 0,
    scale.zero ≤ scale.scoreToRelWeight score ∧ scale.scoreToRelWeight score ≤ scale.one

/-! ### `compute_scores` -/

/-- A round inserts the score of its bin. -/
theorem scoreRound_spec {d d' : Distribution} (h : target.IsHistogram m) (hfits : m.card < 2 ^ 64)
    (hk : k < target.numBins)
    (hd : d.IsHistogram (scoresOf scale filter.binWeights target k))
    (hstep : scoreRound b scale memory filter target d k = some d') :
    d'.IsHistogram (scoresOf scale filter.binWeights target (k + 1)) := by
  simp only [scoreRound, Option.bind_eq_bind, Option.bind_eq_some_iff] at hstep
  obtain ⟨-, -, hinsert⟩ := hstep
  rw [scoresOf_succ]
  exact hd.insertCopies (.inr (h.positive k hk)) (scoresOf_count_lt h hfits hk) hinsert

/-- It returns when the weight is between zero and one. -/
theorem scoreRound_isSome {d : Distribution} (memory : ℕ → Allocation) (h : target.IsHistogram m)
    (hfits : m.card < 2 ^ 64) (hk : k < target.numBins)
    (hd : d.IsHistogram (scoresOf scale filter.binWeights target k))
    (hrange : scale.zero ≤ filter.binWeights k ∧ filter.binWeights k ≤ scale.one) :
    ∃ d', scoreRound b scale memory filter target d k = some d' := by
  rw [scoreRound, ← Bool.decide_and, b.assert_decide hrange]
  exact Option.isSome_iff_exists.mp
    (hd.insertCopies_isSome (h.positive k hk) (scoresOf_count_lt h hfits hk))

/-- The scores are built from the scores of the values. -/
theorem computeScores_spec (h : target.IsHistogram m) (hfits : m.card < 2 ^ 64)
    (husable : filter.lastScores.Usable)
    (hstep : computeScores b scale memory filter target = some scored) :
    scored.lastScores.isBuilt = true ∧ scored.lastScores.storage.Built ∧
      (scored.lastScores.storage.values : Multiset ℤ) =
        scoresOf scale filter.binWeights target target.numBins := by
  rw [computeScores, Option.ite_none_right_eq_some] at hstep
  obtain ⟨-, hstep⟩ := hstep
  simp only [Option.bind_eq_bind, Option.bind_eq_some_iff, Option.some.injEq] at hstep
  obtain ⟨builder, hloop, distribution, hbuild, rfl⟩ := hstep
  have hbuilder := forRangeM_invariant
    (fun k d => d.IsHistogram (scoresOf scale filter.binWeights target k)) hloop husable.recycle.2
    fun k _ _ _ hk hround hd => scoreRound_spec h hfits (by simpa using hk) hd hround
  rw [Nat.zero_add] at hbuilder
  refine ⟨rfl, hbuilder.of_build ?_ hbuild⟩
  rw [card_scoresOf]
  exact (h.prefixSum_le le_rfl).trans_lt hfits

theorem computeScores_isSome (memory : ℕ → Allocation) (h : target.IsHistogram m) (hfits : m.card < 2 ^ 64)
    (hsome : 0 < target.numBins) (husable : filter.lastScores.Usable)
    (hcapacity : target.numBins ≤ filter.binCapacity)
    (hrange : ∀ bin < target.numBins,
      scale.zero ≤ filter.binWeights bin ∧ filter.binWeights bin ≤ scale.one) :
    ∃ scored, computeScores b scale memory filter target = some scored := by
  obtain ⟨builder, hloop, hbuilder⟩ := forRangeM_induction 0 target.numBins
    filter.lastScores.recycle.storage (scoreRound b scale memory filter target)
    (fun k d => d.IsHistogram (scoresOf scale filter.binWeights target k)) husable.recycle.2
    fun k d _ hk hd => by
      rw [Nat.zero_add] at hk
      obtain ⟨d', hround⟩ := scoreRound_isSome (b := b) memory h hfits hk hd (hrange k hk)
      exact ⟨d', hround, scoreRound_spec h hfits hk hd hround⟩
  rw [Nat.zero_add] at hbuilder
  have hbins : builder.numBins ≠ 0 := by
    intro hzero
    have hcontents := hbuilder.contents
    rw [Distribution.contents, hzero, Finset.range_zero, Finset.sum_empty] at hcontents
    have hcard := congrArg Multiset.card hcontents
    rw [card_scoresOf, Multiset.card_zero, eq_comm, Finset.sum_eq_zero_iff] at hcard
    exact (h.positive 0 hsome).ne' (hcard 0 (Finset.mem_range.mpr hsome))
  simp only [computeScores, if_pos hcapacity, hloop, Option.bind_eq_bind, Option.bind_some,
    distributionBuild, if_neg hbins]
  exact ⟨_, rfl⟩

/-! ### `compute_weight_threshold` -/

/-- The values up to a bin are those below its end rank. -/
theorem Distribution.Built.countP_le {pos : ℕ} (h : scores.Built) (hpos : pos < scores.numBins) :
    scores.values.countP (· ≤ scores.sortedValues pos) = scores.counts pos :=
  h.countP_values (i := pos + 1) _ hpos fun j hj => by
    rw [decide_eq_true_iff, h.increasing.le_iff_le hj hpos, Nat.lt_succ_iff]

/-- The threshold below which at most `n` values are, for the histogram `scores`. -/
def CutsAtMost (scale : WeightScale W) (scores : Distribution) (n : ℕ) (threshold : W) : Prop :=
  threshold = scale.zero ∨ ∃ score, scores.values.countP (· ≤ score) ≤ n ∧
    ∀ relWeight ≤ threshold, scale.relWeightToScore relWeight ≤ score

theorem cappedThreshold_spec {n : ℕ} (hscale : scale.KeepsOrder) (h : scores.Built)
    (hn : n < scores.values.length) (hstep : cappedThreshold b scale scores n = some threshold) :
    CutsAtMost scale scores n threshold := by
  obtain ⟨maxBin, hmaxBin, hrank, hstart, hend⟩ := h.distributionBinByRank_spec b hn
  simp only [cappedThreshold, hrank, Option.bind_eq_bind, Option.bind_some, hend, true_and,
    if_true] at hstep
  split at hstep
  · exact .inl (Option.some.inj hstep).symm
  · rename_i hfirst
    rw [Option.ite_none_right_eq_some, Option.ite_none_right_eq_some, Option.some.injEq] at hstep
    obtain ⟨-, -, rfl⟩ := hstep
    obtain ⟨pos, rfl⟩ := Nat.exists_eq_succ_of_ne_zero hfirst
    refine .inr ⟨scores.sortedValues pos, ?_, fun relWeight hle => hscale.rounds _ _ hle⟩
    -- the bin before the one that the quota falls into ends within the quota
    rw [h.countP_le (Nat.lt_of_succ_lt hmaxBin)]
    exact hstart

theorem cappedThreshold_isSome {n : ℕ} (hscale : scale.InRange) (h : scores.Built)
    (hscores : ∀ score ∈ scores.values, score ≤ 0) (hn : n < scores.values.length) :
    ∃ threshold, cappedThreshold b scale scores n = some threshold := by
  obtain ⟨maxBin, hmaxBin, hrank, hstart, hend⟩ := h.distributionBinByRank_spec b hn
  simp only [cappedThreshold, hrank, Option.bind_eq_bind, Option.bind_some, hend, true_and,
    if_true]
  split
  · exact ⟨_, rfl⟩
  · have hscore := hscores _ (h.mem_values.mpr
      ⟨maxBin - 1, (Nat.sub_le ..).trans_lt hmaxBin, rfl⟩)
    rw [if_pos hscore, if_pos (hscale.relWeight _ hscore)]
    exact ⟨_, rfl⟩

/-- `compute_weight_threshold` cuts at most the quota. -/
theorem computeWeightThreshold_spec {quota : ℕ} (hscale : scale.KeepsOrder)
    (h : filter.lastScores.storage.Built)
    (hquota : maxOutliers filter.lastScores.storage.values.length = some quota)
    (hlt : quota < filter.lastScores.storage.values.length)
    (hstep : computeWeightThreshold b scale filter = some threshold) :
    CutsAtMost scale filter.lastScores.storage quota threshold := by
  have hlast := distributionBinByValue_isLastAtMost
    (scale.relWeightToScore scale.outlierThreshold) h.increasing
  rw [computeWeightThreshold, Option.ite_none_right_eq_some] at hstep
  simp only [distributionBinByValueChecked_eq _ _ _ h.increasing, Except.toOption,
    Option.bind_eq_bind, Option.bind_some, h.distributionLen_eq b] at hstep
  generalize filter.lastScores.storage = scores at *
  cases hpos : distributionBinByValue scores (scale.relWeightToScore scale.outlierThreshold) .below with
  | ptrdiffMin =>
      rw [hpos] at hstep
      exact .inl (Option.some.inj hstep.2).symm
  | ptrdiffMax =>
      rw [hpos] at hlast
      exact hlast.elim
  | bin pos =>
      rw [hpos] at hlast hstep
      obtain ⟨hbin, hle, hmax⟩ := hlast
      obtain ⟨-, hstep⟩ := hstep
      rw [Option.ite_none_right_eq_some, hquota, Option.bind_some] at hstep
      obtain ⟨-, hstep⟩ := hstep
      split at hstep
      · rename_i hfew
        obtain rfl := Option.some.inj hstep
        refine .inr ⟨_, ?_, fun relWeight hle => hscale.monotone hle⟩
        -- no value lies between the score of the last bin and that of the threshold
        rw [h.countP_values (i := pos + 1) _ hbin fun j hj => ?_]
        · exact hfew
        · rw [decide_eq_true_iff, Nat.lt_succ_iff]
          exact ⟨hmax j hj, fun hj' => ((h.increasing.le_iff_le hj hbin).mpr hj').trans hle⟩
      · exact cappedThreshold_spec hscale h hlt hstep

theorem computeWeightThreshold_isSome (hscale : scale.InRange)
    (h : filter.lastScores.storage.Built) (hbuilt : filter.lastScores.isBuilt = true)
    (hscores : ∀ score ∈ filter.lastScores.storage.values, score ≤ 0) :
    ∃ threshold, computeWeightThreshold b scale filter = some threshold := by
  have hlast := distributionBinByValue_isLastAtMost
    (scale.relWeightToScore scale.outlierThreshold) h.increasing
  have hfraction : ((Double.finite 0).lt maxOutlierFraction &&
      maxOutlierFraction.lt (.finite 1)) = true := by
    rw [maxOutlierFraction_eq]
    decide +kernel
  obtain ⟨quota, hquota, hlt, -⟩ := maxOutliers_spec h.length_values_pos h.length_values_lt
  rw [computeWeightThreshold, if_pos ⟨hscale.outlierThreshold.1, hscale.outlierThreshold.2, hbuilt⟩]
  simp only [distributionBinByValueChecked_eq _ _ _ h.increasing, Except.toOption,
    Option.bind_eq_bind, Option.bind_some, h.distributionLen_eq b, if_pos hfraction,
    hquota]
  generalize filter.lastScores.storage = scores at *
  cases hpos : distributionBinByValue scores (scale.relWeightToScore scale.outlierThreshold) .below with
  | ptrdiffMin => exact ⟨_, rfl⟩
  | ptrdiffMax =>
      rw [hpos] at hlast
      exact hlast.elim
  | bin pos =>
      dsimp only
      split
      · exact ⟨_, rfl⟩
      · exact cappedThreshold_isSome hscale h hscores hlt

/-! ## The cap -/

/-- The rejected values are those whose weight is at most the threshold. -/
theorem card_rejected (relWeights : ℕ → W) (threshold : W) (target : Distribution) :
    (contentsOf (rejectedBins relWeights threshold target)).card =
      valuesUpTo relWeights threshold target := by
  rw [rejectedBins, valuesUpTo]
  generalize target.numBins = n
  induction n with
  | zero => rfl
  | succ n ih =>
      rw [Finset.range_add_one, Finset.filter_insert]
      split
      · rename_i hle
        have hdrop : (!aboveThreshold relWeights threshold n) = true := by
          simpa [aboveThreshold] using hle
        rw [keptIndices_succ_of_keep hdrop, List.map_append, contentsOf_append, Multiset.card_add, ih,
          Finset.sum_insert (by simp), add_comm, List.map_singleton]
        congr 1
        exact (congrArg Multiset.card (contentsOf_singleton ..)).trans (Multiset.card_replicate ..)
      · rename_i hgt
        have hkeep : (!aboveThreshold relWeights threshold n) = false := by
          simpa [aboveThreshold] using hgt
        rw [keptIndices_succ_of_drop hkeep, ih]

/-- No more values are up to a threshold than scores are cut by it. -/
theorem valuesUpTo_le {quota : ℕ}
    (hvalues : (scores.values : Multiset ℤ) = scoresOf scale relWeights target target.numBins)
    (hpositive : ∀ bin < target.numBins, scale.zero < relWeights bin)
    (hcuts : CutsAtMost scale scores quota threshold) :
    valuesUpTo relWeights threshold target ≤ quota := by
  obtain rfl | ⟨score, hcount, hscore⟩ := hcuts
  · rw [valuesUpTo, Finset.filter_false_of_mem, Finset.sum_empty]
    · exact Nat.zero_le _
    · intro bin hbin
      exact not_le.mpr (hpositive bin (Finset.mem_range.mp hbin))
  · rw [← Multiset.coe_countP, hvalues, countP_scoresOf] at hcount
    refine le_trans (Finset.sum_le_sum_of_subset ?_) hcount
    exact Finset.monotone_filter_right _ fun bin _ hle => hscore _ hle

/-- The threshold that a target is given cuts at most the quota of its values. -/
theorem scoreTarget_cap {quota : ℕ} (hscale : scale.KeepsOrder) (h : target.IsHistogram m)
    (hfits : m.card < 2 ^ 64) (husable : filter.lastScores.Usable)
    (hpositive : ∀ bin < target.numBins, scale.zero < relWeights bin)
    (hquota : maxOutliers m.card = some quota) (hlt : quota < m.card)
    (hstep : scoreTarget b scale memory relWeights filter target = some (scored, threshold)) :
    valuesUpTo relWeights threshold target ≤ quota := by
  simp only [scoreTarget, Option.bind_eq_bind, Option.bind_eq_some_iff, Option.some.injEq,
    Prod.mk.injEq] at hstep
  obtain ⟨_, hscores, _, hthreshold, rfl, rfl⟩ := hstep
  have husable' : (computeRelWeights relWeights filter target).lastScores.Usable := husable
  obtain ⟨-, hbuilt, hvalues⟩ := computeScores_spec h hfits husable' hscores
  have hlength := length_scores h hvalues
  rw [← hlength] at hquota hlt
  exact valuesUpTo_le hvalues hpositive
    (computeWeightThreshold_spec hscale hbuilt hquota hlt hthreshold)

theorem scoreTarget_isSome (memory : ℕ → Allocation) (hscale : scale.InRange) (h : target.IsHistogram m)
    (hfits : m.card < 2 ^ 64) (hsome : 0 < target.numBins) (husable : filter.lastScores.Usable)
    (hrange : ∀ bin < target.numBins, scale.zero ≤ relWeights bin ∧ relWeights bin ≤ scale.one) :
    ∃ scored threshold,
      scoreTarget b scale memory relWeights filter target = some (scored, threshold) := by
  have husable' : (computeRelWeights relWeights filter target).lastScores.Usable := husable
  obtain ⟨scored, hscores⟩ := computeScores_isSome (b := b) memory h hfits hsome husable'
    (le_max_right ..) hrange
  obtain ⟨hflag, hbuilt, hvalues⟩ := computeScores_spec h hfits husable' hscores
  have hnegative : ∀ score ∈ scored.lastScores.storage.values, score ≤ 0 := by
    intro score hscore
    rw [← Multiset.mem_coe, hvalues] at hscore
    obtain ⟨bin, hbin, rfl⟩ := mem_scoresOf hscore
    exact hscale.score _ (hrange bin hbin).2
  obtain ⟨threshold, hthreshold⟩ := computeWeightThreshold_isSome (b := b) hscale hbuilt hflag hnegative
  refine ⟨scored, threshold, ?_⟩
  rw [scoreTarget, hscores]
  simp only [Option.bind_eq_bind, Option.bind_some, hthreshold]

/-- A twentieth of the values, as a `double`, is short of all of them and exact up to `2 ^ 52` values. At
most so many have a weight up to the threshold, so that no more are rejected, and never all. -/
theorem outliers_capped (b : Build) (memory memory' : ℕ → Allocation) (hscale : scale.KeepsOrder)
    (h : target.IsHistogram m) (hfits : m.card < 2 ^ 64) (hsome : 0 < target.numBins)
    (hscores : filter.lastScores.Usable) (hrejections : filter.lastRejections.Usable)
    (hpositive : ∀ bin < target.numBins, scale.zero < relWeights bin) :
    ∃ quota, maxOutliers m.card = some quota ∧ quota < m.card ∧
      (m.card ≤ 2 ^ 52 → quota = m.card / 20) ∧
      (∀ scored threshold,
        scoreTarget b scale memory relWeights filter target = some (scored, threshold) →
          valuesUpTo relWeights threshold target ≤ quota) ∧
      (∀ filter' target',
        outlierFilterApply b scale memory memory' relWeights filter target
          = some (filter', target') →
          (target.contents - target'.contents).card ≤ quota ∧ target'.contents ≠ 0) ∧
      (scale.InRange → (∀ bin < target.numBins, relWeights bin ≤ scale.one) →
        (outlierFilterApply b scale memory memory' relWeights filter target).isSome = true) := by
  have hcard : 0 < m.card := by
    have hfirst := h.prefixSum_le (i := 1) hsome
    rw [Finset.sum_range_one] at hfirst
    exact (h.positive 0 hsome).trans_le hfirst
  obtain ⟨quota, hquota, hlt, hexact⟩ := maxOutliers_spec hcard hfits
  have hcap : ∀ scored threshold,
      scoreTarget b scale memory relWeights filter target = some (scored, threshold) →
        valuesUpTo relWeights threshold target ≤ quota :=
    fun _ _ hstep => scoreTarget_cap hscale h hfits hscores hpositive hquota hlt hstep
  refine ⟨quota, hquota, hlt, hexact, hcap, fun filter' target' hstep => ?_, fun hrange hone => ?_⟩
  · obtain ⟨scored, threshold, hscore, hkept, -⟩ := outlierFilterApply_spec h hrejections hstep
    have hrejected := hcap scored threshold hscore
    rw [← card_rejected, ← contents_sub_kept hkept] at hrejected
    refine ⟨hrejected, fun hzero => ?_⟩
    rw [hzero, Multiset.sub_zero, h.contents] at hrejected
    exact absurd hlt hrejected.not_gt
  · obtain ⟨scored, threshold, hscore⟩ := scoreTarget_isSome (b := b) memory hrange h hfits hsome
      hscores fun bin hbin => ⟨(hpositive bin hbin).le, hone bin hbin⟩
    obtain ⟨-, hcapacity, hreport⟩ := scoreTarget_filter hscore
    obtain ⟨filter', target', hreject, -⟩ := rejectBins_spec (b := b) threshold h hcapacity
      (hreport ▸ hrejections) memory'
    rw [outlierFilterApply, if_neg hsome.ne', hscore]
    simp only [Option.bind_eq_bind, Option.bind_some, hreject]
    rfl

theorem permilleScale_keepsOrder : permilleScale.KeepsOrder where
  monotone := fun _ _ hle => Int.sub_le_sub_right hle 1000
  rounds := fun _ _ hle => Int.sub_right_le_of_le_add hle

/-- Of forty values two may be rejected. -/
theorem outliers_capped_forty :
    ∃ filter' target',
      outlierFilterApply ⟨true⟩ permilleScale (fun _ => .zero) (fun _ => .zero)
          (callOnForty 10).relWeights freshFilter fortyValues = some (filter', target') ∧
        (fortyValues.contents - target'.contents).card ≤ 2 ∧ target'.contents ≠ 0 := by
  have hreturns : (outlierFilterApply ⟨true⟩ permilleScale (fun _ => .zero) (fun _ => .zero)
      (callOnForty 10).relWeights freshFilter fortyValues).isSome = true := by decide +kernel
  obtain ⟨⟨filter', target'⟩, hresult⟩ := Option.isSome_iff_exists.mp hreturns
  have hscores : freshFilter.lastScores.Usable := ⟨by decide, by decide, by decide⟩
  have hrejections : freshFilter.lastRejections.Usable := ⟨by decide, by decide, by decide⟩
  have hpositive : ∀ bin < fortyValues.numBins,
      permilleScale.zero < (callOnForty 10).relWeights bin := by decide
  obtain ⟨quota, -, -, hexact, -, hcapped, -⟩ := outliers_capped ⟨true⟩ (fun _ => .zero)
    (fun _ => .zero) permilleScale_keepsOrder fortyValues_isHistogram (by decide) (by decide)
    hscores hrejections hpositive
  obtain rfl : quota = 2 := hexact (by decide)
  exact ⟨filter', target', hresult, hcapped filter' target' hresult⟩

/-- Of `2 ^ 60` values more than a twentieth may be rejected: the fraction is a `double`. -/
example : maxOutliers (2 ^ 60) = some (2 ^ 60 / 20 + 4) := by decide +kernel

end Udipe

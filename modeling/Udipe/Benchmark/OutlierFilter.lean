import Udipe.Benchmark.Doubles
import Udipe.Benchmark.Ranks

/-!
# The outlier filter

Reference: `benchmark/outlier_filter.h`, `benchmark/outlier_filter.c`.

A filter rejects the values of a builder whose weight is at most a threshold, but no more than a
fraction of all values. The weights, and the conversions between a weight and a score, are computed in
floating point: the weights are a parameter of a call, and the conversions are those of a `WeightScale`.
`memory` has what `malloc` does if the insertion of a bin calls it.
-/

namespace Udipe

/-- The numbers that stand for weights. -/
structure WeightScale (W : Type) where
  zero : W
  one : W
  /-- `OUTLIER_THRESHOLD`. -/
  outlierThreshold : W
  /-- `rel_weight_to_score`. -/
  relWeightToScore : W → ℤ
  /-- `score_to_rel_weight`. -/
  scoreToRelWeight : ℤ → W

/-- `recyclable_distribution_t`. The builder and the distribution are in one union. -/
structure RecyclableDistribution where
  storage : Distribution
  isBuilt : Bool

/-- `outlier_filter_t`. -/
structure OutlierFilter (W : Type) where
  binWeights : ℕ → W
  binCapacity : ℕ
  lastScores : RecyclableDistribution
  lastRejections : RecyclableDistribution

/-- A distribution that has been built is reset. The flag is left as it is. -/
def RecyclableDistribution.recycle (recyclable : RecyclableDistribution) : RecyclableDistribution :=
  if recyclable.isBuilt then { recyclable with storage := distributionReset recyclable.storage }
  else recyclable

/-- `outlier_filter_initialize`. -/
def outlierFilterInitialize {W : Type} (pageSize : ℕ) (binWeights : ℕ → W)
    (scoresMemory rejectionsMemory : Allocation) : Option (OutlierFilter W) := do
  let lastScores ← distributionInitialize pageSize scoresMemory
  let lastRejections ← distributionInitialize pageSize rejectionsMemory
  some { binWeights := binWeights
         binCapacity := pageSize / 8
         lastScores := ⟨lastScores, false⟩
         lastRejections := ⟨lastRejections, false⟩ }

/-- `outlier_filter_last_rejections`. -/
def outlierFilterLastRejections {W : Type} (filter : OutlierFilter W) : Option Distribution :=
  if filter.lastRejections.isBuilt then some filter.lastRejections.storage else none

variable {W : Type} [LT W] [DecidableLT W] [LE W] [DecidableLE W]

/-- `compute_rel_weights`, which makes the weights `relWeights`. -/
def computeRelWeights (relWeights : ℕ → W) (filter : OutlierFilter W) (target : Distribution) :
    OutlierFilter W :=
  { filter with
    binWeights := relWeights
    binCapacity := max filter.binCapacity target.numBins }

/-- A round of `compute_scores`. -/
def scoreRound (b : Build) (scale : WeightScale W) (memory : ℕ → Allocation)
    (filter : OutlierFilter W) (target : Distribution) (scoreBuilder : Distribution) (bin : ℕ) :
    Option Distribution := do
  let relWeight := filter.binWeights bin
  b.assert (decide (scale.zero ≤ relWeight) && decide (relWeight ≤ scale.one))
  let score := scale.relWeightToScore relWeight
  let count := target.counts bin
  distributionInsertCopies b scoreBuilder score count (memory bin)

/-- `compute_scores`. -/
def computeScores (b : Build) (scale : WeightScale W) (memory : ℕ → Allocation)
    (filter : OutlierFilter W) (target : Distribution) : Option (OutlierFilter W) := do
  let lastScores := filter.lastScores.recycle
  let numBins := target.numBins
  if numBins ≤ filter.binCapacity then
    let scoreBuilder ← forRangeM 0 numBins lastScores.storage
      (scoreRound b scale memory filter target)
    let distribution ← distributionBuild scoreBuilder
    some { filter with lastScores := { storage := distribution, isBuilt := true } }
  else none

/-- `MAX_OUTLIER_FRACTION`, the `double` that is written 0.05. -/
def maxOutlierFraction : Double := .ofExact (1 / 20)

/-- `max_outliers`. -/
def maxOutliers (numInputs : ℕ) : Option ℕ :=
  (maxOutlierFraction.mul (.ofSize numInputs)).floorSize

/-- The threshold that rejects `max_outliers` values, or as many below that as whole scores make. -/
def cappedThreshold (b : Build) (scale : WeightScale W) (scores : Distribution) (maxOutliers : ℕ) :
    Option W := do
  let maxBin ← distributionBinByRank b scores maxOutliers
  if maxOutliers < scores.counts maxBin ∧ maxBin = 0 then some scale.zero
  else
    let maxBin := if maxOutliers < scores.counts maxBin then maxBin - 1 else maxBin
    let maxScore := scores.sortedValues maxBin
    if maxScore ≤ 0 then
      let maxRelWeight := scale.scoreToRelWeight maxScore
      if scale.zero ≤ maxRelWeight ∧ maxRelWeight ≤ scale.one then some maxRelWeight else none
    else none

/-- `compute_weight_threshold`. -/
def computeWeightThreshold (b : Build) (scale : WeightScale W) (filter : OutlierFilter W) :
    Option W := do
  if scale.zero < scale.outlierThreshold ∧ scale.outlierThreshold < scale.one ∧
      filter.lastScores.isBuilt = true then
    let outlierScore := scale.relWeightToScore scale.outlierThreshold
    let scores := filter.lastScores.storage
    let lastOutlierPos ←
      (distributionBinByValueChecked b.assertions scores outlierScore .below).toOption
    match lastOutlierPos with
    | .ptrdiffMin => some scale.zero
    | .ptrdiffMax => none
    | .bin lastOutlierBin =>
        let numOutliers := scores.counts lastOutlierBin
        let numInputs ← distributionLen b scores
        if (Double.finite 0).lt maxOutlierFraction && maxOutlierFraction.lt (.finite 1) then do
          let maxOutliers ← maxOutliers numInputs
          if numOutliers ≤ maxOutliers then some scale.outlierThreshold
          else cappedThreshold b scale scores maxOutliers
        else none
  else none

/-- A round of `reject_bins`. The state has the target, the rejected values and the number of deleted
bins. -/
def rejectRound (b : Build) (memory : ℕ → Allocation) (filter : OutlierFilter W) (threshold : W)
    (s : Distribution × Distribution × ℕ) (inputBin : ℕ) :
    Option (Distribution × Distribution × ℕ) := do
  let (target, rejections, numDeletedBins) := s
  let value := target.sortedValues inputBin
  let count := target.counts inputBin
  let relWeight := filter.binWeights inputBin
  if threshold < relWeight then
    if 0 < numDeletedBins then
      let outputBin := inputBin - numDeletedBins
      some (target.setBin outputBin (value, count), rejections, numDeletedBins)
    else some (target, rejections, numDeletedBins)
  else
    let rejections ← distributionInsertCopies b rejections value count (memory inputBin)
    some (target, rejections, numDeletedBins + 1)

/-- `reject_bins`. -/
def rejectBins (b : Build) (memory : ℕ → Allocation) (filter : OutlierFilter W)
    (target : Distribution) (threshold : W) : Option (OutlierFilter W × Distribution) := do
  let lastRejections := filter.lastRejections.recycle
  let numInputBins := target.numBins
  if numInputBins ≤ filter.binCapacity then
    let (target, rejections, numDeletedBins) ←
      forRangeM 0 numInputBins (target, lastRejections.storage, 0)
        (rejectRound b memory filter threshold)
    let target := { target with numBins := target.numBins - numDeletedBins }
    if 0 < numDeletedBins then
      let distribution ← distributionBuild rejections
      some ({ filter with lastRejections := { storage := distribution, isBuilt := true } }, target)
    else some ({ filter with lastRejections := { lastRejections with storage := rejections } }, target)
  else none

/-- The part of `outlier_filter_apply` before a bin is rejected: the filter with its scores, and the
threshold. -/
def scoreTarget (b : Build) (scale : WeightScale W) (memory : ℕ → Allocation)
    (relWeights : ℕ → W) (filter : OutlierFilter W) (target : Distribution) :
    Option (OutlierFilter W × W) := do
  let filter ← computeScores b scale memory (computeRelWeights relWeights filter target) target
  let threshold ← computeWeightThreshold b scale filter
  some (filter, threshold)

/-- `outlier_filter_apply`. -/
def outlierFilterApply (b : Build) (scale : WeightScale W)
    (scoresMemory rejectionsMemory : ℕ → Allocation) (relWeights : ℕ → W)
    (filter : OutlierFilter W) (target : Distribution) :
    Option (OutlierFilter W × Distribution) := do
  if target.numBins = 0 then none
  else
    let (filter, threshold) ← scoreTarget b scale scoresMemory relWeights filter target
    rejectBins b rejectionsMemory filter target threshold

end Udipe

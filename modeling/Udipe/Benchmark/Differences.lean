import Udipe.Benchmark.Ranks
import Udipe.Lib.Loops
import Udipe.Lib.RunningMin

/-!
# Smallest differences

Reference: `benchmark/distribution.h`, `benchmark/distribution.c`.

The smallest difference within a distribution is searched among the distances of the bins to the
first one, where those to the previous bin are meant. The one between two distributions is searched
from each value of the one with fewer bins to its neighbours in the other; the upper neighbour of an
equal first value is never looked at.
-/

namespace Udipe

/-- `UINT64_MAX`. -/
def uint64Max : ℕ := 2 ^ 64 - 1

/-- An `int64_t` as an `uint64_t`. -/
def uint64Of (x : ℤ) : ℕ := (x % 2 ^ 64).toNat

/-- A round of the loop of `distribution_min_difference`. It leaves `prev_value` as it is. -/
def minDifferenceRound (b : Build) (dist : Distribution) (prevValue : ℤ) (minDifference bin : ℕ) :
    Option ℕ := do
  let currValue := dist.sortedValues bin
  b.assert (decide (prevValue < currValue))
  let difference := uint64Of (int64Sub currValue prevValue)
  some (if difference < minDifference then difference else minDifference)

/-- `distribution_min_difference`. -/
def distributionMinDifference (b : Build) (dist : Distribution) : Option ℕ :=
  if dist.numBins = 0 then some uint64Max
  else do
    let prevValue := dist.sortedValues 0
    let minDifference ← forRangeM 1 (dist.numBins - 1) uint64Max
      (minDifferenceRound b dist prevValue)
    b.assert (decide (0 < minDifference))
    some minDifference

/-- The neighbours of a bin that has the value itself: the smallest difference that
`distribution_min_difference_with` finds there. -/
def neighbourDifference (b : Build) (dist : Distribution) (value : ℤ) (bin : ℕ) : Option ℤ := do
  let difference ←
    if 0 < bin then do
      let difference := int64Sub value (dist.sortedValues (bin - 1))
      b.assert (decide (0 < difference))
      some difference
    else some 0
  if bin + 1 < dist.numBins then do
    let diffCandidate := int64Sub (dist.sortedValues (bin + 1)) value
    b.assert (decide (0 < diffCandidate))
    some (if diffCandidate < difference then diffCandidate else difference)
  else some difference

/-- The smallest difference that it finds from the nearest bin. -/
def nearestDifference (b : Build) (dist : Distribution) (value : ℤ) (bin : ℕ) : Option ℤ :=
  let difference := int64Sub value (dist.sortedValues bin)
  if difference = 0 then neighbourDifference b dist value bin
  else if difference < 0 then some (int64Sub 0 difference)
  else some difference

/-- A round of the loop of `distribution_min_difference_with`. -/
def minDifferenceWithRound (b : Build) (longDist : Distribution) (shortValue : ℤ)
    (minDifference : ℕ) : Option ℕ := do
  let pos ← (distributionBinByValueChecked b.assertions longDist shortValue .nearest).toOption
  match pos with
  | .ptrdiffMin | .ptrdiffMax => none
  | .bin longBin =>
      b.assert (decide (longBin < longDist.numBins))
      let difference ← nearestDifference b longDist shortValue longBin
      if difference = 0 then some minDifference
      else
        b.assert (decide (0 < difference))
        some (if uint64Of difference < minDifference then uint64Of difference else minDifference)

/-- The distribution with fewer bins, the first one in doubt. -/
def shortDist (d1 d2 : Distribution) : Distribution := if d2.numBins < d1.numBins then d2 else d1

/-- The other one. -/
def longDist (d1 d2 : Distribution) : Distribution := if d2.numBins < d1.numBins then d1 else d2

/-- `distribution_min_difference_with`. -/
def distributionMinDifferenceWith (b : Build) (d1 d2 : Distribution) : Option ℕ :=
  if d1.numBins = 0 ∨ d2.numBins = 0 then some uint64Max
  else do
    let short := shortDist d1 d2
    let minDifference ← forRangeM 0 short.numBins uint64Max fun minDifference shortBin =>
      minDifferenceWithRound b (longDist d1 d2) (short.sortedValues shortBin) minDifference
    b.assert (decide (0 < minDifference))
    some minDifference

/-! ## Differences -/

/-- The values in the bins. -/
def Distribution.stored (dist : Distribution) : Set ℤ := dist.sortedValues '' Set.Iio dist.numBins

/-- The differences between distinct values of `s` and `t`. -/
def differences (s t : Set ℤ) : Set ℕ := {d | ∃ x ∈ s, ∃ y ∈ t, x ≠ y ∧ (x - y).natAbs = d}

variable {b : Build} {dist d1 d2 : Distribution} {s s' t : Set ℤ} {x : ℤ} {pos : ℕ}

theorem Distribution.mem_stored (dist : Distribution) {i : ℕ} (hi : i < dist.numBins) :
    dist.sortedValues i ∈ dist.stored := ⟨i, hi, rfl⟩

theorem differences_comm (s t : Set ℤ) : differences s t = differences t s := by
  ext d
  constructor
  all_goals
    rintro ⟨x, hx, y, hy, hne, rfl⟩
    exact ⟨y, hy, x, hx, hne.symm, by omega⟩

theorem differences_union_left (s s' t : Set ℤ) :
    differences (s ∪ s') t = differences s t ∪ differences s' t := by
  ext d
  constructor
  · rintro ⟨x, hx | hx, hd⟩
    · exact .inl ⟨x, hx, hd⟩
    · exact .inr ⟨x, hx, hd⟩
  · rintro (⟨x, hx, hd⟩ | ⟨x, hx, hd⟩)
    · exact ⟨x, .inl hx, hd⟩
    · exact ⟨x, .inr hx, hd⟩

theorem uint64Of_eq (hnonneg : 0 ≤ x) (hlt : x < 2 ^ 64) : uint64Of x = x.natAbs := by
  rw [uint64Of, Int.emod_eq_of_lt hnonneg hlt]
  omega

/-- The difference of two `int64_t` as an `uint64_t` does not depend on its overflow. -/
theorem uint64Of_int64Sub (x y : ℤ) : uint64Of (int64Sub x y) = uint64Of (x - y) := by
  have hcast : (2 ^ 64 : ℤ) = ((2 ^ 64 : ℕ) : ℤ) := by norm_num
  rw [uint64Of, int64Sub, uint64Of, hcast, Int.bmod_emod]

/-! ## Within a distribution -/

/-- A round changes what it has so far only in the second bin: the later ones are further from the
first. -/
theorem minDifferenceRound_eq (b : Build) {bin m : ℕ}
    (hmono : StrictMonoOn dist.sortedValues (Set.Iio dist.numBins))
    (hrange : ∀ i < dist.numBins, -2 ^ 63 ≤ dist.sortedValues i ∧ dist.sortedValues i < 2 ^ 63)
    (hpos : 0 < bin) (hbin : bin < dist.numBins)
    (hm : m = if 1 < bin then (dist.sortedValues 1 - dist.sortedValues 0).natAbs else uint64Max) :
    minDifferenceRound b dist (dist.sortedValues 0) m bin
      = some (dist.sortedValues 1 - dist.sortedValues 0).natAbs := by
  have hless := hmono.entry_lt hpos hbin
  have hrange0 := hrange 0 (by omega)
  have hrangeBin := hrange bin hbin
  have hdifference : uint64Of (int64Sub (dist.sortedValues bin) (dist.sortedValues 0))
      = (dist.sortedValues bin - dist.sortedValues 0).natAbs := by
    rw [uint64Of_int64Sub, uint64Of_eq (by omega) (by omega)]
  rw [minDifferenceRound, b.assert_decide hless]
  simp only [hdifference, Option.bind_eq_bind, Option.bind_some]
  congr 1
  rcases Nat.lt_or_ge 1 bin with hgt | hle
  · have hsecond := hmono.entry_lt hgt hbin
    have hfirst := hmono.entry_lt one_pos (hgt.trans hbin)
    rw [if_pos hgt] at hm
    rw [if_neg (by omega), hm]
  · obtain rfl : bin = 1 := by omega
    rw [if_neg (lt_irrefl 1), uint64Max] at hm
    split <;> omega

/-- `distribution_min_difference` returns the difference of the first two values. -/
theorem distributionMinDifference_eq (b : Build)
    (hmono : StrictMonoOn dist.sortedValues (Set.Iio dist.numBins))
    (hrange : ∀ i < dist.numBins, -2 ^ 63 ≤ dist.sortedValues i ∧ dist.sortedValues i < 2 ^ 63) :
    distributionMinDifference b dist
      = some (if 1 < dist.numBins then (dist.sortedValues 1 - dist.sortedValues 0).natAbs
        else uint64Max) := by
  unfold distributionMinDifference
  split
  · rename_i hzero
    rw [if_neg (by omega)]
  rename_i hnonempty
  have hround : ∀ bin m, 1 ≤ bin → bin < 1 + (dist.numBins - 1) →
      (m = if 1 < bin then (dist.sortedValues 1 - dist.sortedValues 0).natAbs else uint64Max) →
      ∃ m', minDifferenceRound b dist (dist.sortedValues 0) m bin = some m' ∧
        m' = if 1 < bin + 1 then (dist.sortedValues 1 - dist.sortedValues 0).natAbs
          else uint64Max := by
    intro bin m hone hbin hm
    refine ⟨_, minDifferenceRound_eq b hmono hrange hone (by omega) hm, ?_⟩
    rw [if_pos (show 1 < bin + 1 by omega)]
  obtain ⟨m, hloop, rfl⟩ := forRangeM_induction 1 (dist.numBins - 1) uint64Max _ _
    (if_neg (lt_irrefl 1)).symm hround
  rw [Nat.add_sub_cancel' (Nat.pos_of_ne_zero hnonempty)] at hloop
  simp only [Option.bind_eq_bind, hloop, Option.bind_some]
  rw [b.assert_decide, Option.bind_some]
  split
  · rename_i hwide
    have hfirst := hmono.entry_lt one_pos hwide
    omega
  · decide

/-- It is the smallest difference between two of the values, and `UINT64_MAX` without two of them,
exactly when no two neighbours are closer than the first two. -/
theorem distributionMinDifference_isLeast_iff (b : Build)
    (hmono : StrictMonoOn dist.sortedValues (Set.Iio dist.numBins))
    (hrange : ∀ i < dist.numBins, -2 ^ 63 ≤ dist.sortedValues i ∧ dist.sortedValues i < 2 ^ 63) :
    (∃ d, distributionMinDifference b dist = some d ∧
        IsLeastOr (differences dist.stored dist.stored) uint64Max d) ↔
      ∀ i, i + 1 < dist.numBins →
        dist.sortedValues 1 - dist.sortedValues 0 ≤ dist.sortedValues (i + 1)
          - dist.sortedValues i := by
  simp only [distributionMinDifference_eq b hmono hrange, Option.some.injEq, exists_eq_left']
  by_cases hwide : 1 < dist.numBins
  · have hfirst := hmono.entry_lt one_pos hwide
    have hmem : (dist.sortedValues 1 - dist.sortedValues 0).natAbs
        ∈ differences dist.stored dist.stored :=
      ⟨_, dist.mem_stored hwide, _, dist.mem_stored (by omega), hfirst.ne', rfl⟩
    rw [if_pos hwide, isLeastOr_iff_of_mem hmem]
    constructor
    · intro hleast i hi
      have hnext := hmono.entry_lt (Nat.lt_add_one i) hi
      have hle := hleast _ ⟨_, dist.mem_stored hi, _, dist.mem_stored (by omega), hnext.ne', rfl⟩
      omega
    · intro hclosest
      -- a value and a larger one, which is not before the next value
      have hordered : ∀ j < dist.numBins, ∀ i < j,
          dist.sortedValues 1 - dist.sortedValues 0
            ≤ dist.sortedValues j - dist.sortedValues i := by
        intro j hj i hij
        have hnext := hclosest i (by omega)
        have hle := hmono.entry_le (show i + 1 ≤ j from hij) hj
        omega
      rintro d ⟨x, ⟨i, hi, rfl⟩, y, ⟨j, hj, rfl⟩, hne, rfl⟩
      rcases lt_trichotomy i j with hij | rfl | hij
      · have := hordered j hj i hij
        omega
      · exact absurd rfl hne
      · have := hordered i hi j hij
        omega
  · rw [if_neg hwide]
    refine iff_of_true ?_ fun i hi => absurd hi (by omega)
    refine .inr ⟨Set.eq_empty_iff_forall_notMem.mpr ?_, rfl⟩
    rintro d ⟨x, ⟨i, hi, rfl⟩, y, ⟨j, hj, rfl⟩, hne, rfl⟩
    rw [Set.mem_Iio] at hi hj
    obtain rfl : i = j := by omega
    exact hne rfl

/-- The values 0, 10 and 11. -/
def closeLastBins : Distribution where
  allocation := { sortedValues := fun i => [0, 10, 11].getD i 0, counts := fun i => i + 1 }
  numBins := 3
  capacity := 4

theorem closeLastBins_increasing : StrictMonoOn closeLastBins.sortedValues
    (Set.Iio closeLastBins.numBins) :=
  strictMonoOn_Iio_iff.mpr (by decide)

/-- The answer is 10, the difference between 10 and 11 is missed. -/
theorem closeLastBins_missed :
    ¬ ∃ d, distributionMinDifference ⟨true⟩ closeLastBins = some d ∧
      IsLeastOr (differences closeLastBins.stored closeLastBins.stored) uint64Max d := by
  rw [distributionMinDifference_eq ⟨true⟩ closeLastBins_increasing (by decide)]
  rintro ⟨d, hd, hleast⟩
  obtain rfl := Option.some.inj hd
  -- the difference 1 of the last two values
  have hmem : 1 ∈ differences closeLastBins.stored closeLastBins.stored :=
    ⟨_, closeLastBins.mem_stored (show 2 < 3 by decide), _, closeLastBins.mem_stored
    (show 1 < 3 by decide), by decide,
      by decide⟩
  rcases hleast with hmin | ⟨hempty, -⟩
  · exact absurd (hmin.2 hmem) (by decide)
  · exact Set.notMem_empty 1 (hempty ▸ hmem)

/-- Two values 3 and 7. -/
def twoBins : Distribution where
  allocation := { sortedValues := fun i => [3, 7].getD i 0, counts := fun i => i + 1 }
  numBins := 2
  capacity := 4

theorem distributionMinDifference_isLeast_iff_twoBins :
    ∃ d, distributionMinDifference ⟨true⟩ twoBins = some d ∧
      IsLeastOr (differences twoBins.stored twoBins.stored) uint64Max d := by
  rw [distributionMinDifference_isLeast_iff ⟨true⟩ (strictMonoOn_Iio_iff.mpr (by decide))
    (by decide)]
  intro i hi
  obtain rfl : i = 0 := Nat.lt_one_iff.mp (Nat.succ_lt_succ_iff.mp hi)
  exact le_rfl

/-! ## Between two distributions -/

/-- The neighbours of a first bin with the value are not taken into account. -/
theorem neighbourDifference_first (b : Build)
    (hmono : StrictMonoOn dist.sortedValues (Set.Iio dist.numBins))
    (hfits : ∀ i < dist.numBins, |dist.sortedValues i - dist.sortedValues 0| < 2 ^ 63) :
    neighbourDifference b dist (dist.sortedValues 0) 0 = some 0 := by
  rw [neighbourDifference, if_neg (lt_irrefl 0), Option.bind_eq_bind, Option.bind_some]
  split
  · rename_i hnext
    have hless := hmono.entry_lt one_pos hnext
    rw [int64Sub_eq (hfits _ hnext)]
    have hpos : 0 < dist.sortedValues (0 + 1) - dist.sortedValues 0 := sub_pos.mpr hless
    simp only [b.assert_decide hpos, Option.bind_eq_bind, Option.bind_some, if_neg hpos.not_gt]
  · rfl

/-- In a later bin they give the smallest difference. -/
theorem neighbourDifference_later (b : Build)
    (hmono : StrictMonoOn dist.sortedValues (Set.Iio dist.numBins)) (hlater : 0 < pos)
    (hpos : pos < dist.numBins)
    (hfits : ∀ i < dist.numBins, |dist.sortedValues i - dist.sortedValues pos| < 2 ^ 63) :
    ∃ g, neighbourDifference b dist (dist.sortedValues pos) pos = some g ∧ 0 < g ∧ g < 2 ^ 63 ∧
      IsLeast (differences {dist.sortedValues pos} dist.stored) g.natAbs := by
  have hlow := hmono.entry_lt (show pos - 1 < pos by omega) hpos
  have hlowFits := hfits (pos - 1) (by omega)
  rw [abs_sub_comm] at hlowFits
  have hlowPos : 0 < dist.sortedValues pos - dist.sortedValues (pos - 1) := sub_pos.mpr hlow
  rw [neighbourDifference, if_pos hlater, int64Sub_eq hlowFits]
  simp only [b.assert_decide hlowPos, Option.bind_eq_bind, Option.bind_some]
  rw [abs_of_pos hlowPos] at hlowFits
  have hlowMem : (dist.sortedValues pos - dist.sortedValues (pos - 1)).natAbs
      ∈ differences {dist.sortedValues pos} dist.stored :=
    ⟨_, rfl, _, dist.mem_stored (by omega), hlow.ne', rfl⟩
  split
  · rename_i hnext
    have hhigh := hmono.entry_lt (Nat.lt_add_one pos) hnext
    have hhighFits := hfits (pos + 1) hnext
    have hhighPos : 0 < dist.sortedValues (pos + 1) - dist.sortedValues pos := sub_pos.mpr hhigh
    rw [int64Sub_eq hhighFits, b.assert_decide hhighPos, Option.bind_some]
    rw [abs_of_pos hhighPos] at hhighFits
    have hhighMem : (dist.sortedValues (pos + 1) - dist.sortedValues pos).natAbs
        ∈ differences {dist.sortedValues pos} dist.stored :=
      ⟨_, rfl, _, dist.mem_stored hnext, hhigh.ne, by omega⟩
    refine ⟨_, rfl, by split <;> assumption, by split <;> assumption, ?_, ?_⟩
    · split
      · exact hhighMem
      · exact hlowMem
    · rintro d ⟨x, rfl, y, ⟨i, hi, rfl⟩, hne, rfl⟩
      rcases lt_trichotomy i pos with hbefore | rfl | hafter
      · have := hmono.entry_le (show i ≤ pos - 1 by omega) (by omega)
        split <;> omega
      · exact absurd rfl hne
      · have := hmono.entry_le (show pos + 1 ≤ i by omega) hi
        split <;> omega
  · rename_i hlast
    refine ⟨_, rfl, hlowPos, hlowFits, hlowMem, ?_⟩
    rintro d ⟨x, rfl, y, ⟨i, hi, rfl⟩, hne, rfl⟩
    rw [Set.mem_Iio] at hi
    rcases lt_or_ge i pos with hbefore | hafter
    · have := hmono.entry_le (show i ≤ pos - 1 by omega) (by omega)
      omega
    · obtain rfl : i = pos := by omega
      exact absurd rfl hne

/-- From a nearest bin on, any value but the first has a smallest difference. -/
theorem nearestDifference_spec (b : Build)
    (hmono : StrictMonoOn dist.sortedValues (Set.Iio dist.numBins)) (hx : x ≠ dist.sortedValues 0)
    (hfits : ∀ i < dist.numBins, |dist.sortedValues i - x| < 2 ^ 63) (hpos : pos < dist.numBins)
    (hnearest : ∀ i < dist.numBins, |dist.sortedValues pos - x| ≤ |dist.sortedValues i - x|) :
    ∃ g, nearestDifference b dist x pos = some g ∧ 0 < g ∧ g < 2 ^ 63 ∧
      IsLeast (differences {x} dist.stored) g.natAbs := by
  have hsub := hfits pos hpos
  have hleast : dist.sortedValues pos ≠ x →
      IsLeast (differences {x} dist.stored) (dist.sortedValues pos - x).natAbs := by
    intro hne
    refine ⟨⟨x, rfl, _, dist.mem_stored hpos, hne.symm, by omega⟩, ?_⟩
    rintro d ⟨y, rfl, z, ⟨i, hi, rfl⟩, -, rfl⟩
    have hi' := hnearest i hi
    rw [Int.abs_eq_natAbs, Int.abs_eq_natAbs] at hi'
    omega
  rw [abs_sub_comm] at hsub
  rw [nearestDifference, int64Sub_eq hsub]
  rcases lt_trichotomy (dist.sortedValues pos) x with hless | rfl | hgreater
  · rw [abs_of_pos (sub_pos.mpr hless)] at hsub
    rw [if_neg (by omega), if_neg (by omega)]
    refine ⟨_, rfl, sub_pos.mpr hless, hsub, ?_⟩
    rw [← Int.natAbs_neg, neg_sub]
    exact hleast hless.ne
  · have hlater : 0 < pos := Nat.pos_of_ne_zero fun hzero => hx (congrArg dist.sortedValues hzero)
    rw [if_pos (sub_self _)]
    exact neighbourDifference_later b hmono hlater hpos hfits
  · rw [abs_of_neg (sub_neg.mpr hgreater), neg_sub] at hsub
    have hneg : int64Sub 0 (x - dist.sortedValues pos) = dist.sortedValues pos - x := by
      rw [int64Sub_eq, zero_sub, neg_sub]
      rw [zero_sub, abs_neg, abs_of_neg (sub_neg.mpr hgreater), neg_sub]
      exact hsub
    rw [if_neg (by omega), if_pos (sub_neg.mpr hgreater), hneg]
    exact ⟨_, rfl, sub_pos.mpr hgreater, hsub, hleast hgreater.ne'⟩

/-- The round up to the differences of the nearest bin. -/
theorem minDifferenceWithRound_of_nearest (b : Build) (x : ℤ) (m : ℕ)
    (hmono : StrictMonoOn dist.sortedValues (Set.Iio dist.numBins)) (hnonempty : 0 < dist.numBins)
    (hfits : ∀ i < dist.numBins, |dist.sortedValues i - x| < 2 ^ 63) :
    ∃ pos < dist.numBins,
    (∀ i < dist.numBins, |dist.sortedValues pos - x| ≤ |dist.sortedValues i - x|) ∧
      minDifferenceWithRound b dist x m = (nearestDifference b dist x pos).bind fun difference =>
        if difference = 0 then some m else (b.assert (decide (0 < difference))).bind fun _ =>
          some (if uint64Of difference < m then uint64Of difference else m) := by
  have hspec := distributionBinByValue_isNearest x hmono hfits
  rw [minDifferenceWithRound, distributionBinByValueChecked_eq _ _ _ hmono]
  cases hbin : distributionBinByValue dist x .nearest with
  | ptrdiffMin =>
      rw [hbin] at hspec
      exact absurd hspec hnonempty.ne'
  | ptrdiffMax =>
      rw [hbin] at hspec
      exact hspec.elim
  | bin pos =>
      rw [hbin] at hspec
      refine ⟨pos, hspec.1, hspec.2, ?_⟩
      simp only [Except.toOption, Option.bind_eq_bind, Option.bind_some, b.assert_decide hspec.1]

/-- A round with the first value of the other distribution is skipped. -/
theorem minDifferenceWithRound_first (b : Build) (m : ℕ)
    (hmono : StrictMonoOn dist.sortedValues (Set.Iio dist.numBins)) (hnonempty : 0 < dist.numBins)
    (hfits : ∀ i < dist.numBins, |dist.sortedValues i - dist.sortedValues 0| < 2 ^ 63) :
    minDifferenceWithRound b dist (dist.sortedValues 0) m = some m := by
  obtain ⟨pos, hpos, hnearest, hround⟩ :=
    minDifferenceWithRound_of_nearest b _ m hmono hnonempty hfits
  have heq : dist.sortedValues pos = dist.sortedValues 0 := by
    have hzero := hnearest 0 hnonempty
    rw [sub_self, abs_zero, abs_nonpos_iff, sub_eq_zero] at hzero
    exact hzero
  obtain rfl : pos = 0 := hmono.injOn (Set.mem_Iio.mpr hpos) (Set.mem_Iio.mpr hnonempty) heq
  have hsub : int64Sub (dist.sortedValues 0) (dist.sortedValues 0) = 0 := by
    rw [int64Sub, sub_self]
    rfl
  rw [hround, nearestDifference, hsub, if_pos rfl, neighbourDifference_first b hmono hfits,
    Option.bind_some, if_pos rfl]

/-- Any other round takes its smallest difference into account. -/
theorem minDifferenceWithRound_eq (b : Build) (m : ℕ)
    (hmono : StrictMonoOn dist.sortedValues (Set.Iio dist.numBins)) (hnonempty : 0 < dist.numBins)
    (hx : x ≠ dist.sortedValues 0)
    (hfits : ∀ i < dist.numBins, |dist.sortedValues i - x| < 2 ^ 63) :
    ∃ g, minDifferenceWithRound b dist x m = some (if g < m then g else m) ∧ g < uint64Max ∧
      IsLeast (differences {x} dist.stored) g := by
  obtain ⟨pos, hpos, hnearest, hround⟩ :=
    minDifferenceWithRound_of_nearest b _ m hmono hnonempty hfits
  obtain ⟨g, hg, hgpos, hgfits, hleast⟩ := nearestDifference_spec b hmono hx hfits hpos hnearest
  refine ⟨g.natAbs, ?_, ?_, hleast⟩
  · rw [hround, hg, Option.bind_some, if_neg hgpos.ne', b.assert_decide hgpos, Option.bind_some,
      uint64Of_eq hgpos.le (by omega)]
  · rw [uint64Max]
    omega

/-- The loop finds the smallest difference to a value that is not the first one of the other
distribution. -/
theorem minDifferenceWithRounds_spec (b : Build) {short long : Distribution}
    (hmono : StrictMonoOn long.sortedValues (Set.Iio long.numBins)) (hnonempty : 0 < long.numBins)
    (hfits : ∀ i < short.numBins, ∀ j < long.numBins, |long.sortedValues j - short.sortedValues i|
      < 2 ^ 63) :
    ∃ m, forRangeM 0 short.numBins uint64Max
        (fun m i => minDifferenceWithRound b long (short.sortedValues i) m) = some m ∧
      IsLeastOr (differences (short.stored \ {long.sortedValues 0}) long.stored) uint64Max m := by
  have hloop := forRangeM_induction 0 short.numBins uint64Max
    (fun m i => minDifferenceWithRound b long (short.sortedValues i) m)
    (fun k m => IsLeastOr
    (differences (short.sortedValues '' Set.Iio k \ {long.sortedValues 0}) long.stored)
      uint64Max m) ?_ ?_
  · rwa [Nat.zero_add] at hloop
  · have hnone : differences (short.sortedValues '' Set.Iio 0 \ {long.sortedValues 0}) long.stored
        = ∅ := by
      refine Set.eq_empty_iff_forall_notMem.mpr ?_
      rintro d ⟨x, ⟨⟨i, hi, rfl⟩, -⟩, -⟩
      exact Nat.not_lt_zero i hi
    rw [hnone]
    exact isLeastOr_empty _
  · intro k m _ hk hm
    rw [Nat.zero_add] at hk
    have hmore : short.sortedValues '' Set.Iio (k + 1)
        = insert (short.sortedValues k) (short.sortedValues '' Set.Iio k) := by
      rw [← Set.image_insert_eq]
      congr 1
      ext i
      exact Nat.lt_succ_iff_lt_or_eq.trans or_comm
    rw [hmore]
    by_cases hfirst : short.sortedValues k ∈ ({long.sortedValues 0} : Set ℤ)
    · rw [Set.insert_sdiff_of_mem _ hfirst]
      refine ⟨m, ?_, hm⟩
      rw [Set.mem_singleton_iff] at hfirst
      rw [hfirst]
      apply minDifferenceWithRound_first b m hmono hnonempty
      rw [← hfirst]
      exact hfits k hk
    · obtain ⟨g, hround, hlt, hleast⟩ := minDifferenceWithRound_eq b m hmono hnonempty hfirst
        (hfits k hk)
      refine ⟨_, hround, ?_⟩
      rw [Set.insert_sdiff_of_notMem _ hfirst, Set.insert_eq, Set.union_comm,
        differences_union_left]
      exact hm.union hleast hlt.le

theorem shortDist_longDist (d1 d2 : Distribution) :
    shortDist d1 d2 = d1 ∧ longDist d1 d2 = d2 ∨ shortDist d1 d2 = d2 ∧ longDist d1 d2 = d1 := by
  rw [shortDist, longDist]
  split
  · exact .inr ⟨rfl, rfl⟩
  · exact .inl ⟨rfl, rfl⟩

/-- The smallest difference is not missed: no value is the first one of the distribution with more
bins, or that has no other value, or another value is as close to one of its values as its second
value is to the first. -/
def NeighbourCounts (short long : Distribution) : Prop :=
  long.sortedValues 0 ∉ short.stored ∨ long.numBins = 1 ∨
    ∃ x ∈ short.stored, x ≠ long.sortedValues 0 ∧ ∃ y ∈ long.stored, x ≠ y ∧
      |x - y| ≤ long.sortedValues 1 - long.sortedValues 0

/-- Leaving out the first value of the other distribution. -/
theorem isLeastOr_differences_iff {short long : Distribution} {m : ℕ}
    (hmono : StrictMonoOn long.sortedValues (Set.Iio long.numBins)) (hnonempty : 0 < long.numBins)
    (hfits : ∀ i < short.numBins, ∀ j < long.numBins, |long.sortedValues j - short.sortedValues i|
      < 2 ^ 63)
    (hm : IsLeastOr (differences (short.stored \ {long.sortedValues 0}) long.stored) uint64Max m) :
    IsLeastOr (differences short.stored long.stored) uint64Max m ↔ NeighbourCounts short long := by
  rw [NeighbourCounts]
  by_cases hfirst : long.sortedValues 0 ∈ short.stored
  · have hsplit : differences short.stored long.stored
        = differences (short.stored \ {long.sortedValues 0}) long.stored
          ∪ differences {long.sortedValues 0} long.stored := by
      rw [← differences_union_left, Set.sdiff_union_of_subset (Set.singleton_subset_iff.mpr hfirst)]
    rw [hsplit]
    by_cases hone : long.numBins = 1
    · -- its only value has no distance to itself
      refine iff_of_true ?_ (.inr (.inl hone))
      have hnone : differences {long.sortedValues 0} long.stored = ∅ := by
        refine Set.eq_empty_iff_forall_notMem.mpr ?_
        rintro d ⟨x, rfl, y, ⟨j, hj, rfl⟩, hne, -⟩
        rw [hone, Set.mem_Iio, Nat.lt_one_iff] at hj
        exact hne (congrArg long.sortedValues hj.symm)
      rw [hnone, Set.union_empty]
      exact hm
    · have hsecond : 1 < long.numBins := by omega
      have hless := hmono.entry_lt one_pos hsecond
      have hleast : IsLeast (differences {long.sortedValues 0} long.stored)
          (long.sortedValues 1 - long.sortedValues 0).natAbs := by
        refine ⟨⟨_, rfl, _, long.mem_stored hsecond, hless.ne, by omega⟩, ?_⟩
        rintro d ⟨x, rfl, y, ⟨j, hj, rfl⟩, hne, rfl⟩
        have hj1 : 1 ≤ j := Nat.pos_of_ne_zero fun hzero =>
          hne (congrArg long.sortedValues hzero.symm)
        have hle := hmono.entry_le hj1 hj
        omega
      have htop : (long.sortedValues 1 - long.sortedValues 0).natAbs < uint64Max := by
        obtain ⟨i, hi, hvalue⟩ := hfirst
        have hdist := hfits i hi 1 hsecond
        rw [hvalue, abs_of_pos (sub_pos.mpr hless)] at hdist
        rw [uint64Max]
        omega
      rw [hm.union_iff hleast htop]
      constructor
      · rintro ⟨d, ⟨x, hx, y, hy, hne, rfl⟩, hle⟩
        refine .inr (.inr ⟨x, hx.1, hx.2, y, hy, hne, ?_⟩)
        rw [Int.abs_eq_natAbs]
        omega
      · rintro (hnot | hone' | ⟨x, hx, hxne, y, hy, hne, hle⟩)
        · exact absurd hfirst hnot
        · exact absurd hone' hone
        · rw [Int.abs_eq_natAbs] at hle
          exact ⟨_, ⟨x, ⟨hx, hxne⟩, y, hy, hne, rfl⟩, by omega⟩
  · rw [Set.sdiff_singleton_eq_self hfirst] at hm
    exact iff_of_true hm (.inl hfirst)

/-- `distribution_min_difference_with` is the smallest difference between a value of each
distribution, and `UINT64_MAX` without one, exactly when this difference is not missed at the first
value of one of them. -/
theorem distributionMinDifferenceWith_isLeast_iff (b : Build) (hnonempty1 : 0 < d1.numBins)
    (hnonempty2 : 0 < d2.numBins) (hmono1 : StrictMonoOn d1.sortedValues (Set.Iio d1.numBins))
    (hmono2 : StrictMonoOn d2.sortedValues (Set.Iio d2.numBins))
    (hfits : ∀ i < d1.numBins, ∀ j < d2.numBins, |d1.sortedValues i - d2.sortedValues j| < 2 ^ 63) :
    (∃ d, distributionMinDifferenceWith b d1 d2 = some d ∧
        IsLeastOr (differences d1.stored d2.stored) uint64Max d) ↔
      NeighbourCounts (shortDist d1 d2) (longDist d1 d2) := by
  have hmono : StrictMonoOn (longDist d1 d2).sortedValues (Set.Iio (longDist d1 d2).numBins) ∧
      0 < (longDist d1 d2).numBins ∧
      (∀ i < (shortDist d1 d2).numBins, ∀ j < (longDist d1 d2).numBins,
        |(longDist d1 d2).sortedValues j - (shortDist d1 d2).sortedValues i| < 2 ^ 63) ∧
      differences d1.stored d2.stored = differences (shortDist d1 d2).stored
        (longDist d1 d2).stored := by
    rcases shortDist_longDist d1 d2 with ⟨hshort, hlong⟩ | ⟨hshort, hlong⟩
    · rw [hshort, hlong]
      refine ⟨hmono2, hnonempty2, fun i hi j hj => ?_, rfl⟩
      rw [abs_sub_comm]
      exact hfits i hi j hj
    · rw [hshort, hlong]
      exact ⟨hmono1, hnonempty1, fun i hi j hj => hfits j hj i hi, differences_comm _ _⟩
  obtain ⟨hmono, hnonempty, hfits', hcomm⟩ := hmono
  obtain ⟨m, hloop, hm⟩ := minDifferenceWithRounds_spec b hmono hnonempty hfits'
  have hpos : 0 < m := by
    rcases hm with ⟨⟨x, -, y, -, hne, rfl⟩, -⟩ | ⟨-, rfl⟩
    · exact Int.natAbs_pos.mpr (sub_ne_zero.mpr hne)
    · decide
  have hresult : distributionMinDifferenceWith b d1 d2 = some m := by
    rw [distributionMinDifferenceWith, if_neg (by omega)]
    simp only [Option.bind_eq_bind, hloop, Option.bind_some, b.assert_decide hpos]
  rw [hcomm]
  simp only [hresult, Option.some.injEq, exists_eq_left']
  exact isLeastOr_differences_iff hmono hnonempty hfits' hm

/-- The values -87 and 5. -/
def lowBins : Distribution where
  allocation := { sortedValues := fun i => [-87, 5].getD i 0, counts := fun i => i + 1 }
  numBins := 2
  capacity := 4

/-- The values 5 and 8. -/
def nearBins : Distribution where
  allocation := { sortedValues := fun i => [5, 8].getD i 0, counts := fun i => i + 1 }
  numBins := 2
  capacity := 4

/-- The answer is 92 in one order, the difference between -87 and 5, and 3 in the other. -/
theorem lowBins_orderMatters :
    (¬ ∃ d, distributionMinDifferenceWith ⟨true⟩ lowBins nearBins = some d ∧
      IsLeastOr (differences lowBins.stored nearBins.stored) uint64Max d) ∧
    distributionMinDifferenceWith ⟨true⟩ lowBins nearBins = some 92 ∧
    distributionMinDifferenceWith ⟨true⟩ nearBins lowBins = some 3 := by
  have hlow : distributionMinDifferenceWith ⟨true⟩ lowBins nearBins = some 92 := by decide
  refine ⟨?_, hlow, by decide⟩
  rintro ⟨d, hd, hleast⟩
  rw [hlow] at hd
  obtain rfl := Option.some.inj hd
  -- the difference between 5 and 8
  have hmem : 3 ∈ differences lowBins.stored nearBins.stored :=
    ⟨_, lowBins.mem_stored (show 1 < 2 by decide), _, nearBins.mem_stored
    (show 1 < 2 by decide), by decide, by decide⟩
  rcases hleast with hmin | ⟨hempty, -⟩
  · exact absurd (hmin.2 hmem) (by decide)
  · exact Set.notMem_empty 3 (hempty ▸ hmem)

theorem distributionMinDifferenceWith_isLeast_iff_nearBins :
    ∃ d, distributionMinDifferenceWith ⟨true⟩ nearBins lowBins = some d ∧
      IsLeastOr (differences nearBins.stored lowBins.stored) uint64Max d := by
  rw [distributionMinDifferenceWith_isLeast_iff ⟨true⟩ (by decide) (by decide)
    (strictMonoOn_Iio_iff.mpr (by decide)) (strictMonoOn_Iio_iff.mpr (by decide)) (by decide)]
  -- -87 is not one of the values 5 and 8
  apply Or.inl
  rintro ⟨i, hi, hvalue⟩
  have hpair : ∀ i < 2, nearBins.sortedValues i ≠ -87 := by decide
  exact hpair i hi hvalue

end Udipe

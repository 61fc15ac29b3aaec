import Udipe.Benchmark.Distribution
import Udipe.Lib.Checked
import Udipe.Lib.SortedArray
import Mathlib

/-!
# Searching a bin by its value

Reference: `benchmark/distribution.h`.

A value lies past the last bin, before the first one, in a bin or between two of them. The search
finds out where, and the direction says which bin that makes.
-/

namespace Udipe

open Checked

/-! ## The search with its assertions -/

/-- The assertions of `distribution_bin_by_value`. -/
inductive BinSearchFailure where
  | notBelowLast
  | notAboveFirst
  | emptyInterval
  | belowValue
  | aboveValue
  | middlePos
  | middleValue
  | wideGap
deriving DecidableEq, Repr

/-- The choice between the two bins around a value. -/
def roundBetween (value : ℤ) (direction : BinDirection) (belowPos : ℕ) (belowValue : ℤ)
    (abovePos : ℕ) (aboveValue : ℤ) : BinPos :=
  match direction with
  | .below => .bin belowPos
  | .nearest =>
      if int64Sub value belowValue ≤ int64Sub aboveValue value then .bin belowPos else .bin abovePos
  | .above => .bin abovePos

/-- The binary search, with its assertions. -/
def searchBetweenChecked (assertions : Bool) (sortedValues : ℕ → ℤ) (value : ℤ)
    (direction : BinDirection) (belowPos : ℕ) (belowValue : ℤ) (abovePos : ℕ) (aboveValue : ℤ) :
    Except BinSearchFailure BinPos :=
  if 1 < abovePos - belowPos then do
    assertion assertions (decide (belowPos < abovePos)) .emptyInterval
    assertion assertions (decide (belowValue < value)) .belowValue
    assertion assertions (decide (value < aboveValue)) .aboveValue
    let middlePos := belowPos + (abovePos - belowPos) / 2
    assertion assertions (decide (belowPos ≤ middlePos)) .middlePos
    assertion assertions (decide (middlePos < abovePos)) .middlePos
    let middleValue := sortedValues middlePos
    assertion assertions (decide (belowValue ≤ middleValue)) .middleValue
    assertion assertions (decide (middleValue < aboveValue)) .middleValue
    if value < middleValue then
      searchBetweenChecked assertions sortedValues value direction belowPos belowValue middlePos
        middleValue
    else if middleValue < value then
      searchBetweenChecked assertions sortedValues value direction middlePos middleValue
        abovePos aboveValue
    else
      assertion assertions (decide (middleValue = value)) .middleValue
      pure (.bin middlePos)
  else do
    assertion assertions (decide (abovePos = belowPos + 1)) .wideGap
    assertion assertions (decide (belowValue < value)) .belowValue
    assertion assertions (decide (value < aboveValue)) .aboveValue
    pure (roundBetween value direction belowPos belowValue abovePos aboveValue)
termination_by abovePos - belowPos

/-- `distribution_bin_by_value`, with its assertions. -/
def distributionBinByValueChecked (assertions : Bool) (dist : Distribution) (value : ℤ)
    (direction : BinDirection) : Except BinSearchFailure BinPos :=
  let sortedValues := dist.sortedValues
  if dist.numBins = 0 then
    match direction with
    | .below | .nearest => pure .ptrdiffMin
    | .above => pure .ptrdiffMax
  else
    let lastPos := dist.numBins - 1
    let lastValue := sortedValues lastPos
    if lastValue < value then
      match direction with
      | .below | .nearest => pure (.bin lastPos)
      | .above => pure .ptrdiffMax
    else if value = lastValue then pure (.bin lastPos)
    else do
      assertion assertions (decide (value < lastValue)) .notBelowLast
      let firstPos := 0
      let firstValue := sortedValues firstPos
      if value < firstValue then
        match direction with
        | .below => pure .ptrdiffMin
        | .nearest | .above => pure (.bin firstPos)
      else if value = firstValue then pure (.bin firstPos)
      else
        assertion assertions (decide (firstValue < value)) .notAboveFirst
        searchBetweenChecked assertions sortedValues value direction firstPos firstValue
          lastPos lastValue

variable {values : ℕ → ℤ} {dist : Distribution} {value : ℤ} {direction : BinDirection}
  {n below above : ℕ}

/-- A round of the binary search. -/
theorem searchBetween_of_wide (belowValue aboveValue : ℤ) (h : 1 < above - below) :
    searchBetween values value direction below belowValue above aboveValue
      = if value < values (below + (above - below) / 2) then
          searchBetween values value direction below belowValue (below + (above - below) / 2)
            (values (below + (above - below) / 2))
        else if values (below + (above - below) / 2) < value then
          searchBetween values value direction (below + (above - below) / 2)
            (values (below + (above - below) / 2)) above aboveValue
        else .bin (below + (above - below) / 2) := by
  rw [searchBetween.eq_def, if_pos h]

/-- Its end. -/
theorem searchBetween_of_narrow (belowValue aboveValue : ℤ) (h : ¬ 1 < above - below) :
    searchBetween values value direction below belowValue above aboveValue
      = roundBetween value direction below belowValue above aboveValue := by
  rw [searchBetween.eq_def, if_neg h]
  rfl

/-- No assertion of the binary search fails. -/
theorem searchBetweenChecked_eq (assertions : Bool) (direction : BinDirection)
    (hmono : StrictMonoOn values (Set.Iio n)) (hlt : below < above) (habove : above < n)
    (hbelowValue : values below < value) (haboveValue : value < values above) :
    searchBetweenChecked assertions values value direction below (values below) above (values above)
      = .ok (searchBetween values value direction below (values below) above (values above)) := by
  -- on the width of the interval
  induction hwidth : above - below using Nat.strong_induction_on generalizing below above with
  | _ width ih =>
    have hpositions := assertion_of_true assertions BinSearchFailure.emptyInterval
      (decide_eq_true hlt)
    have hbelowCheck := assertion_of_true assertions BinSearchFailure.belowValue
      (decide_eq_true hbelowValue)
    have haboveCheck := assertion_of_true assertions BinSearchFailure.aboveValue
      (decide_eq_true haboveValue)
    by_cases hwide : 1 < above - below
    · rw [searchBetweenChecked, if_pos hwide, searchBetween_of_wide _ _ hwide]
      have hmiddle := bisection_inside hwide
      obtain ⟨hlow, hhigh⟩ := hmiddle
      generalize below + (above - below) / 2 = middle at *
      have hlowValue : values below < values middle := hmono.entry_lt hlow (by omega)
      have hhighValue : values middle < values above := hmono.entry_lt hhigh habove
      simp only [hpositions, hbelowCheck, haboveCheck, ok_bind,
        assertion_of_true assertions BinSearchFailure.middlePos (decide_eq_true hlow.le),
        assertion_of_true assertions BinSearchFailure.middlePos (decide_eq_true hhigh),
        assertion_of_true assertions BinSearchFailure.middleValue (decide_eq_true hlowValue.le),
        assertion_of_true assertions BinSearchFailure.middleValue (decide_eq_true hhighValue)]
      split
      · rename_i hless
        exact ih _ (by omega) hlow (by omega) hbelowValue hless rfl
      · rename_i hless
        split
        · rename_i hgreater
          exact ih _ (by omega) hhigh habove hgreater haboveValue rfl
        · rename_i hgreater
          have heq : values middle = value := le_antisymm (not_lt.mp hless) (not_lt.mp hgreater)
          rw [assertion_of_true assertions _ (decide_eq_true heq)]
          rfl
    · rw [searchBetweenChecked, if_neg hwide, searchBetween_of_narrow _ _ hwide]
      have hgap : above = below + 1 := by omega
      simp only [hbelowCheck, haboveCheck, ok_bind,
        assertion_of_true assertions BinSearchFailure.wideGap (decide_eq_true hgap)]
      rfl

/-! ## Where a value lies -/

/-- Where a value lies among the bins. -/
inductive BinLocation where
  | noBins
  | pastLast
  | beforeFirst
  | inBin (pos : ℕ)
  | afterBin (pos : ℕ)

/-- What the location says about the values of the bins. -/
def BinLocation.Holds (values : ℕ → ℤ) (n : ℕ) (value : ℤ) : BinLocation → Prop
  | .noBins => n = 0
  | .pastLast => 0 < n ∧ values (n - 1) < value
  | .beforeFirst => 0 < n ∧ value < values 0
  | .inBin pos => pos < n ∧ values pos = value
  | .afterBin pos => pos + 1 < n ∧ values pos < value ∧ value < values (pos + 1)

/-- The bin that the direction makes of the location. -/
def BinLocation.answer (values : ℕ → ℤ) (n : ℕ) (value : ℤ) : BinLocation → BinDirection → BinPos
  | .noBins, .above | .pastLast, .above => .ptrdiffMax
  | .noBins, _ | .beforeFirst, .below => .ptrdiffMin
  | .pastLast, _ => .bin (n - 1)
  | .beforeFirst, _ => .bin 0
  | .inBin pos, _ => .bin pos
  | .afterBin pos, direction =>
      roundBetween value direction pos (values pos) (pos + 1) (values (pos + 1))

/-- The binary search finds the location of a value between two bins. -/
theorem searchBetween_spec (hlt : below < above) (habove : above < n)
    (hbelowValue : values below < value) (haboveValue : value < values above) :
    ∃ location : BinLocation, location.Holds values n value ∧ ∀ direction,
      searchBetween values value direction below (values below) above (values above)
        = location.answer values n value direction := by
  induction hwidth : above - below using Nat.strong_induction_on generalizing below above with
  | _ width ih =>
    by_cases hwide : 1 < above - below
    · have hmiddle := bisection_inside hwide
      simp only [searchBetween_of_wide _ _ hwide]
      obtain ⟨hlow, hhigh⟩ := hmiddle
      generalize below + (above - below) / 2 = middle at *
      split
      · rename_i hless
        exact ih _ (by omega) hlow (by omega) hbelowValue hless rfl
      · rename_i hless
        split
        · rename_i hgreater
          exact ih _ (by omega) hhigh habove hgreater haboveValue rfl
        · rename_i hgreater
          refine ⟨.inBin middle, ⟨by omega, ?_⟩, fun _ => rfl⟩
          exact le_antisymm (not_lt.mp hless) (not_lt.mp hgreater)
    · obtain rfl : above = below + 1 := by omega
      refine ⟨.afterBin below, ⟨habove, hbelowValue, haboveValue⟩, fun direction => ?_⟩
      rw [searchBetween_of_narrow _ _ hwide]
      rfl

/-- What `distribution_bin_by_value` computes, in every direction. -/
theorem distributionBinByValue_spec (dist : Distribution) (value : ℤ) :
    ∃ location : BinLocation, location.Holds dist.sortedValues dist.numBins value ∧ ∀ direction,
      distributionBinByValue dist value direction
        = location.answer dist.sortedValues dist.numBins value direction := by
  by_cases hzero : dist.numBins = 0
  · refine ⟨.noBins, hzero, fun direction => ?_⟩
    simp only [distributionBinByValue, if_pos hzero]
    cases direction <;> rfl
  have hpos := Nat.pos_of_ne_zero hzero
  rcases lt_trichotomy value (dist.sortedValues (dist.numBins - 1)) with hlast | hlast | hlast
  · rcases lt_trichotomy value (dist.sortedValues 0) with hfirst | hfirst | hfirst
    · refine ⟨.beforeFirst, ⟨hpos, hfirst⟩, fun direction => ?_⟩
      simp only [distributionBinByValue, if_neg hzero, if_neg hlast.not_gt, if_neg hlast.ne,
        if_pos hfirst]
      cases direction <;> rfl
    · refine ⟨.inBin 0, ⟨hpos, hfirst.symm⟩, fun direction => ?_⟩
      simp only [distributionBinByValue, if_neg hzero, if_neg hlast.not_gt, if_neg hlast.ne,
        if_neg hfirst.not_lt, if_pos hfirst]
      rfl
    · have hwide : 0 < dist.numBins - 1 := by
        by_contra hone
        rw [Nat.eq_zero_of_not_pos hone] at hlast
        exact absurd hfirst hlast.not_gt
      obtain ⟨location, hholds, hsearch⟩ := searchBetween_spec (n := dist.numBins) hwide (by omega)
        hfirst hlast
      refine ⟨location, hholds, fun direction => ?_⟩
      simp only [distributionBinByValue, if_neg hzero, if_neg hlast.not_gt, if_neg hlast.ne,
        if_neg hfirst.not_gt, if_neg hfirst.ne']
      exact hsearch direction
  · refine ⟨.inBin (dist.numBins - 1), ⟨by omega, hlast.symm⟩, fun direction => ?_⟩
    simp only [distributionBinByValue, if_neg hzero, if_neg hlast.not_gt, if_pos hlast]
    rfl
  · refine ⟨.pastLast, ⟨hpos, hlast⟩, fun direction => ?_⟩
    simp only [distributionBinByValue, if_neg hzero, if_pos hlast]
    cases direction <;> rfl

/-- No assertion of `distribution_bin_by_value` fails on sorted bins. -/
theorem distributionBinByValueChecked_eq (assertions : Bool) (value : ℤ) (direction : BinDirection)
    (hmono : StrictMonoOn dist.sortedValues (Set.Iio dist.numBins)) :
    distributionBinByValueChecked assertions dist value direction
      = .ok (distributionBinByValue dist value direction) := by
  simp only [distributionBinByValueChecked, distributionBinByValue]
  by_cases hzero : dist.numBins = 0
  · rw [if_pos hzero, if_pos hzero]
    cases direction <;> rfl
  rw [if_neg hzero, if_neg hzero]
  by_cases hpast : dist.sortedValues (dist.numBins - 1) < value
  · rw [if_pos hpast, if_pos hpast]
    cases direction <;> rfl
  rw [if_neg hpast, if_neg hpast]
  by_cases hlast : value = dist.sortedValues (dist.numBins - 1)
  · rw [if_pos hlast, if_pos hlast]
    rfl
  have hbelow : value < dist.sortedValues (dist.numBins - 1) :=
    lt_of_le_of_ne (not_lt.mp hpast) hlast
  rw [if_neg hlast, if_neg hlast, assertion_of_true assertions _ (decide_eq_true hbelow), ok_bind]
  by_cases hbefore : value < dist.sortedValues 0
  · rw [if_pos hbefore, if_pos hbefore]
    cases direction <;> rfl
  rw [if_neg hbefore, if_neg hbefore]
  by_cases hfirst : value = dist.sortedValues 0
  · rw [if_pos hfirst, if_pos hfirst]
    rfl
  have habove : dist.sortedValues 0 < value := lt_of_le_of_ne (not_lt.mp hbefore) (Ne.symm hfirst)
  have hwide : 0 < dist.numBins - 1 := by
    by_contra hone
    rw [Nat.eq_zero_of_not_pos hone] at hbelow
    exact absurd habove hbelow.not_gt
  rw [if_neg hfirst, if_neg hfirst, assertion_of_true assertions _ (decide_eq_true habove), ok_bind]
  exact searchBetweenChecked_eq assertions direction hmono hwide (by omega) habove hbelow

/-! ## The three directions -/

/-- The last bin whose value is at most `value`. -/
def IsLastAtMost (dist : Distribution) (value : ℤ) : BinPos → Prop
  | .ptrdiffMin => ∀ i < dist.numBins, value < dist.sortedValues i
  | .ptrdiffMax => False
  | .bin pos => pos < dist.numBins ∧ dist.sortedValues pos ≤ value ∧
      ∀ i < dist.numBins, dist.sortedValues i ≤ value → i ≤ pos

/-- The first bin whose value is at least `value`. -/
def IsFirstAtLeast (dist : Distribution) (value : ℤ) : BinPos → Prop
  | .ptrdiffMin => False
  | .ptrdiffMax => ∀ i < dist.numBins, dist.sortedValues i < value
  | .bin pos => pos < dist.numBins ∧ value ≤ dist.sortedValues pos ∧
      ∀ i < dist.numBins, value ≤ dist.sortedValues i → pos ≤ i

/-- A bin whose value is closest to `value`. -/
def IsNearest (dist : Distribution) (value : ℤ) : BinPos → Prop
  | .ptrdiffMin => dist.numBins = 0
  | .ptrdiffMax => False
  | .bin pos => pos < dist.numBins ∧
      ∀ i < dist.numBins, |dist.sortedValues pos - value| ≤ |dist.sortedValues i - value|

theorem distributionBinByValue_isLastAtMost (value : ℤ)
    (hmono : StrictMonoOn dist.sortedValues (Set.Iio dist.numBins)) :
    IsLastAtMost dist value (distributionBinByValue dist value .below) := by
  have hlt : ∀ {i j}, i < dist.numBins → j < dist.numBins →
      (dist.sortedValues i < dist.sortedValues j ↔ i < j) := fun hi hj => hmono.lt_iff_lt hi hj
  have hle : ∀ {i j}, i < dist.numBins → j < dist.numBins →
      (dist.sortedValues i ≤ dist.sortedValues j ↔ i ≤ j) := fun hi hj => hmono.le_iff_le hi hj
  obtain ⟨location, hholds, hanswer⟩ := distributionBinByValue_spec dist value
  rw [hanswer]
  cases location with
  | noBins =>
      intro i hi
      rw [show dist.numBins = 0 from hholds] at hi
      exact absurd hi (Nat.not_lt_zero i)
  | pastLast =>
      obtain ⟨hpos, hlast⟩ := hholds
      exact ⟨by omega, hlast.le, fun i hi _ => by omega⟩
  | beforeFirst =>
      obtain ⟨hpos, hfirst⟩ := hholds
      exact fun i hi => hfirst.trans_le ((hle hpos hi).mpr (Nat.zero_le i))
  | inBin pos =>
      obtain ⟨hpos, heq⟩ := hholds
      exact ⟨hpos, heq.le, fun i hi hless => (hle hi hpos).mp (hless.trans heq.ge)⟩
  | afterBin pos =>
      obtain ⟨hpos, hlow, hhigh⟩ := hholds
      refine ⟨by omega, hlow.le, fun i hi hless => ?_⟩
      exact Nat.lt_succ_iff.mp ((hlt hi hpos).mp (hless.trans_lt hhigh))

theorem distributionBinByValue_isFirstAtLeast (value : ℤ)
    (hmono : StrictMonoOn dist.sortedValues (Set.Iio dist.numBins)) :
    IsFirstAtLeast dist value (distributionBinByValue dist value .above) := by
  have hlt : ∀ {i j}, i < dist.numBins → j < dist.numBins →
      (dist.sortedValues i < dist.sortedValues j ↔ i < j) := fun hi hj => hmono.lt_iff_lt hi hj
  have hle : ∀ {i j}, i < dist.numBins → j < dist.numBins →
      (dist.sortedValues i ≤ dist.sortedValues j ↔ i ≤ j) := fun hi hj => hmono.le_iff_le hi hj
  obtain ⟨location, hholds, hanswer⟩ := distributionBinByValue_spec dist value
  rw [hanswer]
  cases location with
  | noBins =>
      intro i hi
      rw [show dist.numBins = 0 from hholds] at hi
      exact absurd hi (Nat.not_lt_zero i)
  | pastLast =>
      obtain ⟨hpos, hlast⟩ := hholds
      exact fun i hi => ((hle hi (by omega)).mpr (by omega)).trans_lt hlast
  | beforeFirst =>
      obtain ⟨hpos, hfirst⟩ := hholds
      exact ⟨hpos, hfirst.le, fun i _ _ => Nat.zero_le i⟩
  | inBin pos =>
      obtain ⟨hpos, heq⟩ := hholds
      exact ⟨hpos, heq.ge, fun i hi hless => (hle hpos hi).mp (heq.le.trans hless)⟩
  | afterBin pos =>
      obtain ⟨hpos, hlow, hhigh⟩ := hholds
      exact ⟨hpos, hhigh.le, fun i hi hless => (hlt (by omega) hi).mp (hlow.trans_le hless)⟩

theorem int64Sub_eq {x y : ℤ} (h : |x - y| < 2 ^ 63) : int64Sub x y = x - y := by
  rw [abs_lt] at h
  unfold int64Sub
  exact Int.bmod_eq_of_le (by omega) (by omega)

/-- Of two bins around a value, the closer one is at least as close as any other bin. -/
theorem distributionBinByValue_isNearest (value : ℤ)
    (hmono : StrictMonoOn dist.sortedValues (Set.Iio dist.numBins))
    (hfits : ∀ i < dist.numBins, |dist.sortedValues i - value| < 2 ^ 63) :
    IsNearest dist value (distributionBinByValue dist value .nearest) := by
  obtain ⟨location, hholds, hanswer⟩ := distributionBinByValue_spec dist value
  rw [hanswer]
  cases location with
  | noBins => exact hholds
  | pastLast =>
      obtain ⟨hpos, hlast⟩ := hholds
      refine ⟨by omega, fun i hi => ?_⟩
      have hi' := hmono.entry_le (show i ≤ dist.numBins - 1 by omega) (by omega)
      rw [abs_of_neg (by omega), abs_of_neg (by omega)]
      omega
  | beforeFirst =>
      obtain ⟨hpos, hfirst⟩ := hholds
      refine ⟨hpos, fun i hi => ?_⟩
      have hi' := hmono.entry_le (Nat.zero_le i) hi
      rw [abs_of_pos (by omega), abs_of_pos (by omega)]
      omega
  | inBin pos =>
      obtain ⟨hpos, heq⟩ := hholds
      refine ⟨hpos, fun i _ => ?_⟩
      rw [heq, sub_self, abs_zero]
      exact abs_nonneg _
  | afterBin pos =>
      obtain ⟨hpos, hlow, hhigh⟩ := hholds
      have hlowFits := hfits pos (by omega)
      rw [abs_sub_comm] at hlowFits
      -- any other bin is behind one of the two
      have hfar : ∀ i < dist.numBins, value - dist.sortedValues pos
          ≤ |dist.sortedValues i - value| ∨
          dist.sortedValues (pos + 1) - value ≤ |dist.sortedValues i - value| := fun i hi => by
        rcases Nat.lt_or_ge pos i with hgt | hge
        · have hi' := hmono.entry_le (show pos + 1 ≤ i by omega) hi
          right
          rw [abs_of_pos (by omega)]
          omega
        · have hi' := hmono.entry_le hge (by omega)
          left
          rw [abs_of_neg (by omega)]
          omega
      simp only [BinLocation.answer, roundBetween, int64Sub_eq hlowFits, int64Sub_eq (hfits _ hpos)]
      split
      · rename_i hcloser
        refine ⟨by omega, fun i hi => ?_⟩
        rw [abs_sub_comm, abs_of_pos (by omega)]
        rcases hfar i hi with h | h <;> omega
      · rename_i hcloser
        refine ⟨hpos, fun i hi => ?_⟩
        rw [abs_of_pos (by omega)]
        rcases hfar i hi with h | h <;> omega

/-- On strictly sorted bins `distribution_bin_by_value` finds the last bin that is not above the
value, the first one that is not below it, or a nearest one, and none of its assertions fails. -/
theorem distributionBinByValue_rounds (b : Build) (value : ℤ)
    (hmono : StrictMonoOn dist.sortedValues (Set.Iio dist.numBins)) :
    (∀ direction, distributionBinByValueChecked b.assertions dist value direction
      = .ok (distributionBinByValue dist value direction)) ∧
    IsLastAtMost dist value (distributionBinByValue dist value .below) ∧
    IsFirstAtLeast dist value (distributionBinByValue dist value .above) ∧
    ((∀ i < dist.numBins, |dist.sortedValues i - value| < 2 ^ 63) →
      IsNearest dist value (distributionBinByValue dist value .nearest)) :=
  ⟨fun direction => distributionBinByValueChecked_eq b.assertions value direction hmono,
    distributionBinByValue_isLastAtMost value hmono,
    distributionBinByValue_isFirstAtLeast value hmono, distributionBinByValue_isNearest value hmono⟩

/-- The values -5, 3 and 10. -/
def threeBins : Distribution where
  allocation := { sortedValues := fun i => [-5, 3, 10].getD i 0, counts := fun _ => 1 }
  numBins := 3
  capacity := 4

theorem threeBins_increasing : StrictMonoOn threeBins.sortedValues (Set.Iio threeBins.numBins) :=
  strictMonoOn_Iio_iff.mpr (by decide)

theorem distributionBinByValue_rounds_threeBins :
    distributionBinByValueChecked true threeBins 7 .nearest = .ok (.bin 2) ∧
      IsNearest threeBins 7 (.bin 2) := by
  have hspec := distributionBinByValue_rounds ⟨true⟩ 7 threeBins_increasing
  have hanswer : distributionBinByValue threeBins 7 .nearest = .bin 2 := by
    simp [distributionBinByValue, searchBetween, threeBins, Distribution.sortedValues, int64Sub]
  rw [← hanswer]
  exact ⟨hspec.1 .nearest, hspec.2.2.2 (by decide)⟩

end Udipe

import Udipe.Lib.Loops
import Udipe.Lib.Machine
import Udipe.Future.Status
import Mathlib.Algebra.BigOperators.Group.Multiset.Defs

/-!
# Sample distributions

Reference: `benchmark/distribution.h`, `benchmark/distribution.c`.

The two arrays of the allocation are functions on indices; a fresh allocation has arbitrary contents. A
value is an integer, of which only the difference in `BIN_NEAREST` mode can leave the range of `int64_t`;
a count is a natural number, added modulo `2 ^ 64`. A function that ends the process has the result
`none`.
-/

namespace Udipe

open Function

/-- The contents of an allocation: the values, then the counts or end ranks. -/
@[ext] structure Allocation where
  sortedValues : ℕ → ℤ
  counts : ℕ → ℕ

/-- `distribution_t`. -/
@[ext] structure Distribution where
  allocation : Allocation
  numBins : ℕ
  capacity : ℕ

namespace Distribution

/-- `layout.sorted_values` for `distribution_layout(dist)`. -/
def sortedValues (dist : Distribution) : ℕ → ℤ := dist.allocation.sortedValues

/-- `layout.counts`, or `layout.end_ranks` once the distribution is built. -/
def counts (dist : Distribution) : ℕ → ℕ := dist.allocation.counts

/-- The value and the count of a bin. -/
def bin (dist : Distribution) (i : ℕ) : ℤ × ℕ := (dist.sortedValues i, dist.counts i)

/-- Writing the value and the count of a bin. -/
def setBin (dist : Distribution) (i : ℕ) (bin : ℤ × ℕ) : Distribution :=
  { dist with
    allocation :=
      { sortedValues := update dist.sortedValues i bin.1
        counts := update dist.counts i bin.2 } }

/-- Writing the count of a bin. -/
def setCount (dist : Distribution) (i count : ℕ) : Distribution :=
  { dist with allocation := { dist.allocation with counts := update dist.counts i count } }

end Distribution

/-- `distribution_allocate`, where `malloc` answers memory with contents `memory`. -/
def distributionAllocate (capacity : ℕ) (memory : Allocation) : Option Distribution :=
  if capacity ≠ 0 then some { allocation := memory, numBins := 0, capacity := capacity } else none

/-- `bin_direction_t`. -/
inductive BinDirection where
  | below
  | nearest
  | above
deriving DecidableEq, Repr

/-- The answer of `distribution_bin_by_value`. -/
inductive BinPos where
  /-- `PTRDIFF_MIN`. -/
  | ptrdiffMin
  /-- `PTRDIFF_MAX`. -/
  | ptrdiffMax
  | bin (pos : ℕ)
deriving DecidableEq, Repr

/-- The difference of two `int64_t`, wrapped where it is undefined in C. -/
def int64Sub (x y : ℤ) : ℤ := Int.bmod (x - y) (2 ^ 64)

/-- The binary search between two bins and what follows it. -/
def searchBetween (sortedValues : ℕ → ℤ) (value : ℤ) (direction : BinDirection)
    (belowPos : ℕ) (belowValue : ℤ) (abovePos : ℕ) (aboveValue : ℤ) : BinPos :=
  if 1 < abovePos - belowPos then
    let middlePos := belowPos + (abovePos - belowPos) / 2
    let middleValue := sortedValues middlePos
    if value < middleValue then
      searchBetween sortedValues value direction belowPos belowValue middlePos middleValue
    else if middleValue < value then
      searchBetween sortedValues value direction middlePos middleValue abovePos aboveValue
    else .bin middlePos
  else
    match direction with
    | .below => .bin belowPos
    | .nearest =>
        if int64Sub value belowValue ≤ int64Sub aboveValue value then .bin belowPos
        else .bin abovePos
    | .above => .bin abovePos
termination_by abovePos - belowPos

/-- `distribution_bin_by_value`. Its assertions restate the conditions of the branches taken. -/
def distributionBinByValue (dist : Distribution) (value : ℤ) (direction : BinDirection) : BinPos :=
  let sortedValues := dist.sortedValues
  if dist.numBins = 0 then
    match direction with
    | .below | .nearest => .ptrdiffMin
    | .above => .ptrdiffMax
  else
    let lastPos := dist.numBins - 1
    let lastValue := sortedValues lastPos
    if lastValue < value then
      match direction with
      | .below | .nearest => .bin lastPos
      | .above => .ptrdiffMax
    else if value = lastValue then .bin lastPos
    else
      let firstPos := 0
      let firstValue := sortedValues firstPos
      if value < firstValue then
        match direction with
        | .below => .ptrdiffMin
        | .nearest | .above => .bin firstPos
      else if value = firstValue then .bin firstPos
      else searchBetween sortedValues value direction firstPos firstValue lastPos lastValue

/-! ## Inserting values -/

/-- The assertions of `distribution_create_bin`. -/
def createBinAllowed (dist : Distribution) (pos : ℕ) (value : ℤ) (count : ℕ) : Bool :=
  decide (pos ≤ dist.numBins) &&
    (decide (pos = 0) || decide (dist.sortedValues (pos - 1) < value)) &&
    (decide (dist.numBins ≤ pos) || decide (value < dist.sortedValues pos)) &&
    decide (0 < count)

/-- `distribution_create_bin`, the path with enough room. -/
def createBinInPlace (dist : Distribution) (pos : ℕ) (value : ℤ) (count : ℕ) : Distribution :=
  let endPos := dist.numBins
  if pos = endPos then
    { dist.setBin endPos (value, count) with numBins := dist.numBins + 1 }
  else
    -- the bin that is still to be written one position further up
    let next := dist.bin pos
    let shifted := forRange (pos + 1) (dist.numBins - (pos + 1)) (dist.setBin pos (value, count), next)
      fun (dist, next) dst => (dist.setBin dst next, dist.bin dst)
    { shifted.1.setBin endPos shifted.2 with numBins := dist.numBins + 1 }

/-- `distribution_create_bin`, the path that reallocates; `memory` is what the fresh allocation holds. -/
def createBinGrowing (dist : Distribution) (pos : ℕ) (value : ℤ) (count : ℕ) (memory : Allocation) :
    Option Distribution :=
  (distributionAllocate (2 * dist.capacity) memory).map fun newDist =>
    let smaller := forRange 0 pos newDist fun newDist bin => newDist.setBin bin (dist.bin bin)
    let inserted := smaller.setBin pos (value, count)
    let larger := forRange pos (dist.numBins - pos) inserted
      fun newDist src => newDist.setBin (src + 1) (dist.bin src)
    { larger with numBins := dist.numBins + 1 }

/-- `distribution_create_bin`. -/
def distributionCreateBin (b : Build) (dist : Distribution) (pos : ℕ) (value : ℤ) (count : ℕ)
    (memory : Allocation) : Option Distribution :=
  if b.assertions && !createBinAllowed dist pos value count then none
  else if dist.numBins < dist.capacity then some (createBinInPlace dist pos value count)
  else if b.assertions && decide (dist.numBins ≠ dist.capacity) then none
  else createBinGrowing dist pos value count memory

/-- `distribution_insert_copies`. On an empty builder the source also reads the value before the first
one, for its log message only. -/
def distributionInsertCopies (b : Build) (dist : Distribution) (value : ℤ) (count : ℕ)
    (memory : Allocation) : Option Distribution :=
  match distributionBinByValue dist value .above with
  | .ptrdiffMax => distributionCreateBin b dist dist.numBins value count memory
  | .ptrdiffMin => none
  | .bin binPos =>
      if value = dist.sortedValues binPos then
        if b.assertions && decide (2 ^ 64 - 1 - count < dist.counts binPos) then none
        else some (dist.setCount binPos ((dist.counts binPos + count) % 2 ^ 64))
      else distributionCreateBin b dist binPos value count memory

/-- `distribution_insert`. -/
def distributionInsert (b : Build) (dist : Distribution) (value : ℤ) (memory : Allocation) :
    Option Distribution :=
  distributionInsertCopies b dist value 1 memory

/-! ## The life of a distribution -/

/-- `DISTRIBUTION_BIN_SIZE`. -/
def distributionBinSize : ℕ := 16

/-- `distribution_initialize`. -/
def distributionInitialize (pageSize : ℕ) (memory : Allocation) : Option Distribution :=
  distributionAllocate (pageSize / distributionBinSize) memory

/-- The loop of `distribution_build`. -/
def accumulateRanks (dist : Distribution) : Distribution × ℕ :=
  forRange 0 dist.numBins (dist, 0) fun (dist, endRank) bin =>
    let endRank := (endRank + dist.counts bin) % 2 ^ 64
    (dist.setCount bin endRank, endRank)

/-- `distribution_build`. -/
def distributionBuild (dist : Distribution) : Option Distribution :=
  if dist.numBins = 0 then none else some (accumulateRanks dist).1

/-- `distribution_reset`. -/
def distributionReset (dist : Distribution) : Distribution :=
  { dist with numBins := 0 }

/-- `distribution_builder_t` or `distribution_t`. -/
inductive DistributionStage where
  | builder (inner : Distribution)
  | built (dist : Distribution)

/-- A distribution and, as history, the values inserted since the last reset. -/
structure DistributionState where
  stage : DistributionStage
  inserted : Multiset ℤ

/-- An operation; `memory` is what `malloc` answers if it is called. -/
inductive DistributionEvent where
  | insert (value : ℤ) (memory : Allocation)
  | insertCopies (value : ℤ) (count : ℕ) (memory : Allocation)
  | build
  | reset

/-- One operation; `none` when its type forbids it or the process ends. -/
def distributionStep (b : Build) (s : DistributionState) :
    DistributionEvent → Option DistributionState
  | .insert value memory =>
      match s.stage with
      | .builder inner =>
          (distributionInsert b inner value memory).map fun inner =>
            { stage := .builder inner, inserted := s.inserted + {value} }
      | .built _ => none
  | .insertCopies value count memory =>
      match s.stage with
      | .builder inner =>
          (distributionInsertCopies b inner value count memory).map fun inner =>
            { stage := .builder inner, inserted := s.inserted + Multiset.replicate count value }
      | .built _ => none
  | .build =>
      match s.stage with
      | .builder inner => (distributionBuild inner).map fun dist => { s with stage := .built dist }
      | .built _ => none
  | .reset =>
      match s.stage with
      | .builder _ => none
      | .built dist => some { stage := .builder (distributionReset dist), inserted := 0 }

/-- The machine of one distribution. -/
def distribution (b : Build) : Machine DistributionState DistributionEvent where
  step := distributionStep b

end Udipe

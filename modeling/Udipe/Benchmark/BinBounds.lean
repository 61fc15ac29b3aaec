import Udipe.Benchmark.Histogram

/-!
# The bins that an insertion touches

Reference: `benchmark/distribution.h`, `benchmark/distribution.c`.

An insertion is run with a check on every access to the two arrays: a read stays below the number of
bins, a write below the number that the builder will have, and that number within the capacity. The
checks do not change what an insertion computes, and they fail on an empty builder only: there the
value before the first bin is read for a log message.
-/

namespace Udipe

open Checked

/-- How an insertion can end the process, or leave the arrays. -/
inductive InsertFailure where
  | assertion
  | ensure
  | readOutOfBounds (pos : ℕ)
  | writeOutOfBounds (pos : ℕ)
deriving DecidableEq, Repr

/-- The failure is not an access. -/
def InsertFailure.InBounds : InsertFailure → Prop
  | .assertion | .ensure => True
  | .readOutOfBounds _ | .writeOutOfBounds _ => False

namespace Distribution

/-- A read of `sorted_values[pos]`. -/
def loadValue (dist : Distribution) (pos : ℕ) : Except InsertFailure ℤ := do
  ensure (decide (pos < dist.numBins)) (.readOutOfBounds pos)
  pure (dist.sortedValues pos)

/-- A read of `counts[pos]`. -/
def loadCount (dist : Distribution) (pos : ℕ) : Except InsertFailure ℕ := do
  ensure (decide (pos < dist.numBins)) (.readOutOfBounds pos)
  pure (dist.counts pos)

/-- A read of both. -/
def loadBin (dist : Distribution) (pos : ℕ) : Except InsertFailure (ℤ × ℕ) := do
  let value ← dist.loadValue pos
  let count ← dist.loadCount pos
  pure (value, count)

/-- A write to both arrays of a distribution that will have `newBins` bins. -/
def storeBin (newBins : ℕ) (dist : Distribution) (pos : ℕ) (bin : ℤ × ℕ) :
    Except InsertFailure Distribution := do
  ensure (decide (pos < newBins ∧ newBins ≤ dist.capacity)) (.writeOutOfBounds pos)
  pure (dist.setBin pos bin)

/-- A write of `counts[pos]`. -/
def storeCount (dist : Distribution) (pos count : ℕ) : Except InsertFailure Distribution := do
  ensure (decide (pos < dist.numBins ∧ dist.numBins ≤ dist.capacity)) (.writeOutOfBounds pos)
  pure (dist.setCount pos count)

end Distribution

variable (b : Build)

/-- The binary search. -/
def searchBetweenBounded (dist : Distribution) (value : ℤ) (direction : BinDirection)
    (belowPos : ℕ) (belowValue : ℤ) (abovePos : ℕ) (aboveValue : ℤ) :
    Except InsertFailure BinPos :=
  if 1 < abovePos - belowPos then do
    assertion b.assertions (decide (belowPos < abovePos)) .assertion
    assertion b.assertions (decide (belowValue < value)) .assertion
    assertion b.assertions (decide (value < aboveValue)) .assertion
    let middlePos := belowPos + (abovePos - belowPos) / 2
    assertion b.assertions (decide (belowPos ≤ middlePos)) .assertion
    assertion b.assertions (decide (middlePos < abovePos)) .assertion
    let middleValue ← dist.loadValue middlePos
    assertion b.assertions (decide (belowValue ≤ middleValue)) .assertion
    assertion b.assertions (decide (middleValue < aboveValue)) .assertion
    if value < middleValue then
      searchBetweenBounded dist value direction belowPos belowValue middlePos middleValue
    else if middleValue < value then
      searchBetweenBounded dist value direction middlePos middleValue abovePos aboveValue
    else
      assertion b.assertions (decide (middleValue = value)) .assertion
      pure (.bin middlePos)
  else do
    assertion b.assertions (decide (abovePos = belowPos + 1)) .assertion
    assertion b.assertions (decide (belowValue < value)) .assertion
    assertion b.assertions (decide (value < aboveValue)) .assertion
    pure (roundBetween value direction belowPos belowValue abovePos aboveValue)
termination_by abovePos - belowPos

/-- `distribution_bin_by_value`. -/
def distributionBinByValueBounded (dist : Distribution) (value : ℤ) (direction : BinDirection) :
    Except InsertFailure BinPos :=
  if dist.numBins = 0 then
    match direction with
    | .below | .nearest => pure .ptrdiffMin
    | .above => pure .ptrdiffMax
  else do
    let lastPos := dist.numBins - 1
    let lastValue ← dist.loadValue lastPos
    if lastValue < value then
      match direction with
      | .below | .nearest => pure (.bin lastPos)
      | .above => pure .ptrdiffMax
    else if value = lastValue then pure (.bin lastPos)
    else
      assertion b.assertions (decide (value < lastValue)) .assertion
      let firstPos := 0
      let firstValue ← dist.loadValue firstPos
      if value < firstValue then
        match direction with
        | .below => pure .ptrdiffMin
        | .nearest | .above => pure (.bin firstPos)
      else if value = firstValue then pure (.bin firstPos)
      else
        assertion b.assertions (decide (firstValue < value)) .assertion
        searchBetweenBounded b dist value direction firstPos firstValue lastPos lastValue

/-- An assertion about the value of a bin, where there is this bin. -/
def assertValue (dist : Distribution) (present : Bool) (pos : ℕ) (holds : ℤ → Bool) :
    Except InsertFailure Unit :=
  if present then do
    let value ← dist.loadValue pos
    ensure (holds value) .assertion
  else pure ()

/-- The assertions of `distribution_create_bin`, which read the bins around the new one. -/
def assertCreateBin (dist : Distribution) (pos : ℕ) (value : ℤ) (count : ℕ) :
    Except InsertFailure Unit :=
  if b.assertions then do
    ensure (decide (pos ≤ dist.numBins)) .assertion
    assertValue dist (decide (0 < pos)) (pos - 1) fun previous => decide (previous < value)
    assertValue dist (decide (pos < dist.numBins)) pos fun next => decide (value < next)
    ensure (decide (0 < count)) .assertion
  else pure ()

/-- `distribution_create_bin`, the path with enough room. -/
def createBinInPlaceBounded (dist : Distribution) (pos : ℕ) (value : ℤ) (count : ℕ) :
    Except InsertFailure Distribution := do
  let endPos := dist.numBins
  let newBins := dist.numBins + 1
  if pos = endPos then
    let dist ← dist.storeBin newBins endPos (value, count)
    pure { dist with numBins := newBins }
  else
    let next ← dist.loadBin pos
    let inserted ← dist.storeBin newBins pos (value, count)
    let shifted ← forRangeE (pos + 1) (dist.numBins - (pos + 1)) (inserted, next)
      fun (dist, next) dst => do
        let tmp ← dist.loadBin dst
        let dist ← dist.storeBin newBins dst next
        pure (dist, tmp)
    let restored ← shifted.1.storeBin newBins endPos shifted.2
    pure { restored with numBins := newBins }

/-- `distribution_create_bin`, the path that reallocates. -/
def createBinGrowingBounded (dist : Distribution) (pos : ℕ) (value : ℤ) (count : ℕ)
    (memory : Allocation) : Except InsertFailure Distribution := do
  let newBins := dist.numBins + 1
  let newDist ← ofOption .ensure (distributionAllocate (2 * dist.capacity) memory)
  let smaller ← forRangeE 0 pos newDist fun newDist bin => do
    let old ← dist.loadBin bin
    newDist.storeBin newBins bin old
  let inserted ← smaller.storeBin newBins pos (value, count)
  let larger ← forRangeE pos (dist.numBins - pos) inserted fun newDist src => do
    let old ← dist.loadBin src
    newDist.storeBin newBins (src + 1) old
  pure { larger with numBins := newBins }

/-- `distribution_create_bin`. -/
def distributionCreateBinBounded (dist : Distribution) (pos : ℕ) (value : ℤ) (count : ℕ)
    (memory : Allocation) : Except InsertFailure Distribution := do
  assertCreateBin b dist pos value count
  if dist.numBins < dist.capacity then createBinInPlaceBounded dist pos value count
  else
    assertion b.assertions (decide (dist.numBins = dist.capacity)) .assertion
    createBinGrowingBounded dist pos value count memory

/-- `distribution_insert_copies`. -/
def distributionInsertCopiesBounded (dist : Distribution) (value : ℤ) (count : ℕ)
    (memory : Allocation) : Except InsertFailure Distribution := do
  let binPos ← distributionBinByValueBounded b dist value .above
  match binPos with
  | .ptrdiffMax =>
      let endPos := dist.numBins
      let lastPos := (endPos + (2 ^ 64 - 1)) % 2 ^ 64
      let _ ← dist.loadValue lastPos
      distributionCreateBinBounded b dist endPos value count memory
  | .ptrdiffMin => .error .assertion
  | .bin binPos =>
      assertion b.assertions (decide (binPos < dist.numBins)) .assertion
      let binValue ← dist.loadValue binPos
      if value = binValue then
        let oldCount ← dist.loadCount binPos
        assertion b.assertions (decide (oldCount ≤ 2 ^ 64 - 1 - count)) .assertion
        dist.storeCount binPos ((oldCount + count) % 2 ^ 64)
      else distributionCreateBinBounded b dist binPos value count memory

/-! ## Accesses within the bounds -/

section

variable {b} {dist : Distribution} {value : ℤ} {count pos below above newBins : ℕ}
  {direction : BinDirection} {bin : ℤ × ℕ} {memory : Allocation}

/-- A read below the number of bins. -/
theorem ends_loadValue (h : pos < dist.numBins) :
    Ends (· = dist.sortedValues pos) InsertFailure.InBounds (dist.loadValue pos) :=
  ends_bind (ends_ensure (by simp [h])) fun _ _ => ends_pure rfl

/-- A read past the bins. -/
theorem loadValue_of_ge (h : dist.numBins ≤ pos) :
    dist.loadValue pos = .error (.readOutOfBounds pos) := by
  rw [Distribution.loadValue, ensure, decide_eq_false (not_lt.mpr h)]
  rfl

theorem ends_loadCount (h : pos < dist.numBins) :
    Ends (· = dist.counts pos) InsertFailure.InBounds (dist.loadCount pos) :=
  ends_bind (ends_ensure (by simp [h])) fun _ _ => ends_pure rfl

theorem ends_loadBin (h : pos < dist.numBins) :
    Ends (· = dist.bin pos) InsertFailure.InBounds (dist.loadBin pos) :=
  ends_bind (ends_loadValue h) fun _ hvalue => ends_bind (ends_loadCount h) fun _ hcount =>
    ends_pure (Prod.ext hvalue hcount)

/-- A write below the number of bins to come. -/
theorem ends_storeBin (h : pos < newBins) (hroom : newBins ≤ dist.capacity) :
    Ends (· = dist.setBin pos bin) InsertFailure.InBounds (dist.storeBin newBins pos bin) :=
  ends_bind (ends_ensure (by simp [h, hroom])) fun _ _ => ends_pure rfl

theorem ends_storeCount (h : pos < dist.numBins) (hroom : dist.numBins ≤ dist.capacity) :
    Ends (· = dist.setCount pos count) InsertFailure.InBounds (dist.storeCount pos count) :=
  ends_bind (ends_ensure (by simp [h, hroom])) fun _ _ => ends_pure rfl

/-- An assertion never leaves the arrays. -/
theorem ends_assert (cond : Bool) :
    Ends (fun _ => True) InsertFailure.InBounds (assertion b.assertions cond .assertion) :=
  ends_assertion trivial

/-- The binary search reads between its two positions only. -/
theorem ends_searchBetweenBounded (hlt : below < above) (habove : above < dist.numBins)
    (belowValue aboveValue : ℤ) :
    Ends (· = searchBetween dist.sortedValues value direction below belowValue above aboveValue)
      InsertFailure.InBounds
      (searchBetweenBounded b dist value direction below belowValue above aboveValue) := by
  induction hwidth : above - below using Nat.strong_induction_on
    generalizing below above belowValue aboveValue with
  | _ width ih =>
    by_cases hwide : 1 < above - below
    · rw [searchBetweenBounded, if_pos hwide, searchBetween_of_wide _ _ hwide]
      obtain ⟨hlow, hhigh⟩ := bisection_inside hwide
      generalize below + (above - below) / 2 = middle at *
      refine ends_bind (ends_assert _) fun _ _ => ends_bind (ends_assert _) fun _ _ => ?_
      refine ends_bind (ends_assert _) fun _ _ => ends_bind (ends_assert _) fun _ _ => ?_
      refine ends_bind (ends_assert _) fun _ _ => ?_
      refine ends_bind (ends_loadValue (by omega)) ?_
      rintro _ rfl
      refine ends_bind (ends_assert _) fun _ _ => ends_bind (ends_assert _) fun _ _ => ?_
      split
      · exact ih _ (by omega) hlow (by omega) _ _ rfl
      · split
        · exact ih _ (by omega) hhigh habove _ _ rfl
        · exact ends_bind (ends_assert _) fun _ _ => ends_pure rfl
    · rw [searchBetweenBounded, if_neg hwide, searchBetween_of_narrow _ _ hwide]
      refine ends_bind (ends_assert _) fun _ _ => ends_bind (ends_assert _) fun _ _ => ?_
      exact ends_bind (ends_assert _) fun _ _ => ends_pure rfl

/-- `distribution_bin_by_value` reads existing bins only, also when there is none. -/
theorem ends_distributionBinByValueBounded (dist : Distribution) (value : ℤ)
    (direction : BinDirection) :
    Ends (· = distributionBinByValue dist value direction) InsertFailure.InBounds
      (distributionBinByValueBounded b dist value direction) := by
  unfold distributionBinByValueBounded distributionBinByValue
  split
  · cases direction <;> exact ends_pure rfl
  · rename_i hsome
    refine ends_bind (ends_loadValue (by omega)) ?_
    rintro _ rfl
    dsimp only
    split
    · cases direction <;> exact ends_pure rfl
    · rename_i hpast
      split
      · exact ends_pure rfl
      · rename_i hlast
        refine ends_bind (ends_assert _) fun _ _ => ?_
        refine ends_bind (ends_loadValue (by omega)) ?_
        rintro _ rfl
        split
        · cases direction <;> exact ends_pure rfl
        · rename_i hbefore
          split
          · exact ends_pure rfl
          · rename_i hfirst
            refine ends_bind (ends_assert _) fun _ _ => ?_
            refine ends_searchBetweenBounded ?_ (by omega) _ _
            -- a value that is in neither of the two needs two of them
            by_contra hone
            rw [Nat.eq_zero_of_not_pos hone] at hpast hlast
            exact hlast (le_antisymm (not_lt.mp hpast) (not_lt.mp hbefore))

/-- The positions that the search answers are those of bins. -/
theorem distributionBinByValue_lt (h : distributionBinByValue dist value direction = .bin pos) :
    pos < dist.numBins := by
  obtain ⟨location, hholds, hanswer⟩ := distributionBinByValue_spec dist value
  have heq := (hanswer direction).symm.trans h
  cases location with
  | noBins => cases direction <;> cases heq
  | pastLast =>
      have hpos : 0 < dist.numBins := hholds.1
      cases direction <;> cases heq <;> omega
  | beforeFirst =>
      have hpos : 0 < dist.numBins := hholds.1
      cases direction <;> cases heq <;> exact hpos
  | inBin i =>
      cases heq
      exact hholds.1
  | afterBin i =>
      have hi : i + 1 < dist.numBins := hholds.1
      simp only [BinLocation.answer, roundBetween] at heq
      split at heq
      · cases heq
        omega
      · split at heq <;> cases heq <;> omega
      · cases heq
        exact hi

theorem ends_assertValue {present : Bool} {holds : ℤ → Bool}
    (h : present = true → pos < dist.numBins) :
    Ends (fun _ => present = true → holds (dist.sortedValues pos) = true) InsertFailure.InBounds
      (assertValue dist present pos holds) := by
  unfold assertValue
  split
  · refine ends_bind (ends_loadValue (h ‹_›)) ?_
    rintro _ rfl
    exact (ends_ensure fun _ => trivial).mono fun _ hholds _ => hholds
  · exact ends_pure fun hpresent => absurd hpresent ‹_›

/-- The assertions of `distribution_create_bin` read existing bins only, and restate
`createBinAllowed`. -/
theorem ends_assertCreateBin (dist : Distribution) (pos : ℕ) (value : ℤ) (count : ℕ) :
    Ends (fun _ => b.assertions = true → createBinAllowed dist pos value count = true)
      InsertFailure.InBounds (assertCreateBin b dist pos value count) := by
  unfold assertCreateBin
  split
  · refine ends_bind (ends_ensure fun _ => trivial) fun _ hpos => ?_
    rw [decide_eq_true_eq] at hpos
    refine ends_bind (ends_assertValue fun h => ?_) fun _ hbefore => ?_
    · rw [decide_eq_true_eq] at h
      omega
    refine ends_bind (ends_assertValue fun h => of_decide_eq_true h) fun _ hafter => ?_
    refine (ends_ensure fun _ => trivial).mono fun _ hcount _ => ?_
    simp only [decide_eq_true_eq] at hbefore hafter hcount
    have hbefore' : pos = 0 ∨ dist.sortedValues (pos - 1) < value :=
      pos.eq_zero_or_pos.imp id hbefore
    have hafter' : dist.numBins ≤ pos ∨ value < dist.sortedValues pos :=
      (le_or_gt dist.numBins pos).imp id hafter
    simp [createBinAllowed, hpos, hbefore', hafter', hcount]
  · exact ends_pure fun h => absurd h ‹_›

/-! ## The two paths of `distribution_create_bin` -/

/-- Shifting the bins in place. -/
theorem ends_createBinInPlaceBounded (hpos : pos ≤ dist.numBins)
    (hroom : dist.numBins < dist.capacity) :
    Ends (· = createBinInPlace dist pos value count) InsertFailure.InBounds
      (createBinInPlaceBounded dist pos value count) := by
  unfold createBinInPlaceBounded createBinInPlace
  by_cases hend : pos = dist.numBins
  · rw [if_pos hend, if_pos hend]
    refine ends_bind (ends_storeBin (Nat.lt_succ_self _) hroom) ?_
    rintro _ rfl
    exact ends_pure rfl
  · rw [if_neg hend, if_neg hend]
    refine ends_bind (ends_loadBin (by omega)) ?_
    rintro _ rfl
    refine ends_bind (ends_storeBin (by omega) hroom) ?_
    rintro _ rfl
    -- the loop changes neither the number of bins nor the capacity
    refine ends_bind (ends_forRangeE _ _ _ _
      (fun s dst => (s.1.setBin dst s.2, s.1.bin dst))
      (fun s => s.1.numBins = dist.numBins ∧ s.1.capacity = dist.capacity) ⟨rfl, rfl⟩ ?_) ?_
    · rintro dst ⟨d, next⟩ hlow hhigh ⟨hnum, hcapacity⟩
      dsimp only at hnum hcapacity
      refine ends_bind (ends_loadBin (by omega)) ?_
      rintro _ rfl
      refine ends_bind (ends_storeBin (by omega) (by omega)) ?_
      rintro _ rfl
      exact ends_pure ⟨rfl, hnum, hcapacity⟩
    · rintro shifted ⟨hshifted, hnum, hcapacity⟩
      refine ends_bind (ends_storeBin (Nat.lt_succ_self _) (by omega)) ?_
      rintro _ rfl
      rw [hshifted]
      exact ends_pure rfl

/-- Moving the bins to a fresh allocation. -/
theorem ends_createBinGrowingBounded (hpos : pos ≤ dist.numBins)
    (hroom : dist.numBins < 2 * dist.capacity) :
    Ends (fun dist' => createBinGrowing dist pos value count memory = some dist')
      InsertFailure.InBounds (createBinGrowingBounded dist pos value count memory) := by
  unfold createBinGrowingBounded createBinGrowing
  cases hnew : distributionAllocate (2 * dist.capacity) memory with
  | none => exact trivial
  | some newDist =>
      have hcapacity : newDist.capacity = 2 * dist.capacity := by
        simp only [distributionAllocate, Option.ite_none_right_eq_some, Option.some.injEq] at hnew
        rw [← hnew.2]
      rw [ofOption_some, ok_bind]
      refine ends_bind (ends_forRangeE _ _ _ _ (fun newDist bin => newDist.setBin bin (dist.bin bin))
        (fun d => d.capacity = newDist.capacity) rfl ?_) ?_
      · intro bin d _ hbin hd
        refine ends_bind (ends_loadBin (by omega)) ?_
        rintro _ rfl
        refine (ends_storeBin (by omega) (by omega)).mono ?_
        rintro _ rfl
        exact ⟨rfl, hd⟩
      · rintro smaller ⟨hsmaller, hd⟩
        refine ends_bind (ends_storeBin (by omega) (by omega)) ?_
        rintro _ rfl
        refine ends_bind (ends_forRangeE _ _ _ _
          (fun newDist src => newDist.setBin (src + 1) (dist.bin src))
          (fun d => d.capacity = newDist.capacity) hd ?_) ?_
        · intro src d hlow hhigh hd
          refine ends_bind (ends_loadBin (by omega)) ?_
          rintro _ rfl
          refine (ends_storeBin (by omega) (by omega)).mono ?_
          rintro _ rfl
          exact ⟨rfl, hd⟩
        · rintro larger ⟨hlarger, -⟩
          rw [hsmaller] at hlarger
          rw [hlarger]
          exact ends_pure rfl

/-! ## Insertions -/

/-- There is room for the bins, and for more after a reallocation. -/
def Distribution.HasRoom (dist : Distribution) : Prop :=
  dist.numBins ≤ dist.capacity ∧ 0 < dist.capacity

theorem ends_distributionCreateBinBounded (h : dist.HasRoom) (hpos : pos ≤ dist.numBins) :
    Ends (fun dist' => distributionCreateBin b dist pos value count memory = some dist')
      InsertFailure.InBounds (distributionCreateBinBounded b dist pos value count memory) := by
  obtain ⟨hroom, hcapacity⟩ := h
  unfold distributionCreateBinBounded distributionCreateBin
  refine ends_bind (ends_assertCreateBin dist pos value count) fun _ hallowed => ?_
  have hassert : (b.assertions && !createBinAllowed dist pos value count) = false := by
    cases hb : b.assertions with
    | false => rfl
    | true => rw [hallowed hb]; rfl
  rw [if_neg (by rw [hassert]; exact Bool.false_ne_true)]
  split
  · exact (ends_createBinInPlaceBounded hpos ‹_›).mono fun _ heq => congrArg some heq.symm
  · have hfull : dist.numBins = dist.capacity := by omega
    rw [if_neg (by simp [hfull])]
    refine ends_bind (ends_assert _) fun _ _ => ?_
    exact ends_createBinGrowingBounded hpos (by omega)

/-- On a builder with bins, an insertion stays in bounds and computes what it should. -/
theorem ends_distributionInsertCopiesBounded (h : dist.HasRoom) (hsome : 0 < dist.numBins)
    (value : ℤ) (count : ℕ) (memory : Allocation) :
    Ends (fun dist' => distributionInsertCopies b dist value count memory = some dist')
      InsertFailure.InBounds (distributionInsertCopiesBounded b dist value count memory) := by
  unfold distributionInsertCopiesBounded distributionInsertCopies
  refine ends_bind (ends_distributionBinByValueBounded dist value .above) ?_
  rintro _ rfl
  cases hbin : distributionBinByValue dist value .above with
  | ptrdiffMax =>
      have hlast : (dist.numBins + (2 ^ 64 - 1)) % 2 ^ 64 < dist.numBins := by omega
      refine ends_bind (ends_loadValue hlast) fun _ _ => ?_
      exact ends_distributionCreateBinBounded h le_rfl
  | ptrdiffMin => exact trivial
  | bin pos =>
      have hpos := distributionBinByValue_lt hbin
      refine ends_bind (ends_assert _) fun _ _ => ?_
      refine ends_bind (ends_loadValue hpos) ?_
      rintro _ rfl
      dsimp only
      split
      · refine ends_bind (ends_loadCount hpos) ?_
        rintro _ rfl
        cases hb : b.assertions && decide (2 ^ 64 - 1 - count < dist.counts pos) with
        | false =>
            refine ends_bind (ends_assert _) fun _ _ => ?_
            exact (ends_storeCount hpos h.1).mono fun _ heq => congrArg some heq.symm
        | true =>
            obtain ⟨hassertions, hlarge⟩ := Bool.and_eq_true_iff.mp hb
            rw [hassertions, decide_eq_false (not_le.mpr (of_decide_eq_true hlarge))]
            exact trivial
      · exact ends_distributionCreateBinBounded h hpos.le

/-! ## Every builder -/

theorem Distribution.HasRoom.createBin {dist' : Distribution} (h : dist.HasRoom)
    (hpos : pos ≤ dist.numBins)
    (hstep : distributionCreateBin b dist pos value count memory = some dist') :
    dist'.HasRoom := by
  obtain ⟨hroom, hcapacity⟩ := h
  obtain ⟨-, hnum, hcap, -⟩ := distributionCreateBin_insertedAt hpos hstep
  split at hcap <;> exact ⟨by omega, by omega⟩

theorem Distribution.HasRoom.insertCopies {dist' : Distribution} (h : dist.HasRoom)
    (hstep : distributionInsertCopies b dist value count memory = some dist') : dist'.HasRoom := by
  unfold distributionInsertCopies at hstep
  split at hstep
  · exact h.createBin le_rfl hstep
  · cases hstep
  · rename_i pos hbin
    split at hstep
    · split at hstep
      · cases hstep
      · obtain rfl := Option.some.inj hstep
        exact h
    · exact h.createBin (distributionBinByValue_lt hbin).le hstep

/-- `distribution_build` keeps the allocation and its bins. -/
theorem accumulateRanks_shape (dist : Distribution) :
    (accumulateRanks dist).1.numBins = dist.numBins ∧
      (accumulateRanks dist).1.capacity = dist.capacity :=
  forRange_induction 0 dist.numBins (dist, 0) _
    (fun _ (s : Distribution × ℕ) => s.1.numBins = dist.numBins ∧ s.1.capacity = dist.capacity)
    ⟨rfl, rfl⟩ fun _ _ _ _ h => h

/-- The distribution, at either stage. -/
def DistributionState.storage (s : DistributionState) : Distribution :=
  match s.stage with
  | .builder inner => inner
  | .built dist => dist

/-- One operation. -/
theorem DistributionState.hasRoom_step {s s' : DistributionState} {e : DistributionEvent}
    (h : s.storage.HasRoom) (hstep : (distribution b).step s e = some s') : s'.storage.HasRoom := by
  obtain ⟨stage, inserted⟩ := s
  cases stage with
  | builder inner =>
      cases e with
      | insert | insertCopies =>
          simp only [distribution, distributionStep, Option.map_eq_some_iff] at hstep
          obtain ⟨dist', hinsert, rfl⟩ := hstep
          exact h.insertCopies hinsert
      | build =>
          simp only [distribution, distributionStep, distributionBuild, Option.map_eq_some_iff,
            Option.ite_none_left_eq_some, Option.some.injEq] at hstep
          obtain ⟨dist', ⟨-, rfl⟩, rfl⟩ := hstep
          obtain ⟨hnum, hcapacity⟩ := accumulateRanks_shape inner
          simp only [DistributionState.storage, Distribution.HasRoom, hnum, hcapacity]
          exact h
      | reset => simp [distribution, distributionStep] at hstep
  | built dist =>
      cases e with
      | reset =>
          simp only [distribution, distributionStep, Option.some.injEq] at hstep
          subst hstep
          exact ⟨Nat.zero_le _, h.2⟩
      | insert | insertCopies | build => simp [distribution, distributionStep] at hstep

/-- An insertion that leaves no array, into a builder that then has room for its bins. -/
def InsertsInBounds (b : Build) (dist : Distribution) (value : ℤ) (count : ℕ)
    (memory : Allocation) : Prop :=
  Ends (fun dist' => dist'.numBins ≤ dist'.capacity) InsertFailure.InBounds
    (distributionInsertCopiesBounded b dist value count memory)

/-- Without a bin, the value before the first one is read. -/
theorem distributionInsertCopiesBounded_empty (hempty : dist.numBins = 0) (value : ℤ) (count : ℕ)
    (memory : Allocation) : distributionInsertCopiesBounded b dist value count memory
      = .error (.readOutOfBounds (2 ^ 64 - 1)) := by
  have hsearch : distributionBinByValueBounded b dist value .above = .ok .ptrdiffMax := by
    unfold distributionBinByValueBounded
    rw [if_pos hempty]
    rfl
  have hlast : (0 + (2 ^ 64 - 1)) % 2 ^ 64 = 2 ^ 64 - 1 := by omega
  rw [distributionInsertCopiesBounded, hsearch, ok_bind]
  simp only [hempty, hlast]
  rw [loadValue_of_ge (hempty.trans_le (Nat.zero_le _))]
  rfl

/-- For every builder that any run leads to, and every value and count: the insertion stays in bounds
exactly when the builder already has a bin. -/
theorem insertion_inBounds_iff (pageSize : ℕ)
    (hinit : distributionInitialize pageSize memory = some dist) {s : DistributionState}
    (hreach : (distribution b).Reachable ⟨.builder dist, 0⟩ s) {inner : Distribution}
    (hstage : s.stage = .builder inner) (value : ℤ) (count : ℕ) (memory' : Allocation) :
    InsertsInBounds b inner value count memory' ↔ 0 < inner.numBins := by
  have hstart : (⟨.builder dist, 0⟩ : DistributionState).storage.HasRoom :=
    have hempty := distributionInitialize_isHistogram hinit
    ⟨hempty.room, hempty.capacity⟩
  have hroom : s.storage.HasRoom := hreach.invariant (fun _ _ _ => DistributionState.hasRoom_step) hstart
  have hinner : inner.HasRoom := by simpa only [DistributionState.storage, hstage] using hroom
  constructor
  · intro hbounds
    by_contra hempty
    rw [InsertsInBounds,
      distributionInsertCopiesBounded_empty (Nat.eq_zero_of_not_pos hempty)] at hbounds
    exact hbounds
  · intro hsome
    exact (ends_distributionInsertCopiesBounded hinner hsome value count memory').mono
      fun _ hinsert => (hinner.insertCopies hinsert).1

/-- After a first value, a second one. -/
theorem insertion_inBounds_iff_second : InsertsInBounds ⟨true⟩
    { allocation := { sortedValues := Function.update (fun _ => 0) 0 5,
                      counts := Function.update (fun _ => 0) 0 1 },
      numBins := 1, capacity := 2 } 3 1 .zero :=
  (insertion_inBounds_iff (b := ⟨true⟩) 32
    (show distributionInitialize 32 .zero = some { allocation := .zero, numBins := 0, capacity := 2 }
      from rfl)
    (s := ⟨.builder _, _⟩) ⟨[.insert 5 .zero], rfl⟩ rfl 3 1 .zero).mpr Nat.one_pos

/-- The first value of a fresh builder. -/
theorem emptyBuilder_readsBeforeFirst :
    distributionInitialize 4096 .zero = some { allocation := .zero, numBins := 0, capacity := 256 } ∧
    distributionInsertCopiesBounded ⟨false⟩ { allocation := .zero, numBins := 0, capacity := 256 } 7 1
      .zero = .error (.readOutOfBounds (2 ^ 64 - 1)) ∧
    ¬ InsertsInBounds ⟨false⟩ { allocation := .zero, numBins := 0, capacity := 256 } 7 1 .zero :=
  have hempty : ({ allocation := .zero, numBins := 0, capacity := 256 } : Distribution).numBins = 0 := rfl
  have hread := distributionInsertCopiesBounded_empty (b := ⟨false⟩) hempty 7 1 .zero
  ⟨rfl, hread, fun h => Ends.of_error h hread⟩

end

end Udipe

import Udipe.Benchmark.Histogram
import Udipe.Lib.RunLength

/-!
# Ranks and values of a built distribution

Reference: `benchmark/distribution.h`.

The values of a built distribution, in increasing order, are the runs that its end ranks delimit.
Looking a rank up finds the run that it falls into, looking a value up counts the runs below it.
-/

namespace Udipe

open Finset

/-- `assert`. -/
def Build.assert (b : Build) (cond : Bool) : Option Unit :=
  (Checked.assertion b.assertions cond ()).toOption

theorem Build.assert_true (b : Build) : b.assert true = some () := by
  rw [Build.assert, Checked.assertion_of_true b.assertions () rfl]
  rfl

theorem Build.assert_decide (b : Build) {p : Prop} [Decidable p] (h : p) :
    b.assert (decide p) = some () := by
  rw [decide_eq_true h, b.assert_true]

/-- `distribution_len`. -/
def distributionLen (b : Build) (dist : Distribution) : Option ℕ := do
  b.assert (decide (1 ≤ dist.numBins))
  some (dist.counts (dist.numBins - 1))

/-- The binary search of `distribution_bin_by_rank` and what follows it. -/
def searchRank (b : Build) (endRanks : ℕ → ℕ)
    (valueRank belowPos belowEndRank abovePos aboveEndRank : ℕ) : Option ℕ :=
  if 1 < abovePos - belowPos then do
    b.assert (decide (belowPos < abovePos))
    b.assert (decide (belowEndRank ≤ valueRank))
    b.assert (decide (valueRank < aboveEndRank))
    let middlePos := belowPos + (abovePos - belowPos) / 2
    b.assert (decide (belowPos ≤ middlePos))
    b.assert (decide (middlePos < abovePos))
    let middleEndRank := endRanks middlePos
    b.assert (decide (belowEndRank ≤ middleEndRank))
    b.assert (decide (middleEndRank < aboveEndRank))
    if valueRank < middleEndRank then
      searchRank b endRanks valueRank belowPos belowEndRank middlePos (endRanks middlePos)
    else
      b.assert (decide (middleEndRank ≤ valueRank))
      searchRank b endRanks valueRank middlePos (endRanks middlePos) abovePos aboveEndRank
  else do
    b.assert (decide (abovePos = belowPos + 1))
    b.assert (decide (belowEndRank ≤ valueRank))
    b.assert (decide (valueRank < aboveEndRank))
    some abovePos
termination_by abovePos - belowPos

/-- `distribution_bin_by_rank`. -/
def distributionBinByRank (b : Build) (dist : Distribution) (valueRank : ℕ) : Option ℕ := do
  let len ← distributionLen b dist
  b.assert (decide (valueRank < len))
  let endRanks := dist.counts
  let firstPos := 0
  let firstEndRank := endRanks firstPos
  if valueRank < firstEndRank then some firstPos
  else
    let abovePos := dist.numBins - 1
    searchRank b endRanks valueRank firstPos (endRanks firstPos) abovePos (endRanks abovePos)

/-- `distribution_nth`. -/
def distributionNth (b : Build) (dist : Distribution) (rank : ℕ) : Option ℤ := do
  b.assert (decide (1 ≤ dist.numBins))
  let bin ← distributionBinByRank b dist rank
  some (dist.sortedValues bin)

/-- `distribution_count_below`. -/
def distributionCountBelow (b : Build) (dist : Distribution) (value : ℤ) (includeEqual : Bool) :
    Option ℕ := do
  let pos ← (distributionBinByValueChecked b.assertions dist value .below).toOption
  match pos with
  | .ptrdiffMin => some 0
  | .ptrdiffMax => none
  | .bin pos =>
      let binValue := dist.sortedValues pos
      if binValue < value ∨ includeEqual then some (dist.counts pos)
      else if pos = 0 then some 0 else some (dist.counts (pos - 1))

/-! ## Built distributions -/

namespace Distribution

/-- The invariant of `distribution_t`. -/
structure Built (dist : Distribution) : Prop where
  nonempty : 0 < dist.numBins
  increasing : StrictMonoOn dist.sortedValues (Set.Iio dist.numBins)
  ranks : StrictMonoOn dist.counts (Set.Iio dist.numBins)
  positive : 0 < dist.counts 0
  fits : dist.counts (dist.numBins - 1) < 2 ^ 64
  room : dist.numBins ≤ dist.capacity

/-- The rank of the first value of a bin: the end rank of the bin before it. -/
def startRank (dist : Distribution) : ℕ → ℕ
  | 0 => 0
  | i + 1 => dist.counts i

/-- The number of values in a bin of a built distribution. -/
def binCount (dist : Distribution) (i : ℕ) : ℕ := dist.counts i - dist.startRank i

/-- The values of a built distribution, in increasing order. -/
def values (dist : Distribution) : List ℤ := runs dist.sortedValues dist.binCount dist.numBins

variable {dist : Distribution} {i r : ℕ}

namespace Built

theorem startRank_lt (h : dist.Built) (hi : i < dist.numBins) :
    dist.startRank i < dist.counts i := by
  cases i with
  | zero => exact h.positive
  | succ i => exact h.ranks.entry_lt (Nat.lt_succ_self i) hi

theorem binCount_pos (h : dist.Built) (hi : i < dist.numBins) : 0 < dist.binCount i :=
  Nat.sub_pos_of_lt (h.startRank_lt hi)

/-- The counts before a bin add up to its first rank. -/
theorem sum_binCount (h : dist.Built) (hi : i ≤ dist.numBins) :
    ∑ j ∈ range i, dist.binCount j = dist.startRank i := by
  induction i with
  | zero => rfl
  | succ i ih =>
      have hlt := h.startRank_lt (show i < dist.numBins by omega)
      rw [Finset.sum_range_succ, ih (by omega), binCount, Nat.add_sub_cancel' hlt.le]
      rfl

theorem length_values (h : dist.Built) : dist.values.length = dist.counts (dist.numBins - 1) := by
  obtain ⟨last, hlast⟩ := Nat.exists_eq_succ_of_ne_zero h.nonempty.ne'
  rw [values, length_runs, h.sum_binCount le_rfl, hlast]
  rfl

theorem length_values_pos (h : dist.Built) : 0 < dist.values.length := by
  rw [h.length_values]
  exact Nat.zero_lt_of_lt (h.startRank_lt (Nat.sub_lt h.nonempty one_pos))

theorem values_sorted (h : dist.Built) : dist.values.Pairwise (· ≤ ·) :=
  pairwise_runs fun _ hj _ hij => (h.increasing.entry_lt hij hj).le

theorem mem_values {x : ℤ} (h : dist.Built) : x ∈ dist.values ↔
    ∃ i < dist.numBins, dist.sortedValues i = x := by
  rw [values, mem_runs]
  constructor
  · rintro ⟨i, hi, -, hx⟩
    exact ⟨i, hi, hx⟩
  · rintro ⟨i, hi, hx⟩
    exact ⟨i, hi, h.binCount_pos hi, hx⟩

/-- The values whose rank is between the first rank and the end rank of a bin. -/
theorem getElem?_values (h : dist.Built) (hi : i < dist.numBins) (hstart : dist.startRank i ≤ r)
    (hend : r < dist.counts i) : dist.values[r]? = some (dist.sortedValues i) := by
  refine getElem?_runs hi ?_ ?_
  · rw [h.sum_binCount hi.le]
    exact hstart
  · rw [h.sum_binCount (show i + 1 ≤ dist.numBins from hi)]
    exact hend

end Built

end Distribution

variable {b : Build} {dist : Distribution} {endRanks : ℕ → ℕ} {n below above rank : ℕ}

/-! ## The search by rank -/

/-- The binary search finds the first bin whose end rank is above the rank, and none of its
assertions fails. -/
theorem searchRank_spec (b : Build) (hmono : StrictMonoOn endRanks (Set.Iio n))
    (hlt : below < above) (habove : above < n) (hbelowRank : endRanks below ≤ rank)
    (haboveRank : rank < endRanks above) :
    ∃ i, searchRank b endRanks rank below (endRanks below) above (endRanks above) = some (i + 1) ∧
      i + 1 < n ∧ endRanks i ≤ rank ∧ rank < endRanks (i + 1) := by
  -- on the width of the interval
  induction hwidth : above - below using Nat.strong_induction_on generalizing below above with
  | _ width ih =>
    by_cases hwide : 1 < above - below
    · have hmiddle := bisection_inside hwide
      rw [searchRank, if_pos hwide]
      obtain ⟨hlow, hhigh⟩ := hmiddle
      generalize below + (above - below) / 2 = middle at *
      have hlowRank : endRanks below < endRanks middle := hmono.entry_lt hlow (by omega)
      have hhighRank : endRanks middle < endRanks above := hmono.entry_lt hhigh habove
      simp only [b.assert_decide hlt, b.assert_decide hbelowRank,
        b.assert_decide haboveRank, b.assert_decide hlow.le,
        b.assert_decide hhigh, b.assert_decide hlowRank.le,
        b.assert_decide hhighRank, Option.bind_eq_bind, Option.bind_some]
      split
      · rename_i hless
        exact ih _ (by omega) hlow (by omega) hbelowRank hless rfl
      · rename_i hge
        rw [b.assert_decide (not_lt.mp hge), Option.bind_some]
        exact ih _ (by omega) hhigh habove (not_lt.mp hge) haboveRank rfl
    · have hgap : above = below + 1 := by omega
      refine ⟨below, ?_, hgap ▸ habove, hbelowRank, hgap ▸ haboveRank⟩
      rw [searchRank, if_neg hwide]
      simp only [b.assert_decide hbelowRank, b.assert_decide haboveRank,
        b.assert_decide hgap, Option.bind_eq_bind, Option.bind_some]
      exact congrArg some hgap

namespace Distribution.Built

theorem distributionLen_eq (b : Build) (h : dist.Built) : distributionLen b dist
    = some dist.values.length := by
  rw [distributionLen, b.assert_decide (show 1 ≤ dist.numBins from h.nonempty), h.length_values]
  rfl

theorem distributionBinByRank_spec (b : Build) (h : dist.Built)
    (hrank : rank < dist.values.length) :
    ∃ i < dist.numBins, distributionBinByRank b dist rank = some i ∧ dist.startRank i ≤ rank ∧
      rank < dist.counts i := by
  rw [distributionBinByRank, h.distributionLen_eq b]
  simp only [Option.bind_eq_bind, Option.bind_some, b.assert_decide hrank]
  split
  · rename_i hfirst
    exact ⟨0, h.nonempty, rfl, Nat.zero_le _, hfirst⟩
  · rename_i hfirst
    rw [h.length_values] at hrank
    have hwide : 0 < dist.numBins - 1 := by
      by_contra hone
      rw [Nat.eq_zero_of_not_pos hone] at hrank
      exact hfirst hrank
    obtain ⟨i, hsearch, hi, hstart, hend⟩ := searchRank_spec b h.ranks hwide (by omega)
      (not_lt.mp hfirst) hrank
    exact ⟨i + 1, hi, hsearch, hstart, hend⟩

/-- `distribution_nth` reads the sorted values. -/
theorem distributionNth_eq (b : Build) (h : dist.Built) (hrank : rank < dist.values.length) :
    distributionNth b dist rank = dist.values[rank]? := by
  obtain ⟨i, hi, hbin, hstart, hend⟩ := h.distributionBinByRank_spec b hrank
  rw [distributionNth, b.assert_decide (show 1 ≤ dist.numBins from h.nonempty), hbin,
    h.getElem?_values hi hstart hend]
  rfl

/-- The number of values in the bins below bin `i`, of a property that holds of exactly these
bins. -/
theorem countP_values {i : ℕ} (h : dist.Built) (p : ℤ → Bool) (hi : i ≤ dist.numBins)
    (hp : ∀ j < dist.numBins, p (dist.sortedValues j) = true ↔ j < i) :
    dist.values.countP p = dist.startRank i := by
  rw [values, countP_runs, ← h.sum_binCount hi, ← Finset.sum_filter]
  congr 1
  ext j
  simp only [Finset.mem_filter, Finset.mem_range]
  constructor
  · rintro ⟨hj, hpj⟩
    exact (hp j hj).mp hpj
  · intro hj
    exact ⟨by omega, (hp j (by omega)).mpr hj⟩

/-- `distribution_count_below` counts the smaller values. -/
theorem distributionCountBelow_eq (b : Build) (h : dist.Built) (value : ℤ) (includeEqual : Bool) :
    distributionCountBelow b dist value includeEqual
      = some (dist.values.countP fun x =>
      decide (x < value) || (includeEqual && decide (x = value))) := by
  have hlast := distributionBinByValue_isLastAtMost value h.increasing
  rw [distributionCountBelow, distributionBinByValueChecked_eq _ _ _ h.increasing]
  cases hpos : distributionBinByValue dist value .below with
  | ptrdiffMin =>
      rw [hpos] at hlast
      have hnone := h.countP_values
        (fun x => decide (x < value) || (includeEqual && decide (x = value)))
        (Nat.zero_le _) fun j hj => by
          have := hlast j hj
          simp only [Bool.or_eq_true, Bool.and_eq_true, decide_eq_true_eq]
          omega
      rw [hnone]
      rfl
  | ptrdiffMax =>
      rw [hpos] at hlast
      exact hlast.elim
  | bin pos =>
      rw [hpos] at hlast
      obtain ⟨hbin, hle, hmax⟩ := hlast
      have hcases : ∀ j < dist.numBins, (dist.sortedValues j ≤ value ↔ j < pos + 1) :=
        fun j hj => by
        rw [Nat.lt_succ_iff]
        constructor
        · intro hsmall
          exact hmax j hj hsmall
        · intro hbefore
          exact ((h.increasing.le_iff_le hj hbin).mpr hbefore).trans hle
      simp only [Except.toOption, Option.bind_eq_bind, Option.bind_some]
      split
      · rename_i hwhole
        -- the values of the bin count as well
        rw [h.countP_values (i := pos + 1) _ hbin fun j hj => ?_]
        · rfl
        · rw [← hcases j hj]
          simp only [Bool.or_eq_true, Bool.and_eq_true, decide_eq_true_eq]
          rcases hwhole with hless | hequal
          · constructor
            · rintro (hlt | ⟨-, heq⟩)
              · exact hlt.le
              · exact heq.le
            · intro hsmall
              exact .inl (((h.increasing.le_iff_le hj hbin).mpr (hmax j hj hsmall)).trans_lt hless)
          · rw [hequal, and_iff_right rfl]
            exact le_iff_lt_or_eq.symm
      · rename_i hpart
        obtain ⟨hge, hunequal⟩ := not_or.mp hpart
        have heq : dist.sortedValues pos = value := le_antisymm hle (not_lt.mp hge)
        rw [h.countP_values (i := pos) _ (Nat.le_of_lt hbin) fun j hj => ?_]
        · cases pos <;> rfl
        · rw [← heq, Bool.eq_false_iff.mpr hunequal, Bool.false_and, Bool.or_false,
            decide_eq_true_iff]
          exact h.increasing.lt_iff_lt hj hbin

theorem distributionCountBelow_exclusive (b : Build) (h : dist.Built) (value : ℤ) :
    distributionCountBelow b dist value false
      = some (dist.values.countP fun x => decide (x < value)) := by
  rw [h.distributionCountBelow_eq b value false]
  simp only [Bool.false_and, Bool.or_false]

theorem distributionCountBelow_inclusive (b : Build) (h : dist.Built) (value : ℤ) :
    distributionCountBelow b dist value true
      = some (dist.values.countP fun x => decide (x ≤ value)) := by
  rw [h.distributionCountBelow_eq b value true]
  congr 2
  funext x
  rw [Bool.true_and, ← Bool.decide_or, decide_eq_decide]
  exact le_iff_lt_or_eq.symm

end Distribution.Built

/-- `distribution_nth` reads the sorted values and `distribution_count_below` counts them, and a
rank is below the count of the values up to `v` exactly when the value of that rank is at most
`v`. -/
theorem rank_value_lookups (b : Build) (h : dist.Built) :
    dist.values.Pairwise (· ≤ ·) ∧ distributionLen b dist = some dist.values.length ∧
    (∀ r (hr : r < dist.values.length), distributionNth b dist r = some dist.values[r]) ∧
    (∀ v, distributionCountBelow b dist v false
      = some (dist.values.countP fun x => decide (x < v)) ∧
      distributionCountBelow b dist v true = some (dist.values.countP fun x => decide (x ≤ v))) ∧
    ∀ r < dist.values.length, ∀ v, ∃ count x, distributionCountBelow b dist v true = some count ∧
      distributionNth b dist r = some x ∧ (r < count ↔ x ≤ v) := by
  have hnth : ∀ r (hr : r < dist.values.length), distributionNth b dist r = some dist.values[r] :=
    fun r hr => by
    rw [h.distributionNth_eq b hr, List.getElem?_eq_getElem hr]
  refine ⟨h.values_sorted, h.distributionLen_eq b, hnth, fun v =>
    ⟨h.distributionCountBelow_exclusive b v, h.distributionCountBelow_inclusive b v⟩, fun r hr v => ?_⟩
  exact ⟨_, _, h.distributionCountBelow_inclusive b v, hnth r hr,
    lt_countP_le_iff h.values_sorted v hr⟩

/-- Two values -5, one 3 and four 10. -/
def threeRuns : Distribution where
  allocation := { sortedValues := fun i => [-5, 3, 10].getD i 0, counts := fun i =>
    [2, 3, 7].getD i 0 }
  numBins := 3
  capacity := 4

theorem threeRuns_built : threeRuns.Built where
  nonempty := by decide
  increasing := strictMonoOn_Iio_iff.mpr (by decide)
  ranks := strictMonoOn_Iio_iff.mpr (by decide)
  positive := by decide
  fits := by decide
  room := by decide

/-- Between the bins, four is above three of the values. -/
theorem rank_value_lookups_threeRuns :
    distributionCountBelow ⟨true⟩ threeRuns 4 true = some 3 ∧
    distributionNth ⟨true⟩ threeRuns 2 = some 3 ∧
      distributionNth ⟨true⟩ threeRuns 3 = some 10 := by
  have hspec := rank_value_lookups ⟨true⟩ threeRuns_built
  exact ⟨(hspec.2.2.2.1 4).2.trans (by decide), (hspec.2.2.1 2 (by decide)).trans (by decide),
    (hspec.2.2.1 3 (by decide)).trans (by decide)⟩

/-! ## What `distribution_build` yields -/

/-- A nonempty histogram is built into a distribution with its values. -/
theorem Distribution.IsHistogram.build {m : Multiset ℤ} (h : dist.IsHistogram m)
    (hsome : 0 < dist.numBins) (hfits : m.card < 2 ^ 64) :
    ∃ built, distributionBuild dist = some built ∧ built.Built ∧ (built.values : Multiset ℤ) = m ∧
      built.numBins = dist.numBins ∧ built.sortedValues = dist.sortedValues ∧
      built.RanksOf dist.counts := by
  obtain ⟨hnum, hcapacity, hvalues, hranks⟩ := accumulateRanks_spec h hfits
  generalize hbuilt : (accumulateRanks dist).1 = built at *
  have hpositive : ∀ i < built.numBins, 0 < dist.counts i := fun i hi => h.positive i (hnum ▸ hi)
  have hcounts : ∀ i < built.numBins, built.binCount i = dist.counts i := fun i hi => by
    cases i with
    | zero => rw [Distribution.binCount, hranks 0 hi, Finset.sum_range_one]; rfl
    | succ i =>
        rw [Distribution.binCount, hranks _ hi, Distribution.startRank, hranks i (by omega),
          Finset.sum_range_succ, Nat.add_sub_cancel_left]
  refine ⟨built, ?_, ?_, ?_, hnum, hvalues, hranks⟩
  · rw [distributionBuild, if_neg hsome.ne', hbuilt]
  · refine ⟨hnum ▸ hsome, ?_, hranks.strictMonoOn hpositive, ?_, ?_, ?_⟩
    · rw [hnum, hvalues]
      exact h.increasing
    · rw [hranks 0 (hnum ▸ hsome), Finset.sum_range_one]
      exact hpositive 0 (hnum ▸ hsome)
    · rw [hranks _ (by omega), Nat.sub_add_cancel (by omega), hnum]
      exact (h.prefixSum_le le_rfl).trans_lt hfits
    · rw [hnum, hcapacity]
      exact h.room
  · rw [Distribution.values, coe_runs, hnum, ← h.contents, hvalues]
    refine Finset.sum_congr rfl fun i hi => ?_
    rw [hcounts i (hnum ▸ Finset.mem_range.mp hi)]
    rfl

/-- What `distribution_build` yields has the values of the histogram. -/
theorem Distribution.IsHistogram.of_build {m : Multiset ℤ} {built : Distribution}
    (h : dist.IsHistogram m) (hfits : m.card < 2 ^ 64) (hbuild : distributionBuild dist = some built) :
    built.Built ∧ (built.values : Multiset ℤ) = m := by
  have hnonempty : 0 < dist.numBins := by
    by_contra hzero
    rw [distributionBuild, if_pos (Nat.eq_zero_of_not_pos hzero)] at hbuild
    cases hbuild
  obtain ⟨built', hbuild', hinvariant, hvalues, -⟩ := h.build hnonempty hfits
  obtain rfl := Option.some.inj (hbuild'.symm.trans hbuild)
  exact ⟨hinvariant, hvalues⟩

/-- Over every run from an empty builder: what `distribution_build` yields satisfies the invariant
of `distribution_t`, and its values are those inserted since the last reset. -/
theorem built_along {memory : Allocation} (pageSize : ℕ) {es : List DistributionEvent}
    (hinit : distributionInitialize pageSize memory = some dist)
    (hsome : b.assertions = true ∨ ∀ e ∈ es, e.InsertsSome)
    (hfits : (distribution b).Along (fun s e _ => CountsFit s e) ⟨.builder dist, 0⟩ es) :
    (distribution b).Along
    (fun _ e s' => e = .build → ∃ built, s'.stage = .built built ∧ built.Built ∧
        (built.values : Multiset ℤ) = s'.inserted) ⟨.builder dist, 0⟩ es := by
  have hsome' : (distribution b).Along (fun _ e _ => b.assertions = true ∨ e.InsertsSome)
      ⟨.builder dist, 0⟩ es :=
    Machine.along_of_forall_mem fun e he => hsome.imp id fun hall => hall e he
  refine Machine.along_of_invariant (I := DistributionState.Represents)
    (fun _ _ _ h hC hstep => (h.step hC.1 hC.2 hstep).1) ?_
    (distributionInitialize_isHistogram hinit) (hsome'.and hfits)
  rintro ⟨stage, inserted⟩ e s' h ⟨-, hfit⟩ hstep rfl
  cases stage with
  | builder inner =>
      simp only [distribution, distributionStep, Option.map_eq_some_iff] at hstep
      obtain ⟨built, hbuilt, rfl⟩ := hstep
      exact ⟨built, rfl, h.of_build hfit hbuilt⟩
  | built dist => simp [distribution, distributionStep] at hstep

end Udipe

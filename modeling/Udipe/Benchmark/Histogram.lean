import Udipe.Benchmark.Search

/-!
# A distribution builder is a multiset

The bins of a builder are strictly increasing values with positive counts, and together they are the
multiset of the values inserted since the last reset. A built distribution has the prefix sums of these
counts as its end ranks.
-/

namespace Udipe

open Function Finset

variable {b : Build} {dist dist' : Distribution} {value : ℤ} {count pos : ℕ} {memory : Allocation}

/-- The values that the bins stand for. -/
def Distribution.contents (dist : Distribution) : Multiset ℤ :=
  ∑ i ∈ range dist.numBins, Multiset.replicate (dist.bin i).2 (dist.bin i).1

/-- The bins are a histogram of `m`. -/
structure Distribution.IsHistogram (dist : Distribution) (m : Multiset ℤ) : Prop where
  increasing : StrictMonoOn dist.sortedValues (Set.Iio dist.numBins)
  positive : ∀ i < dist.numBins, 0 < dist.counts i
  contents : dist.contents = m
  room : dist.numBins ≤ dist.capacity
  capacity : 0 < dist.capacity

/-- The end ranks are the prefix sums of `counts`. -/
def Distribution.RanksOf (dist : Distribution) (counts : ℕ → ℕ) : Prop :=
  ∀ i < dist.numBins, dist.counts i = ∑ j ∈ range (i + 1), counts j

/-! ## Reading and writing bins -/

namespace Distribution

@[simp] theorem numBins_setBin (dist : Distribution) (i : ℕ) (bin : ℤ × ℕ) :
    (dist.setBin i bin).numBins = dist.numBins := rfl

@[simp] theorem capacity_setBin (dist : Distribution) (i : ℕ) (bin : ℤ × ℕ) :
    (dist.setBin i bin).capacity = dist.capacity := rfl

@[simp] theorem bin_setBin_self (dist : Distribution) (i : ℕ) (bin : ℤ × ℕ) :
    (dist.setBin i bin).bin i = bin := by
  simp [Distribution.bin, setBin, sortedValues, counts]

theorem bin_setBin_of_ne (dist : Distribution) {i j : ℕ} (bin : ℤ × ℕ) (h : j ≠ i) :
    (dist.setBin i bin).bin j = dist.bin j := by
  simp [Distribution.bin, setBin, sortedValues, counts, h]

@[simp] theorem numBins_setCount (dist : Distribution) (i count : ℕ) :
    (dist.setCount i count).numBins = dist.numBins := rfl

@[simp] theorem capacity_setCount (dist : Distribution) (i count : ℕ) :
    (dist.setCount i count).capacity = dist.capacity := rfl

@[simp] theorem sortedValues_setCount (dist : Distribution) (i count : ℕ) :
    (dist.setCount i count).sortedValues = dist.sortedValues := rfl

@[simp] theorem counts_setCount (dist : Distribution) (i count : ℕ) :
    (dist.setCount i count).counts = update dist.counts i count := rfl

end Distribution

/-! ## The two paths of `distribution_create_bin` -/

variable (value count) in
/-- The path with enough room. -/
theorem createBinInPlace_insertedAt (hpos : pos ≤ dist.numBins) :
    InsertedAt pos dist.numBins (value, count) dist.bin (createBinInPlace dist pos value count).bin ∧
      (createBinInPlace dist pos value count).numBins = dist.numBins + 1 ∧
      (createBinInPlace dist pos value count).capacity = dist.capacity := by
  by_cases hend : pos = dist.numBins
  · subst hend
    simp only [createBinInPlace, if_true]
    refine ⟨⟨fun i hi => ?_, ?_, fun i hi hn => absurd hn (by omega)⟩, trivial, rfl⟩
    · exact Distribution.bin_setBin_of_ne dist _ hi.ne
    · exact Distribution.bin_setBin_self dist _ _
  · simp only [createBinInPlace, if_neg hend]
    -- before the round of `dst`, the bins from `pos` to `dst - 2` have moved up
    have hloop := forRange_induction (pos + 1) (dist.numBins - (pos + 1))
      (dist.setBin pos (value, count), dist.bin pos)
      (fun (s : Distribution × (ℤ × ℕ)) dst => (s.1.setBin dst s.2, s.1.bin dst))
      (fun dst s => s.1.capacity = dist.capacity ∧ (∀ i < pos, s.1.bin i = dist.bin i) ∧
        s.1.bin pos = (value, count) ∧ (∀ i, pos ≤ i → i + 1 < dst → s.1.bin (i + 1) = dist.bin i) ∧
        (∀ i, dst ≤ i → s.1.bin i = dist.bin i) ∧ s.2 = dist.bin (dst - 1)) ?_ ?_
    · obtain ⟨hcap, hbelow, hhere, habove, -, hnext⟩ := hloop
      have hlast : pos + 1 + (dist.numBins - (pos + 1)) = dist.numBins := by omega
      rw [hlast] at habove hnext
      refine ⟨⟨fun i hi => ?_, ?_, fun i hi hn => ?_⟩, trivial, hcap⟩
      · exact (Distribution.bin_setBin_of_ne _ _ (by omega)).trans (hbelow i hi)
      · exact (Distribution.bin_setBin_of_ne _ _ hend).trans hhere
      · rcases eq_or_ne (i + 1) dist.numBins with heq | hne
        · rw [heq]
          refine (Distribution.bin_setBin_self _ _ _).trans (hnext.trans ?_)
          rw [← heq, Nat.add_sub_cancel]
        · exact (Distribution.bin_setBin_of_ne _ _ hne).trans (habove i hi (by omega))
    · refine ⟨rfl, fun i hi => ?_, by simp, fun i hi hlt => absurd hlt (by omega), fun i hi => ?_, rfl⟩
      · exact Distribution.bin_setBin_of_ne dist _ hi.ne
      · exact Distribution.bin_setBin_of_ne dist _ (by omega)
    · rintro dst ⟨d, next⟩ hge hlt ⟨hcap, hbelow, hhere, habove, hrest, hnext⟩
      refine ⟨hcap, fun i hi => ?_, ?_, fun i hi hi' => ?_, fun i hi => ?_, ?_⟩
      · exact (d.bin_setBin_of_ne next (by omega)).trans (hbelow i hi)
      · exact (d.bin_setBin_of_ne next (by omega)).trans hhere
      · rcases eq_or_ne (i + 1) dst with rfl | hne
        · exact (d.bin_setBin_self (i + 1) next).trans hnext
        · exact (d.bin_setBin_of_ne next hne).trans (habove i hi (by omega))
      · exact (d.bin_setBin_of_ne next (by omega)).trans (hrest i (by omega))
      · exact hrest dst le_rfl

/-- The path that reallocates. -/
theorem createBinGrowing_insertedAt (hpos : pos ≤ dist.numBins)
    (h : createBinGrowing dist pos value count memory = some dist') :
    InsertedAt pos dist.numBins (value, count) dist.bin dist'.bin ∧
      dist'.numBins = dist.numBins + 1 ∧ dist'.capacity = 2 * dist.capacity := by
  simp only [createBinGrowing, Option.map_eq_some_iff] at h
  obtain ⟨newDist, hnew, rfl⟩ := h
  have hcapacity : newDist.capacity = 2 * dist.capacity := by
    simp only [distributionAllocate, Option.ite_none_right_eq_some, Option.some.injEq] at hnew
    rw [← hnew.2]
  have hsmaller := forRange_induction 0 pos newDist (fun newDist bin => newDist.setBin bin (dist.bin bin))
    (fun k d => d.capacity = newDist.capacity ∧ ∀ i < k, d.bin i = dist.bin i)
    ⟨rfl, fun i hi => absurd hi (by omega)⟩ ?_
  · set smaller := forRange 0 pos newDist fun newDist bin => newDist.setBin bin (dist.bin bin)
    obtain ⟨hcap, hbelow⟩ := hsmaller
    have hlarger := forRange_induction pos (dist.numBins - pos)
      (smaller.setBin pos (value, count))
      (fun newDist src => newDist.setBin (src + 1) (dist.bin src))
      (fun k d => d.capacity = newDist.capacity ∧ (∀ i < pos, d.bin i = dist.bin i) ∧
        d.bin pos = (value, count) ∧ ∀ i, pos ≤ i → i < k → d.bin (i + 1) = dist.bin i) ?_ ?_
    · obtain ⟨hcap', hbelow', hhere, habove⟩ := hlarger
      refine ⟨⟨hbelow', hhere, fun i hi hn => ?_⟩, rfl, hcap'.trans hcapacity⟩
      exact habove i hi (by omega)
    · refine ⟨hcap, fun i hi => ?_, smaller.bin_setBin_self _ _, fun i hi hlt => absurd hlt (by omega)⟩
      exact (smaller.bin_setBin_of_ne _ hi.ne).trans (hbelow i (by omega))
    · rintro src d hge hlt ⟨hcap', hbelow', hhere, habove⟩
      refine ⟨hcap', fun i hi => ?_, ?_, fun i hi hi' => ?_⟩
      · exact (d.bin_setBin_of_ne _ (by omega)).trans (hbelow' i hi)
      · exact (d.bin_setBin_of_ne _ (by omega)).trans hhere
      · rcases eq_or_ne i src with rfl | hne
        · exact d.bin_setBin_self _ _
        · exact (d.bin_setBin_of_ne _ (by omega)).trans (habove i hi (by omega))
  · rintro k d - hlt ⟨hcap, hbelow⟩
    refine ⟨hcap, fun i hi => ?_⟩
    rcases eq_or_ne i k with rfl | hne
    · exact d.bin_setBin_self _ _
    · exact (d.bin_setBin_of_ne _ hne).trans (hbelow i (by omega))

/-- What `distribution_create_bin` does when it returns: the bin is in its place, and the capacity
doubles when it was reached. -/
theorem distributionCreateBin_insertedAt (hpos : pos ≤ dist.numBins)
    (h : distributionCreateBin b dist pos value count memory = some dist') :
    InsertedAt pos dist.numBins (value, count) dist.bin dist'.bin ∧
      dist'.numBins = dist.numBins + 1 ∧
      dist'.capacity = (if dist.numBins < dist.capacity then dist.capacity else 2 * dist.capacity) ∧
      (b.assertions = true → 0 < count) := by
  unfold distributionCreateBin at h
  split at h
  · cases h
  rename_i hallowed
  have hcount : b.assertions = true → 0 < count := fun hb => by
    simp only [hb, Bool.true_and, Bool.not_eq_true', Bool.not_eq_false] at hallowed
    simp only [createBinAllowed, Bool.and_eq_true, decide_eq_true_eq] at hallowed
    exact hallowed.2
  split at h
  · rename_i hroom
    obtain rfl := Option.some.inj h
    obtain ⟨hins, hnum, hcap⟩ := createBinInPlace_insertedAt value count hpos
    exact ⟨hins, hnum, by rw [if_pos hroom, hcap], hcount⟩
  · rename_i hfull
    split at h
    · cases h
    · obtain ⟨hins, hnum, hcap⟩ := createBinGrowing_insertedAt hpos h
      exact ⟨hins, hnum, by rw [if_neg hfull, hcap], hcount⟩

/-! ## The search -/

variable (value) in
/-- What `distribution_bin_by_value` answers upwards: the first bin that is not below `value`, unless
all are. -/
theorem distributionBinByValue_above
    (hmono : StrictMonoOn dist.sortedValues (Set.Iio dist.numBins)) :
    (distributionBinByValue dist value .above = .ptrdiffMax ∧
      ∀ i < dist.numBins, dist.sortedValues i < value) ∨
    ∃ i, distributionBinByValue dist value .above = .bin i ∧ i < dist.numBins ∧
      value ≤ dist.sortedValues i ∧ ∀ j < i, dist.sortedValues j < value := by
  have hfirst := distributionBinByValue_isFirstAtLeast value hmono
  cases hpos : distributionBinByValue dist value .above with
  | ptrdiffMin =>
      rw [hpos] at hfirst
      exact hfirst.elim
  | ptrdiffMax =>
      rw [hpos] at hfirst
      exact .inl ⟨rfl, hfirst⟩
  | bin i =>
      rw [hpos] at hfirst
      obtain ⟨hi, hge, hfirst⟩ := hfirst
      refine .inr ⟨i, rfl, hi, hge, fun j hj => ?_⟩
      by_contra hle
      have := hfirst j (by omega) (not_lt.mp hle)
      omega

/-! ## Insertion -/

namespace Distribution.IsHistogram

variable {m : Multiset ℤ}

/-- Values need bins. -/
theorem numBins_pos (h : dist.IsHistogram m) (hsome : m ≠ 0) : 0 < dist.numBins := by
  by_contra hzero
  apply hsome
  rw [← h.contents, Distribution.contents, Nat.eq_zero_of_not_pos hzero]
  rfl

/-- A new bin at its place in the order. -/
theorem insertBin (h : dist.IsHistogram m)
    (hins : InsertedAt pos dist.numBins (value, count) dist.bin dist'.bin)
    (hnum : dist'.numBins = dist.numBins + 1) (hroom : dist'.numBins ≤ dist'.capacity)
    (hpos : pos ≤ dist.numBins) (hlow : ∀ i < pos, dist.sortedValues i < value)
    (hhigh : ∀ i, pos ≤ i → i < dist.numBins → value < dist.sortedValues i) (hcount : 0 < count) :
    dist'.IsHistogram (m + Multiset.replicate count value) where
  increasing := by
    rw [hnum]
    exact (hins.map Prod.fst).strictMonoOn hpos h.increasing hlow hhigh
  positive := by
    rw [hnum]
    exact ((hins.map Prod.snd).forall_iff (P := (0 < ·)) hpos).mpr ⟨hcount, h.positive⟩
  contents := by
    rw [Distribution.contents, hnum, ← h.contents, add_comm dist.contents]
    exact (hins.map fun p : ℤ × ℕ => Multiset.replicate p.2 p.1).sum hpos
  room := hroom
  capacity := by omega

/-- The count of a bin is the number of its values. -/
theorem count_eq (h : dist.IsHistogram m) {i : ℕ} (hi : i < dist.numBins) :
    m.count (dist.sortedValues i) = dist.counts i := by
  rw [← h.contents, Distribution.contents, Multiset.count_sum', Finset.sum_eq_single i]
  · simp [Distribution.bin]
  · intro j hj hne
    have hvalue : dist.sortedValues i ≠ dist.sortedValues j := fun heq =>
      hne (h.increasing.injOn (Set.mem_Iio.mpr (by simpa using hj)) (Set.mem_Iio.mpr hi) heq.symm)
    simp [Distribution.bin, Multiset.count_replicate, hvalue.symm]
  · intro hnot
    exact absurd (by simpa using hi) hnot

/-- The prefix sums of the counts stay below the number of values. -/
theorem prefixSum_le (h : dist.IsHistogram m) {i : ℕ} (hi : i ≤ dist.numBins) :
    ∑ j ∈ range i, dist.counts j ≤ m.card := by
  rw [← h.contents, Distribution.contents, Multiset.card_sum]
  simp only [Multiset.card_replicate]
  exact Finset.sum_le_sum_of_subset (Finset.range_subset_range.mpr hi)

/-- More copies of a value that has a bin. -/
theorem addCount (h : dist.IsHistogram m) {i : ℕ} (hi : i < dist.numBins) :
    (dist.setCount i (dist.counts i + count)).IsHistogram
      (m + Multiset.replicate count (dist.sortedValues i)) where
  increasing := h.increasing
  positive := by
    intro j hj
    rcases eq_or_ne j i with rfl | hne
    · simpa using Nat.add_pos_left (h.positive j hi) count
    · simpa [hne] using h.positive j hj
  contents := by
    have hmem : i ∈ range dist.numBins := by simpa using hi
    have hrest : ∀ j ∈ (range dist.numBins).erase i,
        Multiset.replicate ((dist.setCount i (dist.counts i + count)).bin j).2
          ((dist.setCount i (dist.counts i + count)).bin j).1 =
        Multiset.replicate (dist.bin j).2 (dist.bin j).1 := by
      intro j hj
      simp [Distribution.bin, (Finset.mem_erase.mp hj).1]
    rw [← h.contents, Distribution.contents, Distribution.contents, Distribution.numBins_setCount,
      ← Finset.add_sum_erase _ _ hmem, ← Finset.add_sum_erase _ _ hmem, Finset.sum_congr rfl hrest]
    simp [Distribution.bin, Multiset.replicate_add, add_assoc, add_comm]
  room := h.room
  capacity := h.capacity

/-- `distribution_create_bin` at the place of the value in the order. -/
theorem createBin (h : dist.IsHistogram m) (hpos : pos ≤ dist.numBins)
    (hlow : ∀ i < pos, dist.sortedValues i < value)
    (hhigh : ∀ i, pos ≤ i → i < dist.numBins → value < dist.sortedValues i)
    (hcount : b.assertions = true ∨ 0 < count)
    (hstep : distributionCreateBin b dist pos value count memory = some dist') :
    dist'.IsHistogram (m + Multiset.replicate count value) := by
  obtain ⟨hins, hnum, hcap, hassert⟩ := distributionCreateBin_insertedAt hpos hstep
  have hroom := h.room
  have hcapacity := h.capacity
  refine h.insertBin hins hnum ?_ hpos hlow hhigh (hcount.elim hassert id)
  split at hcap <;> omega

/-- With a positive count, `distribution_create_bin` returns. -/
theorem createBin_isSome (h : dist.IsHistogram m) (hpos : pos ≤ dist.numBins)
    (hlow : ∀ i < pos, dist.sortedValues i < value)
    (hhigh : ∀ i, pos ≤ i → i < dist.numBins → value < dist.sortedValues i) (hcount : 0 < count) :
    (distributionCreateBin b dist pos value count memory).isSome = true := by
  have hallowed : createBinAllowed dist pos value count = true := by
    have hbefore : pos = 0 ∨ dist.sortedValues (pos - 1) < value :=
      pos.eq_zero_or_pos.imp id fun hp => hlow _ (by omega)
    have hafter : dist.numBins ≤ pos ∨ value < dist.sortedValues pos :=
      (le_or_gt dist.numBins pos).imp id fun hlt => hhigh _ le_rfl hlt
    simp [createBinAllowed, hpos, hbefore, hafter, hcount]
  have hroom := h.room
  have hcapacity := h.capacity
  unfold distributionCreateBin
  rw [if_neg (by simp [hallowed])]
  split
  · rfl
  · rename_i hfull
    rw [if_neg (by simp; omega), createBinGrowing, distributionAllocate, if_pos (by omega)]
    rfl

/-- `distribution_insert_copies` adds the copies to the multiset. -/
theorem insertCopies (h : dist.IsHistogram m) (hcount : b.assertions = true ∨ 0 < count)
    (hfits : m.count value + count < 2 ^ 64)
    (hstep : distributionInsertCopies b dist value count memory = some dist') :
    dist'.IsHistogram (m + Multiset.replicate count value) := by
  unfold distributionInsertCopies at hstep
  obtain ⟨hpos, hlow⟩ | ⟨i, hpos, hi, hge, hlow⟩ :=
    distributionBinByValue_above value h.increasing
  · rw [hpos] at hstep
    exact h.createBin le_rfl hlow (fun i hi hn => absurd hn (by omega)) hcount hstep
  · rw [hpos] at hstep
    dsimp only at hstep
    split at hstep
    · rename_i heq
      subst heq
      rw [h.count_eq hi] at hfits
      rw [Nat.mod_eq_of_lt hfits] at hstep
      split at hstep
      · cases hstep
      · obtain rfl := Option.some.inj hstep
        exact h.addCount hi
    · rename_i hne
      refine h.createBin hi.le hlow (fun j hj hn => ?_) hcount hstep
      refine lt_of_lt_of_le (lt_of_le_of_ne hge hne) ?_
      exact h.increasing.entry_le hj hn

/-- It returns when the count is positive and the size type does not overflow. -/
theorem insertCopies_isSome (h : dist.IsHistogram m) (hcount : 0 < count)
    (hfits : m.count value + count < 2 ^ 64) :
    (distributionInsertCopies b dist value count memory).isSome = true := by
  unfold distributionInsertCopies
  obtain ⟨hpos, hlow⟩ | ⟨i, hpos, hi, hge, hlow⟩ :=
    distributionBinByValue_above value h.increasing
  · rw [hpos]
    exact h.createBin_isSome le_rfl hlow (fun i hi hn => absurd hn (by omega)) hcount
  · rw [hpos]
    dsimp only
    split
    · rename_i heq
      subst heq
      rw [h.count_eq hi] at hfits
      rw [if_neg (by simp; omega)]
      rfl
    · rename_i hne
      refine h.createBin_isSome hi.le hlow (fun j hj hn => ?_) hcount
      refine lt_of_lt_of_le (lt_of_le_of_ne hge hne) ?_
      exact h.increasing.entry_le hj hn

end Distribution.IsHistogram

/-! ## End ranks -/

/-- The loop of `distribution_build` replaces the counts by their prefix sums. -/
theorem accumulateRanks_spec {m : Multiset ℤ} (h : dist.IsHistogram m) (hfits : m.card < 2 ^ 64) :
    (accumulateRanks dist).1.numBins = dist.numBins ∧
      (accumulateRanks dist).1.capacity = dist.capacity ∧
      (accumulateRanks dist).1.sortedValues = dist.sortedValues ∧
      (accumulateRanks dist).1.RanksOf dist.counts := by
  have hloop := forRange_induction 0 dist.numBins (dist, 0)
    (fun (s : Distribution × ℕ) bin =>
      (s.1.setCount bin ((s.2 + s.1.counts bin) % 2 ^ 64), (s.2 + s.1.counts bin) % 2 ^ 64))
    (fun k s => s.1.numBins = dist.numBins ∧ s.1.capacity = dist.capacity ∧
      s.1.sortedValues = dist.sortedValues ∧
      (∀ i < k, s.1.counts i = ∑ j ∈ range (i + 1), dist.counts j) ∧
      (∀ i, k ≤ i → s.1.counts i = dist.counts i) ∧ s.2 = ∑ j ∈ range k, dist.counts j) ?_ ?_
  · obtain ⟨hnum, hcap, hvalues, hranks, -, -⟩ := hloop
    exact ⟨hnum, hcap, hvalues, fun i hi => hranks i (by simpa using hi.trans_eq hnum)⟩
  · exact ⟨rfl, rfl, rfl, fun i hi => absurd hi (by omega), fun _ _ => rfl, rfl⟩
  · rintro k ⟨d, endRank⟩ - hlt ⟨hnum, hcap, hvalues, hranks, hrest, hend⟩
    have hsum : endRank + d.counts k = ∑ j ∈ range (k + 1), dist.counts j := by
      rw [Finset.sum_range_succ, ← hend, hrest k le_rfl]
    have hmod : (endRank + d.counts k) % 2 ^ 64 = ∑ j ∈ range (k + 1), dist.counts j := by
      rw [hsum]
      exact Nat.mod_eq_of_lt (lt_of_le_of_lt (h.prefixSum_le (by omega)) hfits)
    refine ⟨hnum, hcap, hvalues, fun i hi => ?_, fun i hi => ?_, hmod⟩
    · rcases eq_or_ne i k with rfl | hne
      · simpa using hmod
      · simpa [hne] using hranks i (by omega)
    · have hne : i ≠ k := by omega
      simpa [hne] using hrest i (by omega)

/-! ## Every run -/

/-- The bins of a builder are a histogram of the inserted values. Those of a built distribution are one
with the prefix sums of the counts in place of the counts. -/
def DistributionState.Represents (s : DistributionState) : Prop :=
  match s.stage with
  | .builder inner => inner.IsHistogram s.inserted
  | .built dist =>
      ∃ counts, { dist with allocation := { dist.allocation with counts := counts } }.IsHistogram
          s.inserted ∧
        dist.RanksOf counts ∧ StrictMonoOn dist.counts (Set.Iio dist.numBins)

/-- `distribution_build` keeps the values and turns the counts into their strictly increasing prefix
sums. -/
def BuildsRanks (s : DistributionState) (e : DistributionEvent) (s' : DistributionState) : Prop :=
  match s.stage, e, s'.stage with
  | .builder inner, .build, .built dist =>
      dist.numBins = inner.numBins ∧ dist.sortedValues = inner.sortedValues ∧
        dist.RanksOf inner.counts ∧ StrictMonoOn dist.counts (Set.Iio dist.numBins)
  | _, _, _ => True

/-- The counts that the operation computes are values of `size_t`. -/
def CountsFit (s : DistributionState) : DistributionEvent → Prop
  | .insert value _ => s.inserted.count value + 1 < 2 ^ 64
  | .insertCopies value count _ => s.inserted.count value + count < 2 ^ 64
  | .build => s.inserted.card < 2 ^ 64
  | .reset => True

/-- The type of the distribution has the operation and its precondition holds: it inserts at least one
copy, it builds a distribution of at least one value. -/
def DistributionState.Accepts (s : DistributionState) (e : DistributionEvent) : Prop :=
  match s.stage, e with
  | .builder _, .insert _ _ => True
  | .builder _, .insertCopies _ count _ => 0 < count
  | .builder _, .build => s.inserted ≠ 0
  | .built _, .reset => True
  | _, _ => False

/-- The caller asks for at least one copy. -/
def DistributionEvent.InsertsSome : DistributionEvent → Prop
  | .insertCopies _ count _ => 0 < count
  | _ => True

/-- The ranks of a histogram are strictly increasing. -/
theorem Distribution.RanksOf.strictMonoOn {counts : ℕ → ℕ} (h : dist.RanksOf counts)
    (hpositive : ∀ i < dist.numBins, 0 < counts i) :
    StrictMonoOn dist.counts (Set.Iio dist.numBins) := by
  intro i hi j hj hij
  rw [h i hi, h j hj]
  exact strictMonoOn_prefixSum hpositive hi hj hij

/-- One operation. -/
theorem DistributionState.Represents.step {s s' : DistributionState} {e : DistributionEvent}
    (h : s.Represents) (hsome : b.assertions = true ∨ e.InsertsSome) (hfits : CountsFit s e)
    (hstep : (distribution b).step s e = some s') : s'.Represents ∧ BuildsRanks s e s' := by
  obtain ⟨stage, inserted⟩ := s
  cases stage with
  | builder inner =>
      cases e with
      | insert value memory =>
          simp only [distribution, distributionStep, Option.map_eq_some_iff] at hstep
          obtain ⟨dist', hinsert, rfl⟩ := hstep
          exact ⟨h.insertCopies (.inr one_pos) hfits hinsert, trivial⟩
      | insertCopies value count memory =>
          simp only [distribution, distributionStep, Option.map_eq_some_iff] at hstep
          obtain ⟨dist', hinsert, rfl⟩ := hstep
          exact ⟨h.insertCopies hsome hfits hinsert, trivial⟩
      | build =>
          simp only [distribution, distributionStep, distributionBuild, Option.map_eq_some_iff,
            Option.ite_none_left_eq_some, Option.some.injEq] at hstep
          obtain ⟨dist', ⟨-, rfl⟩, rfl⟩ := hstep
          obtain ⟨hnum, hcap, hvalues, hranks⟩ := accumulateRanks_spec h hfits
          have hstrict := hranks.strictMonoOn (hnum ▸ h.positive)
          refine ⟨⟨inner.counts, ?_, hranks, hstrict⟩, hnum, hvalues, hranks, hstrict⟩
          have heq : { (accumulateRanks inner).1 with
              allocation :=
                { (accumulateRanks inner).1.allocation with counts := inner.counts } } = inner :=
            Distribution.ext (Allocation.ext hvalues rfl) hnum hcap
          rw [heq]
          exact h
      | reset => simp [distribution, distributionStep] at hstep
  | built dist =>
      cases e with
      | reset =>
          simp only [distribution, distributionStep, Option.some.injEq] at hstep
          subst hstep
          obtain ⟨counts, hhist, -, -⟩ := h
          refine ⟨⟨fun i hi => absurd hi (by simp [distributionReset]),
            fun i hi => absurd hi (by simp [distributionReset]), rfl, Nat.zero_le _,
            hhist.capacity⟩, trivial⟩
      | insert | insertCopies | build => simp [distribution, distributionStep] at hstep

/-- An operation that is accepted returns. -/
theorem DistributionState.Represents.step_isSome {s : DistributionState} {e : DistributionEvent}
    (h : s.Represents) (haccepts : s.Accepts e) (hfits : CountsFit s e) :
    ((distribution b).step s e).isSome = true := by
  obtain ⟨stage, inserted⟩ := s
  cases stage with
  | builder inner =>
      cases e with
      | insert value memory =>
          simp only [distribution, distributionStep, Option.isSome_map]
          exact h.insertCopies_isSome one_pos hfits
      | insertCopies value count memory =>
          simp only [distribution, distributionStep, Option.isSome_map]
          exact h.insertCopies_isSome haccepts hfits
      | build =>
          have hbins : inner.numBins ≠ 0 := (h.numBins_pos haccepts).ne'
          simp only [distribution, distributionStep, Option.isSome_map]
          rw [distributionBuild, if_neg hbins, Option.isSome_some]
      | reset => exact haccepts.elim
  | built dist =>
      cases e with
      | reset => rfl
      | insert | insertCopies | build => exact haccepts.elim

/-- Where `distribution_create_bin` reallocates, it yields the bins that shifting them in place would
have. -/
theorem createBinGrowing_bin (hpos : pos ≤ dist.numBins)
    (h : createBinGrowing dist pos value count memory = some dist') :
    dist'.numBins = (createBinInPlace dist pos value count).numBins ∧
      ∀ i < dist'.numBins, dist'.bin i = (createBinInPlace dist pos value count).bin i := by
  obtain ⟨hins, hnum, -⟩ := createBinInPlace_insertedAt value count hpos
  obtain ⟨hins', hnum', -⟩ := createBinGrowing_insertedAt hpos h
  refine ⟨hnum'.trans hnum.symm, fun i hi => hins'.unique hins ?_⟩
  rw [hnum'] at hi
  exact Nat.lt_succ_iff.mp hi

theorem distributionInitialize_isHistogram {pageSize : ℕ}
    (h : distributionInitialize pageSize memory = some dist) : dist.IsHistogram 0 := by
  simp only [distributionInitialize, distributionAllocate, Option.ite_none_right_eq_some,
    Option.some.injEq] at h
  obtain ⟨hcapacity, rfl⟩ := h
  exact ⟨fun i hi => absurd hi (by simp), fun i hi => absurd hi (by simp), rfl, Nat.zero_le _,
    Nat.pos_of_ne_zero hcapacity⟩

/-- Over every run from an empty builder: the bins are a histogram of the values inserted since the last
reset, and the end ranks are the prefix sums of the counts; every operation that is accepted after the
run returns; and reallocating changes no bin. -/
theorem distribution_represents_multiset (pageSize : ℕ) {es : List DistributionEvent}
    (hinit : distributionInitialize pageSize memory = some dist)
    (hsome : b.assertions = true ∨ ∀ e ∈ es, e.InsertsSome)
    (hfits : (distribution b).Along (fun s e _ => CountsFit s e) ⟨.builder dist, 0⟩ es) :
    (distribution b).Along (fun s e s' => s'.Represents ∧ BuildsRanks s e s')
        ⟨.builder dist, 0⟩ es ∧
      (∀ s e, (distribution b).run ⟨.builder dist, 0⟩ es = some s → s.Accepts e → CountsFit s e →
        ((distribution b).step s e).isSome = true) ∧
      ∀ (d d' : Distribution) (pos : ℕ) (value : ℤ) (count : ℕ) (memory : Allocation),
        pos ≤ d.numBins → createBinGrowing d pos value count memory = some d' →
          d'.numBins = (createBinInPlace d pos value count).numBins ∧
            ∀ i < d'.numBins, d'.bin i = (createBinInPlace d pos value count).bin i := by
  have hsome' : (distribution b).Along (fun _ e _ => b.assertions = true ∨ e.InsertsSome)
      ⟨.builder dist, 0⟩ es :=
    Machine.along_of_forall_mem fun e he => hsome.imp id fun hall => hall e he
  have hempty : DistributionState.Represents ⟨.builder dist, 0⟩ :=
    distributionInitialize_isHistogram hinit
  refine ⟨?_, ?_, fun d d' pos value count memory hpos h => createBinGrowing_bin hpos h⟩
  · exact Machine.along_of_invariant (I := DistributionState.Represents)
      (fun _ _ _ h hC hstep => (h.step hC.1 hC.2 hstep).1)
      (fun _ _ _ h hC hstep => h.step hC.1 hC.2 hstep) hempty (hsome'.and hfits)
  · intro s e hrun haccepts hfits'
    have hs : s.Represents := Machine.invariant_of_along
      (fun _ _ _ h hC hstep => (h.step hC.1 hC.2 hstep).1) hempty (hsome'.and hfits) hrun
    exact hs.step_isSome haccepts hfits'

/-- Memory that happens to be zero. -/
def Allocation.zero : Allocation where
  sortedValues := fun _ => 0
  counts := fun _ => 0

instance (s : DistributionState) (e : DistributionEvent) : Decidable (CountsFit s e) :=
  match e with
  | .insert .. | .insertCopies .. | .build => inferInstanceAs (Decidable (_ < _))
  | .reset => inferInstanceAs (Decidable True)

/-- Two bins fill the allocation, the third insertion reallocates; then the builder is built and
reset. -/
def grownDistribution : List DistributionEvent :=
  [.insert 5 .zero, .insertCopies 3 4 .zero, .insertCopies 9 2 .zero, .insert 9 .zero, .build, .reset]

theorem distribution_represents_multiset_grown :
    (distribution ⟨false⟩).Along (fun s e s' => s'.Represents ∧ BuildsRanks s e s')
        ⟨.builder { allocation := .zero, numBins := 0, capacity := 2 }, 0⟩ grownDistribution ∧
      ((distribution ⟨false⟩).run ⟨.builder { allocation := .zero, numBins := 0, capacity := 2 }, 0⟩
        grownDistribution).isSome = true :=
  ⟨(distribution_represents_multiset 32 rfl
      (.inr (by simp [grownDistribution, DistributionEvent.InsertsSome])) (by decide +kernel)).1,
    by decide +kernel⟩

end Udipe

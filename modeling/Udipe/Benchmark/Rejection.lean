import Udipe.Benchmark.BinBounds
import Udipe.Benchmark.OutlierFilter
import Udipe.Lib.Compaction

/-!
# Rejecting bins conserves the data

Reference: `benchmark/outlier_filter.c`.

`reject_bins` compacts the bins of its target in place while it reads them, and inserts the others into
the builder of the report. Each bin ends up in one of the two, with its count and in its order.
-/

namespace Udipe

/-- The bins, in order. -/
def Distribution.bins (dist : Distribution) : List (ℤ × ℕ) := entries dist.bin dist.numBins

/-- The values that a list of bins stands for. -/
def contentsOf (bins : List (ℤ × ℕ)) : Multiset ℤ :=
  (bins.map fun bin => Multiset.replicate bin.2 bin.1).sum

/-- What the bins of a builder must be. -/
structure SortedBins (bins : List (ℤ × ℕ)) : Prop where
  increasing : bins.Pairwise fun bin bin' => bin.1 < bin'.1
  positive : ∀ bin ∈ bins, 0 < bin.2

/-! ## Histograms as lists of bins -/

section Bins

variable {b : Build} {dist : Distribution} {m : Multiset ℤ} {bins bins' : List (ℤ × ℕ)} {value : ℤ}
  {count : ℕ}

@[simp] theorem Distribution.length_bins (dist : Distribution) : dist.bins.length = dist.numBins :=
  length_entries ..

theorem Distribution.mem_bins {bin : ℤ × ℕ} :
    bin ∈ dist.bins ↔ ∃ i < dist.numBins, dist.bin i = bin := mem_entries

@[simp] theorem contentsOf_nil : contentsOf [] = 0 := rfl

theorem contentsOf_append (bins bins' : List (ℤ × ℕ)) :
    contentsOf (bins ++ bins') = contentsOf bins + contentsOf bins' := by
  rw [contentsOf, List.map_append, List.sum_append]
  rfl

theorem contentsOf_singleton (value : ℤ) (count : ℕ) :
    contentsOf [(value, count)] = Multiset.replicate count value := by
  simp [contentsOf]

theorem contentsOf_perm (h : bins.Perm bins') : contentsOf bins = contentsOf bins' :=
  (h.map _).sum_eq

/-- Bins with positive counts stand for no value only when there are none. -/
theorem contentsOf_eq_zero (h : ∀ bin ∈ bins, 0 < bin.2) : contentsOf bins = 0 ↔ bins = [] := by
  constructor
  · intro hzero
    cases bins with
    | nil => rfl
    | cons bin rest =>
        have hcard := congrArg Multiset.card hzero
        have hpos := h bin List.mem_cons_self
        simp [contentsOf] at hcard
        omega
  · rintro rfl
    rfl

theorem Distribution.contents_eq (dist : Distribution) : dist.contents = contentsOf dist.bins := by
  rw [Distribution.contents, Distribution.bins]
  generalize dist.numBins = n
  induction n with
  | zero => rfl
  | succ n ih => rw [Finset.sum_range_succ, ih, entries_succ, contentsOf_append, contentsOf_singleton]

theorem SortedBins.sublist (h : SortedBins bins') (hsub : bins.Sublist bins') : SortedBins bins where
  increasing := h.increasing.sublist hsub
  positive bin hbin := h.positive bin (hsub.subset hbin)

/-- A histogram is a list of sorted bins with room for them. -/
theorem Distribution.isHistogram_iff :
    dist.IsHistogram m ↔ SortedBins dist.bins ∧ contentsOf dist.bins = m ∧ dist.HasRoom := by
  rw [← Distribution.contents_eq]
  constructor
  · rintro ⟨hincreasing, hpositive, hcontents, hroom, hcapacity⟩
    refine ⟨⟨List.pairwise_map.mpr ?_, fun bin hbin => ?_⟩, hcontents, hroom, hcapacity⟩
    · refine List.pairwise_lt_range.imp_of_mem fun hi hj hij => ?_
      exact hincreasing (List.mem_range.mp hi) (List.mem_range.mp hj) hij
    · obtain ⟨i, hi, rfl⟩ := Distribution.mem_bins.mp hbin
      exact hpositive i hi
  · rintro ⟨⟨hincreasing, hpositive⟩, hcontents, hroom, hcapacity⟩
    refine ⟨fun i hi j hj hij => ?_, fun i hi => ?_, hcontents, hroom, hcapacity⟩
    · have hmapped := List.pairwise_map.mp hincreasing
      have hsorted := List.pairwise_iff_getElem.mp hmapped i j (by simpa using hi)
        (by simpa using hj) hij
      rw [List.getElem_range, List.getElem_range] at hsorted
      exact hsorted
    · exact hpositive _ (Distribution.mem_bins.mpr ⟨i, hi, rfl⟩)

/-- A value above all bins gets a bin of its own at the end. -/
theorem Distribution.IsHistogram.insertCopies_append (h : dist.IsHistogram m)
    (habove : ∀ bin ∈ dist.bins, bin.1 < value) (hcount : 0 < count) (memory : Allocation) :
    ∃ dist', distributionInsertCopies b dist value count memory = some dist' ∧
      dist'.bins = dist.bins ++ [(value, count)] ∧
      dist'.IsHistogram (m + Multiset.replicate count value) := by
  have hlow : ∀ i < dist.numBins, dist.sortedValues i < value := fun i hi =>
    habove _ (Distribution.mem_bins.mpr ⟨i, hi, rfl⟩)
  have hhigh : ∀ i, dist.numBins ≤ i → i < dist.numBins → value < dist.sortedValues i :=
    fun i hi hn => absurd hn (by omega)
  have hsearch : distributionBinByValue dist value .above = .ptrdiffMax := by
    obtain ⟨hsearch, -⟩ | ⟨i, -, hi, hge, -⟩ := distributionBinByValue_above value h.increasing
    · exact hsearch
    · exact absurd (hlow i hi) (by omega)
  have hisSome : (distributionCreateBin b dist dist.numBins value count memory).isSome = true :=
    h.createBin_isSome le_rfl hlow hhigh hcount
  obtain ⟨dist', hcreate⟩ := Option.isSome_iff_exists.mp hisSome
  refine ⟨dist', ?_, ?_, h.createBin le_rfl hlow hhigh (.inr hcount) hcreate⟩
  · rw [distributionInsertCopies, hsearch]
    exact hcreate
  · obtain ⟨hins, hnum, -⟩ := distributionCreateBin_insertedAt le_rfl hcreate
    rw [Distribution.bins, hnum, entries_succ, hins.here, entries_congr hins.below]
    rfl

end Bins

/-! ## The loop -/

/-- Either state of the union can become an empty builder. -/
structure RecyclableDistribution.Usable (recyclable : RecyclableDistribution) : Prop where
  empty : recyclable.isBuilt = false → recyclable.storage.numBins = 0
  room : recyclable.storage.HasRoom

theorem RecyclableDistribution.Usable.recycle {recyclable : RecyclableDistribution}
    (h : recyclable.Usable) : recyclable.recycle.storage.bins = [] ∧
      recyclable.recycle.storage.IsHistogram 0 := by
  have hbins : recyclable.recycle.storage.bins = [] := by
    rw [← List.length_eq_zero_iff, Distribution.length_bins, RecyclableDistribution.recycle]
    split
    · rfl
    · exact h.empty (Bool.eq_false_iff.mpr ‹_›)
  refine ⟨hbins, Distribution.isHistogram_iff.mpr ?_⟩
  rw [hbins]
  refine ⟨⟨List.Pairwise.nil, fun bin hbin => absurd hbin List.not_mem_nil⟩, rfl, ?_⟩
  rw [RecyclableDistribution.recycle]
  split
  · exact ⟨Nat.zero_le _, h.room.2⟩
  · exact h.room

variable {W : Type} {filter filter' : OutlierFilter W}

/-- The rejected values, and what `reject_bins` has done with them: they are in a builder, and if there
are any the builder is built into the report. -/
structure ReportOf (filter filter' : OutlierFilter W) (rejected : List (ℤ × ℕ)) : Prop where
  weights : filter'.binWeights = filter.binWeights ∧ filter'.binCapacity = filter.binCapacity
  scores : filter'.lastScores = filter.lastScores
  builder : ∃ builder : Distribution, builder.bins = rejected ∧
    builder.IsHistogram (contentsOf rejected) ∧
    if rejected = [] then
      filter'.lastRejections = ⟨builder, filter.lastRejections.isBuilt⟩
    else
      filter'.lastRejections.isBuilt = true ∧
        distributionBuild builder = some filter'.lastRejections.storage

/-- The report is usable again. -/
theorem ReportOf.usable {rejected : List (ℤ × ℕ)} (h : ReportOf filter filter' rejected) :
    filter'.lastRejections.Usable := by
  obtain ⟨-, -, builder, hbins, hbuilder, hreport⟩ := h
  split at hreport
  · rename_i hnone
    rw [hreport]
    refine ⟨fun _ => ?_, hbuilder.room, hbuilder.capacity⟩
    rw [← builder.length_bins, hbins, hnone, List.length_nil]
  · obtain ⟨hbuilt, hbuild⟩ := hreport
    rw [distributionBuild, Option.ite_none_left_eq_some, Option.some.injEq] at hbuild
    obtain ⟨hnum, hcapacity⟩ := accumulateRanks_shape builder
    refine ⟨fun hunbuilt => absurd (hbuilt.symm.trans hunbuilt) Bool.noConfusion, ?_⟩
    rw [← hbuild.2]
    exact ⟨hnum.trans_le (hbuilder.room.trans_eq hcapacity.symm),
      hbuilder.capacity.trans_eq hcapacity.symm⟩

variable [LT W] [DecidableLT W] {b : Build} {target target' : Distribution} {binWeights : ℕ → W}
  {m : Multiset ℤ} {threshold : W} {k : ℕ}

/-- The bins that stay. -/
def aboveThreshold (binWeights : ℕ → W) (threshold : W) (bin : ℕ) : Bool :=
  decide (threshold < binWeights bin)

/-- The bins of `target` that are kept. -/
def keptBins (binWeights : ℕ → W) (threshold : W) (target : Distribution) : List (ℤ × ℕ) :=
  (keptIndices (aboveThreshold binWeights threshold) target.numBins).map target.bin

/-- The bins of `target` that are rejected. -/
def rejectedBins (binWeights : ℕ → W) (threshold : W) (target : Distribution) : List (ℤ × ℕ) :=
  (keptIndices (fun bin => !aboveThreshold binWeights threshold bin) target.numBins).map target.bin

/-- What holds before the round of bin `k`. -/
structure Rejecting (keep : ℕ → Bool) (target : Distribution) (k : ℕ) (d rejections : Distribution)
    (deleted : ℕ) : Prop where
  compacted : Compacted keep target.bin d.bin k
  numBins : d.numBins = target.numBins
  room : d.capacity = target.capacity
  rejected : rejections.bins = (keptIndices (fun bin => !keep bin) k).map target.bin
  rejections : rejections.IsHistogram (contentsOf rejections.bins)
  deleted : deleted = (keptIndices (fun bin => !keep bin) k).length

theorem Distribution.bin_setBin (dist : Distribution) (i : ℕ) (bin : ℤ × ℕ) :
    (dist.setBin i bin).bin = Function.update dist.bin i bin := by
  funext j
  by_cases hj : j = i
  · rw [hj, Distribution.bin_setBin_self, Function.update_self]
  · rw [Distribution.bin_setBin_of_ne _ _ hj, Function.update_of_ne hj]

namespace Rejecting

variable {keep : ℕ → Bool} {d rejections : Distribution} {deleted : ℕ}

/-- The bin of the round has not been overwritten. -/
theorem bin_eq (h : Rejecting keep target k d rejections deleted) : d.bin k = target.bin k :=
  h.compacted.rest k le_rfl

theorem length_kept (h : Rejecting keep target k d rejections deleted) :
    (keptIndices keep k).length = k - deleted := by
  have hlength := length_keptIndices_add keep k
  have hdeleted := h.deleted
  omega

/-- A bin that moves down to the end of the kept ones. -/
theorem move (h : Rejecting keep target k d rejections deleted) (hkeep : keep k = true) :
    Rejecting keep target (k + 1) (d.setBin (k - deleted) (d.bin k)) rejections deleted := by
  have hdropped : keptIndices (fun bin => !keep bin) (k + 1) = keptIndices (fun bin => !keep bin) k :=
    keptIndices_succ_of_drop (by rw [hkeep]; rfl)
  refine ⟨?_, h.numBins, h.room, ?_, h.rejections, ?_⟩
  · rw [Distribution.bin_setBin, ← h.length_kept, h.bin_eq]
    exact h.compacted.move hkeep
  · rw [hdropped]
    exact h.rejected
  · rw [hdropped]
    exact h.deleted

/-- A bin that stays where it is, since none has been rejected. -/
theorem stay (h : Rejecting keep target k d rejections 0) (hkeep : keep k = true) :
    Rejecting keep target (k + 1) d rejections 0 := by
  have hdropped : keptIndices (fun bin => !keep bin) (k + 1) = keptIndices (fun bin => !keep bin) k :=
    keptIndices_succ_of_drop (by rw [hkeep]; rfl)
  refine ⟨h.compacted.stay hkeep h.length_kept, h.numBins, h.room, ?_, h.rejections, ?_⟩
  · rw [hdropped]
    exact h.rejected
  · rw [hdropped]
    exact h.deleted

/-- A bin that goes to the rejected ones, which are all below it. -/
theorem reject (h : Rejecting keep target k d rejections deleted) (hkeep : keep k = false)
    (htarget : target.IsHistogram m) (hk : k < target.numBins) (memory : Allocation) :
    ∃ rejections', distributionInsertCopies b rejections (d.sortedValues k) (d.counts k) memory
        = some rejections' ∧
      Rejecting keep target (k + 1) d rejections' (deleted + 1) := by
  have hkept : keptIndices (fun bin => !keep bin) (k + 1) =
      keptIndices (fun bin => !keep bin) k ++ [k] := keptIndices_succ_of_keep (by rw [hkeep]; rfl)
  have hvalue : d.sortedValues k = target.sortedValues k := congrArg Prod.fst h.bin_eq
  have hcount : d.counts k = target.counts k := congrArg Prod.snd h.bin_eq
  have hbelow : ∀ bin ∈ rejections.bins, bin.1 < d.sortedValues k := by
    intro bin hmem
    rw [h.rejected, List.mem_map] at hmem
    obtain ⟨i, hi, rfl⟩ := hmem
    have hlt : i < k := List.mem_range.mp (List.mem_of_mem_filter hi)
    rw [hvalue]
    exact htarget.increasing (Set.mem_Iio.mpr (hlt.trans hk)) (Set.mem_Iio.mpr hk) hlt
  obtain ⟨rejections', hinsert, hbins, hhist⟩ := h.rejections.insertCopies_append (b := b) hbelow
    (hcount ▸ htarget.positive k hk) memory
  refine ⟨rejections', hinsert, h.compacted.drop hkeep, h.numBins, h.room, ?_, ?_, ?_⟩
  · rw [hbins, h.rejected, hkept, List.map_append, List.map_singleton, ← h.bin_eq]
    rfl
  · rw [hbins, contentsOf_append, contentsOf_singleton]
    exact hhist
  · rw [hkept, List.length_append, ← h.deleted]
    rfl

end Rejecting

/-- A round of the loop. -/
theorem rejectRound_spec (htarget : target.IsHistogram m) (hk : k < target.numBins)
    {d rejections : Distribution} {deleted : ℕ} (memory : ℕ → Allocation)
    (h : Rejecting (aboveThreshold filter.binWeights threshold) target k d rejections deleted) :
    ∃ s, rejectRound b memory filter threshold (d, rejections, deleted) k = some s ∧
      Rejecting (aboveThreshold filter.binWeights threshold) target (k + 1) s.1 s.2.1 s.2.2 := by
  simp only [rejectRound]
  split
  · rename_i hkeep
    split
    · exact ⟨_, rfl, h.move (decide_eq_true hkeep)⟩
    · rename_i hnone
      obtain rfl := Nat.eq_zero_of_not_pos hnone
      exact ⟨_, rfl, h.stay (decide_eq_true hkeep)⟩
  · rename_i hreject
    obtain ⟨rejections', hinsert, h'⟩ := h.reject (b := b) (decide_eq_false hreject) htarget hk
      (memory k)
    exact ⟨(d, rejections', deleted + 1), by rw [hinsert]; rfl, h'⟩

theorem aboveThreshold_rejected (binWeights : ℕ → W) (threshold : W) (target : Distribution) :
    (rejectedBins binWeights threshold target).length =
      (keptIndices (fun bin => !aboveThreshold binWeights threshold bin) target.numBins).length :=
  List.length_map ..

/-- `reject_bins` leaves the kept bins, in a builder, and has the others reported. -/
theorem rejectBins_spec (threshold : W) (h : target.IsHistogram m)
    (hcapacity : target.numBins ≤ filter.binCapacity)
    (husable : filter.lastRejections.Usable) (memory : ℕ → Allocation) :
    ∃ filter' target', rejectBins b memory filter target threshold = some (filter', target') ∧
      target'.bins = keptBins filter.binWeights threshold target ∧
      target'.IsHistogram (contentsOf (keptBins filter.binWeights threshold target)) ∧
      ReportOf filter filter' (rejectedBins filter.binWeights threshold target) := by
  obtain ⟨hempty, hempty'⟩ := husable.recycle
  obtain ⟨⟨d, builder, deleted⟩, hloop, hdone⟩ := forRangeM_induction 0 target.numBins
    (target, filter.lastRejections.recycle.storage, 0)
    (rejectRound b memory filter threshold)
    (fun k s => Rejecting (aboveThreshold filter.binWeights threshold) target k s.1 s.2.1 s.2.2)
    ⟨.start _ _, rfl, rfl, hempty, by rw [hempty]; exact hempty', rfl⟩
    (fun i _ _ hi hs => rejectRound_spec h (by simpa using hi) memory hs)
  rw [Nat.zero_add] at hdone
  obtain ⟨hcompacted, hnum, hroom, hrejected, hhist, hdeleted⟩ := hdone
  have hlength := length_keptIndices_add (aboveThreshold filter.binWeights threshold) target.numBins
  simp only at hnum hroom hrejected hhist hdeleted
  have hkeptNum : d.numBins - deleted =
      (keptIndices (aboveThreshold filter.binWeights threshold) target.numBins).length := by omega
  have hkept : ({ d with numBins := d.numBins - deleted } : Distribution).bins =
      keptBins filter.binWeights threshold target := by
    rw [Distribution.bins, keptBins, ← hcompacted.front, hkeptNum]
    rfl
  have htarget : ({ d with numBins := d.numBins - deleted } : Distribution).IsHistogram
      (contentsOf (keptBins filter.binWeights threshold target)) := by
    obtain ⟨hsorted, -, hspace, hpositive⟩ := Distribution.isHistogram_iff.mp h
    refine Distribution.isHistogram_iff.mpr ⟨?_, congrArg contentsOf hkept, ?_, ?_⟩
    · rw [hkept]
      exact hsorted.sublist (keptIndices_sublist ..)
    · exact (Nat.sub_le ..).trans (hnum.trans_le (hspace.trans_eq hroom.symm))
    · exact hroom ▸ hpositive
  have hbuilder : builder.bins = rejectedBins filter.binWeights threshold target := hrejected
  rw [hbuilder] at hhist
  rw [← aboveThreshold_rejected] at hdeleted
  simp only [rejectBins, if_pos hcapacity, hloop, Option.bind_eq_bind, Option.bind_some]
  split
  · rename_i hsome
    have hbins : builder.numBins ≠ 0 := by
      rw [← builder.length_bins, hbuilder]
      omega
    rw [distributionBuild, if_neg hbins]
    refine ⟨_, _, rfl, hkept, htarget, ⟨rfl, rfl⟩, rfl, builder, hbuilder, hhist, ?_⟩
    rw [if_neg (List.ne_nil_of_length_pos (by omega)), distributionBuild, if_neg hbins]
    exact ⟨rfl, rfl⟩
  · rename_i hnone
    refine ⟨_, _, rfl, hkept, htarget, ⟨rfl, rfl⟩, rfl, builder, hbuilder, hhist, ?_⟩
    rw [if_pos (List.length_eq_zero_iff.mp (by omega)), RecyclableDistribution.recycle]
    split <;> rfl

/-- A bin is kept or rejected. -/
theorem keptBins_perm (binWeights : ℕ → W) (threshold : W) (target : Distribution) :
    (keptBins binWeights threshold target ++ rejectedBins binWeights threshold target).Perm
      target.bins :=
  keptIndices_perm ..

/-- What is not kept has been removed. -/
theorem contents_sub_kept
    (htarget' : target'.IsHistogram (contentsOf (keptBins binWeights threshold target))) :
    target.contents - target'.contents = contentsOf (rejectedBins binWeights threshold target) := by
  have hperm := contentsOf_perm (keptBins_perm binWeights threshold target)
  rw [target.contents_eq, htarget'.contents, ← hperm, contentsOf_append]
  exact add_tsub_cancel_left ..

/-- The rejected bins have values. -/
theorem rejected_eq_zero (binWeights : ℕ → W) (threshold : W) (h : target.IsHistogram m) :
    contentsOf (rejectedBins binWeights threshold target) = 0 ↔
      rejectedBins binWeights threshold target = [] :=
  contentsOf_eq_zero fun bin hbin =>
    ((Distribution.isHistogram_iff.mp h).1.sublist (keptIndices_sublist ..)).positive bin hbin

theorem rejected_eq_nil : rejectedBins binWeights threshold target = [] ↔
    ¬ ∃ bin < target.numBins, ¬ threshold < binWeights bin := by
  rw [rejectedBins, List.map_eq_nil_iff, keptIndices, List.filter_eq_nil_iff]
  simp [aboveThreshold]

/-- `reject_bins` leaves a builder with exactly the bins whose weight is above the threshold, and the
values of the others are those of the report. -/
theorem rejectBins_conserves (b : Build) (threshold : W) (memory : ℕ → Allocation)
    (h : target.IsHistogram m) (hcapacity : target.numBins ≤ filter.binCapacity)
    (husable : filter.lastRejections.Usable) :
    ∃ (filter' : OutlierFilter W) (target' builder : Distribution),
      rejectBins b memory filter target threshold = some (filter', target') ∧
      target'.bins = keptBins filter.binWeights threshold target ∧ SortedBins target'.bins ∧
      builder.bins = rejectedBins filter.binWeights threshold target ∧ SortedBins builder.bins ∧
      target'.contents + builder.contents = m ∧
      if rejectedBins filter.binWeights threshold target = [] then
        filter'.lastRejections.storage = builder
      else
        filter'.lastRejections.isBuilt = true ∧
          distributionBuild builder = some filter'.lastRejections.storage ∧
          (m.card < 2 ^ 64 → filter'.lastRejections.storage.Built ∧
            (filter'.lastRejections.storage.values : Multiset ℤ) = builder.contents) := by
  obtain ⟨filter', target', hstep, hkept, htarget, -, -, builder, hrejected, hbuilder, hreport⟩ :=
    rejectBins_spec (b := b) threshold h hcapacity husable memory
  have hsum : target'.contents + builder.contents = m := by
    rw [target'.contents_eq, builder.contents_eq, hkept, hrejected, ← contentsOf_append,
      ← (Distribution.isHistogram_iff.mp h).2.1]
    exact contentsOf_perm (keptBins_perm ..)
  refine ⟨filter', target', builder, hstep, hkept, (Distribution.isHistogram_iff.mp htarget).1,
    hrejected, (Distribution.isHistogram_iff.mp hbuilder).1, hsum, ?_⟩
  split at hreport
  · rename_i hnone
    rw [if_pos hnone, hreport]
  · rename_i hsome
    obtain ⟨hbuilt, hbuild⟩ := hreport
    rw [if_neg hsome]
    refine ⟨hbuilt, hbuild, fun hfits => ?_⟩
    rw [builder.contents_eq, hrejected]
    refine hbuilder.of_build (lt_of_le_of_lt ?_ hfits) hbuild
    rw [← hrejected, ← builder.contents_eq, ← hsum, Multiset.card_add]
    exact Nat.le_add_left ..

/-- Three bins, of which the first and the last weigh little. -/
def threeWeighedBins : Distribution where
  allocation := { sortedValues := fun i => [1, 2, 9].getD i 0, counts := fun i => [3, 4, 1].getD i 0 }
  numBins := 3
  capacity := 4

/-- A filter that has not rejected anything. -/
def threeWeights : OutlierFilter ℤ where
  binWeights := fun i => [1, 100, 2].getD i 0
  binCapacity := 4
  lastScores := ⟨{ allocation := .zero, numBins := 0, capacity := 2 }, false⟩
  lastRejections := ⟨{ allocation := .zero, numBins := 0, capacity := 2 }, false⟩

theorem threeWeighedBins_isHistogram : threeWeighedBins.IsHistogram {1, 1, 1, 2, 2, 2, 2, 9} :=
  Distribution.isHistogram_iff.mpr ⟨⟨by decide, by decide⟩, by decide, by decide, by decide⟩

theorem rejectBins_conserves_threeWeighedBins : ∃ (filter' : OutlierFilter ℤ)
    (target' builder : Distribution),
      rejectBins ⟨true⟩ (fun _ => .zero) threeWeights threeWeighedBins 2 = some (filter', target') ∧
      target'.bins = [(2, 4)] ∧ builder.bins = [(1, 3), (9, 1)] ∧
      (filter'.lastRejections.storage.values : Multiset ℤ) = builder.contents := by
  obtain ⟨filter', target', builder, hstep, hkept, -, hrejected, -, -, hreport⟩ :=
    rejectBins_conserves ⟨true⟩ (2 : ℤ) (fun _ => .zero) threeWeighedBins_isHistogram
      (show threeWeighedBins.numBins ≤ threeWeights.binCapacity by decide)
      ⟨by decide, by decide, by decide⟩
  rw [if_neg (by decide)] at hreport
  exact ⟨filter', target', builder, hstep, hkept, hrejected, (hreport.2.2 (by decide)).2⟩

end Udipe

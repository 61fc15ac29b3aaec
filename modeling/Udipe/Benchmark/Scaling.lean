import Udipe.Benchmark.Ranks
import Udipe.Lib.Loops

/-!
# Scaled distributions

Reference: `benchmark/distribution.h`, `benchmark/distribution.c`.

Scaling writes the bins directly, in the reversed order for a negative factor. Together they are the
scaled values, which inserting these one by one would yield as well, and a multiset has only one
histogram.
-/

namespace Udipe

open Finset

/-- The product of two `int64_t`, wrapped where it is undefined in C. -/
def int64Mul (x y : ℤ) : ℤ := Int.bmod (x * y) (2 ^ 64)

/-- The difference of two `size_t`. -/
def sizeSub (x y : ℕ) : ℕ := (x + 2 ^ 64 - y) % 2 ^ 64

/-- The output bin of an input bin. -/
def scaledPos (factor : ℤ) (numBins distPos : ℕ) : ℕ :=
  if 0 < factor then distPos else numBins - distPos - 1

/-- A round of the loop of `distribution_scale`. -/
def scaleRound (b : Build) (factor : ℤ) (dist : Distribution) (s : Distribution × ℕ) (distPos : ℕ) :
    Option (Distribution × ℕ) := do
  let (builder, prevEndRank) := s
  let scaledValue := int64Mul factor (dist.sortedValues distPos)
  let distEndRank := dist.counts distPos
  b.assert (decide (prevEndRank < distEndRank))
  let count := sizeSub distEndRank prevEndRank
  some (builder.setBin (scaledPos factor dist.numBins distPos) (scaledValue, count), distEndRank)

/-- The builder, or one with the capacity of `dist` where it has not enough room. -/
def enlargeBuilder (builder dist : Distribution) (memory : Allocation) : Option Distribution :=
  if builder.capacity < dist.numBins then distributionAllocate dist.capacity memory
  else some builder

/-- `distribution_scale`; `memory` is what `malloc` answers if it is called. -/
def distributionScale (b : Build) (builder : Distribution) (factor : ℤ) (dist : Distribution)
    (memory : Allocation) : Option Distribution :=
  if builder.numBins ≠ 0 then none
  else if factor = 0 then
    if builder.capacity < 1 then none
    else do
      let len ← distributionLen b dist
      distributionBuild { builder.setBin 0 (0, len) with numBins := 1 }
  else do
    let builder ← enlargeBuilder builder dist memory
    let (builder, _) ← forRangeM 0 dist.numBins (builder, 0) (scaleRound b factor dist)
    distributionBuild { builder with numBins := dist.numBins }

/-- What `distribution_scale` stands for: the scaled values are inserted one by one, in the order of
their ranks. `memory` is what `malloc` answers at each rank. -/
def naiveScale (b : Build) (builder : Distribution) (factor : ℤ) (dist : Distribution)
    (memory : ℕ → Allocation) : Option Distribution := do
  let len ← distributionLen b dist
  let builder ← forRangeM 0 len builder fun builder rank => do
    let value ← distributionNth b dist rank
    distributionInsert b builder (int64Mul factor value) (memory rank)
  distributionBuild builder

variable {b : Build} {dist builder : Distribution} {factor : ℤ} {m : Multiset ℤ} {i k n : ℕ}

theorem int64Mul_eq {x y : ℤ} (hlow : -2 ^ 63 ≤ x * y) (hhigh : x * y < 2 ^ 63) :
    int64Mul x y = x * y :=
  Int.bmod_eq_of_le (by omega) (by omega)

theorem sizeSub_eq {x y : ℕ} (hle : y ≤ x) (hlt : x < 2 ^ 64) : sizeSub x y = x - y := by
  rw [sizeSub]
  omega

/-! ## Inserting values one by one -/

namespace Distribution.IsHistogram

theorem empty (hempty : dist.numBins = 0) (hcapacity : 0 < dist.capacity) : dist.IsHistogram 0 := by
  have hnone : ∀ i, ¬ i < dist.numBins := fun i hi => Nat.not_lt_zero i (hempty ▸ hi)
  refine ⟨fun i hi => absurd hi (hnone i), fun i hi => absurd hi (hnone i), ?_,
    hempty ▸ Nat.zero_le _, hcapacity⟩
  rw [Distribution.contents, hempty]
  rfl

/-- `distribution_insert` adds a value. -/
theorem insert (b : Build) (h : dist.IsHistogram m) (x : ℤ) (memory : Allocation)
    (hfits : m.card + 1 < 2 ^ 64) :
    ∃ dist', distributionInsert b dist x memory = some dist' ∧ dist'.IsHistogram (m + {x}) := by
  have hcount : m.count x + 1 < 2 ^ 64 :=
    (Nat.add_le_add_right (Multiset.count_le_card x m) 1).trans_lt hfits
  have hsome : (distributionInsertCopies b dist x 1 memory).isSome = true :=
    h.insertCopies_isSome one_pos hcount
  obtain ⟨dist', hinsert⟩ := Option.isSome_iff_exists.mp hsome
  refine ⟨dist', hinsert, ?_⟩
  rw [← Multiset.replicate_one]
  exact h.insertCopies (.inr one_pos) hcount hinsert

/-- The values of a loop. -/
theorem insertLoop (b : Build) (h : dist.IsHistogram 0) {xs : List ℤ} (hfits : xs.length < 2 ^ 64)
    {value : ℕ → Option ℤ} (hvalue : ∀ i (hi : i < xs.length), value i = some xs[i])
    (memory : ℕ → Allocation) :
    ∃ dist', forRangeM 0 xs.length dist
        (fun dist i => (value i).bind fun x => distributionInsert b dist x (memory i)) = some dist' ∧
      dist'.IsHistogram xs := by
  have hloop := forRangeM_induction 0 xs.length dist
    (fun dist i => (value i).bind fun x => distributionInsert b dist x (memory i))
    (fun i dist => dist.IsHistogram (xs.take i)) h fun i dist' _ hi h' => ?_
  · rwa [Nat.zero_add, List.take_length] at hloop
  · rw [Nat.zero_add] at hi
    rw [hvalue i hi, Option.bind_some, List.take_add_one, List.getElem?_eq_getElem hi,
      Option.toList_some, ← Multiset.coe_add]
    refine h'.insert b _ _ ?_
    rw [Multiset.coe_card, List.length_take]
    omega

theorem mem_iff {x : ℤ} (h : dist.IsHistogram m) :
    x ∈ m ↔ ∃ i < dist.numBins, dist.sortedValues i = x := by
  rw [← h.contents, Distribution.contents, Multiset.mem_sum]
  constructor
  · rintro ⟨i, hi, hx⟩
    exact ⟨i, Finset.mem_range.mp hi, (Multiset.eq_of_mem_replicate hx).symm⟩
  · rintro ⟨i, hi, rfl⟩
    exact ⟨i, Finset.mem_range.mpr hi, Multiset.mem_replicate.mpr ⟨(h.positive i hi).ne', rfl⟩⟩

/-- A multiset has only one histogram. -/
theorem unique {dist' : Distribution} (h : dist.IsHistogram m) (h' : dist'.IsHistogram m) :
    dist.numBins = dist'.numBins ∧ ∀ i < dist.numBins, dist.bin i = dist'.bin i := by
  obtain ⟨hnum, hvalues⟩ := h.increasing.eq_of_occurs_iff h'.increasing fun x =>
    h.mem_iff.symm.trans h'.mem_iff
  refine ⟨hnum, fun i hi => Prod.ext (hvalues i hi) ?_⟩
  show dist.counts i = dist'.counts i
  rw [← h.count_eq hi, ← h'.count_eq (hnum ▸ hi), hvalues i hi]

end Distribution.IsHistogram

/-! ## The scaled bins -/

theorem scaledPos_lt (hi : i < n) : scaledPos factor n i < n := by
  rw [scaledPos]
  split <;> omega

/-- The order of the bins is kept or reversed. -/
theorem scaledPos_scaledPos (hi : i < n) : scaledPos factor n (scaledPos factor n i) = i := by
  rw [scaledPos, scaledPos]
  split
  · rfl
  · omega

namespace Distribution.Built

theorem counts_lt (h : dist.Built) (hk : k < dist.numBins) : dist.counts k < 2 ^ 64 :=
  (h.ranks.entry_le (Nat.le_sub_one_of_lt hk) (by omega)).trans_lt h.fits

theorem length_values_lt (h : dist.Built) : dist.values.length < 2 ^ 64 := by
  rw [h.length_values]
  exact h.fits

/-- A round recovers the count from the end ranks. -/
theorem scaleRound_eq (b : Build) (h : dist.Built)
    (hfits : ∀ x ∈ dist.values, -2 ^ 63 ≤ factor * x ∧ factor * x < 2 ^ 63) (builder : Distribution)
    (hk : k < dist.numBins) :
    scaleRound b factor dist (builder, dist.startRank k) k
      = some (builder.setBin (scaledPos factor dist.numBins k)
          (factor * dist.sortedValues k, dist.binCount k), dist.startRank (k + 1)) := by
  have hrank := h.startRank_lt hk
  obtain ⟨hlow, hhigh⟩ := hfits _ (h.mem_values.mpr ⟨k, hk, rfl⟩)
  rw [scaleRound]
  simp only [b.assert_decide hrank, Option.bind_eq_bind, Option.bind_some,
    int64Mul_eq hlow hhigh, sizeSub_eq hrank.le (h.counts_lt hk)]
  rfl

/-- The loop writes every scaled value with its count. -/
theorem scaleLoop_spec (b : Build) (h : dist.Built) (builder : Distribution)
    (hfits : ∀ x ∈ dist.values, -2 ^ 63 ≤ factor * x ∧ factor * x < 2 ^ 63) :
    ∃ scaled endRank,
      forRangeM 0 dist.numBins (builder, 0) (scaleRound b factor dist) = some (scaled, endRank) ∧
      scaled.capacity = builder.capacity ∧ ∀ i < dist.numBins,
        scaled.bin i = (factor * dist.sortedValues (scaledPos factor dist.numBins i),
          dist.binCount (scaledPos factor dist.numBins i)) := by
  have hloop := forRangeM_induction 0 dist.numBins (builder, 0) (scaleRound b factor dist)
    (fun k s => s.1.capacity = builder.capacity ∧ s.2 = dist.startRank k ∧ ∀ i < k,
      s.1.bin (scaledPos factor dist.numBins i) = (factor * dist.sortedValues i, dist.binCount i))
    ⟨rfl, rfl, fun i hi => absurd hi (Nat.not_lt_zero i)⟩ ?_
  · obtain ⟨⟨scaled, endRank⟩, hrun, hcapacity, -, hbins⟩ := hloop
    refine ⟨scaled, endRank, hrun, hcapacity, fun i hi => ?_⟩
    rw [Nat.zero_add] at hbins
    have hbin := hbins (scaledPos factor dist.numBins i) (scaledPos_lt hi)
    rwa [scaledPos_scaledPos hi] at hbin
  · rintro k ⟨d, prevEndRank⟩ - hk ⟨hcapacity, rfl, hbins⟩
    rw [Nat.zero_add] at hk
    refine ⟨_, scaleRound_eq b h hfits d hk, hcapacity, rfl, fun i hi => ?_⟩
    rcases Nat.lt_succ_iff_lt_or_eq.mp hi with hlt | rfl
    · have hne : scaledPos factor dist.numBins i ≠ scaledPos factor dist.numBins k := fun heq => by
        have hback := congrArg (scaledPos factor dist.numBins) heq
        rw [scaledPos_scaledPos (hlt.trans hk), scaledPos_scaledPos hk] at hback
        exact hlt.ne hback
      exact (Distribution.bin_setBin_of_ne _ _ hne).trans (hbins i hlt)
    · exact Distribution.bin_setBin_self _ _ _

/-- Bins with the scaled values are a histogram of them. -/
theorem isHistogram_scaled (h : dist.Built) (hfactor : factor ≠ 0) {scaled : Distribution}
    (hnum : scaled.numBins = dist.numBins) (hroom : dist.numBins ≤ scaled.capacity)
    (hbins : ∀ i < dist.numBins,
      scaled.bin i = (factor * dist.sortedValues (scaledPos factor dist.numBins i),
        dist.binCount (scaledPos factor dist.numBins i))) :
    scaled.IsHistogram (dist.values.map fun x => factor * x : List ℤ) := by
  have hvalues : ∀ i < dist.numBins,
      scaled.sortedValues i = factor * dist.sortedValues (scaledPos factor dist.numBins i) :=
    fun i hi => congrArg Prod.fst (hbins i hi)
  have hcounts : ∀ i < dist.numBins,
      scaled.counts i = dist.binCount (scaledPos factor dist.numBins i) :=
    fun i hi => congrArg Prod.snd (hbins i hi)
  refine ⟨?_, ?_, ?_, hnum ▸ hroom, h.nonempty.trans_le hroom⟩
  · rw [hnum]
    refine strictMonoOn_Iio_iff.mpr fun j hj i hij => ?_
    rw [hvalues j hj, hvalues i (hij.trans hj), scaledPos, scaledPos]
    split
    · rename_i hpos
      exact Int.mul_lt_mul_of_pos_left (h.increasing.entry_lt hij hj) hpos
    · rename_i hneg
      have hreversed := h.increasing.entry_lt
        (show dist.numBins - j - 1 < dist.numBins - i - 1 by omega) (by omega)
      exact Int.mul_lt_mul_of_neg_left hreversed (by omega)
  · intro i hi
    rw [hnum] at hi
    rw [hcounts i hi]
    exact h.binCount_pos (scaledPos_lt hi)
  · rw [Distribution.values, map_runs, coe_runs, Distribution.contents, hnum]
    refine Finset.sum_nbij' (scaledPos factor dist.numBins) (scaledPos factor dist.numBins)
      ?_ ?_ ?_ ?_ ?_
    · exact fun i hi => Finset.mem_range.mpr (scaledPos_lt (Finset.mem_range.mp hi))
    · exact fun i hi => Finset.mem_range.mpr (scaledPos_lt (Finset.mem_range.mp hi))
    · exact fun i hi => scaledPos_scaledPos (Finset.mem_range.mp hi)
    · exact fun i hi => scaledPos_scaledPos (Finset.mem_range.mp hi)
    · intro i hi
      rw [hbins i (Finset.mem_range.mp hi)]

theorem enlargeBuilder_spec (h : dist.Built) (builder : Distribution) (memory : Allocation) :
    ∃ builder', enlargeBuilder builder dist memory = some builder' ∧
      dist.numBins ≤ builder'.capacity := by
  rw [enlargeBuilder]
  split
  · have hroom := h.room
    have hnonempty := h.nonempty
    rw [distributionAllocate, if_pos (by omega)]
    exact ⟨_, rfl, hroom⟩
  · rename_i hlarge
    exact ⟨builder, rfl, not_lt.mp hlarge⟩

/-- `distribution_scale` builds a histogram of the scaled values. -/
theorem distributionScale_eq (b : Build) (h : dist.Built) (hempty : builder.numBins = 0)
    (hroom : factor ≠ 0 ∨ 0 < builder.capacity)
    (hfits : ∀ x ∈ dist.values, -2 ^ 63 ≤ factor * x ∧ factor * x < 2 ^ 63) (memory : Allocation) :
    ∃ scaled : Distribution,
      distributionScale b builder factor dist memory = distributionBuild scaled ∧
      scaled.IsHistogram (dist.values.map fun x => factor * x : List ℤ) := by
  rw [distributionScale, if_neg (not_not.mpr hempty)]
  split
  · -- all values become zero
    rename_i hzero
    have hcapacity : 0 < builder.capacity := hroom.resolve_left (not_not.mpr hzero)
    refine ⟨{ builder.setBin 0 (0, dist.values.length) with numBins := 1 }, ?_, ?_⟩
    · rw [if_neg (by omega), h.distributionLen_eq b]
      rfl
    · have hlength := h.length_values_pos
      have hmap : (dist.values.map fun x => factor * x) = List.replicate dist.values.length 0 := by
        simp only [hzero, zero_mul]
        exact List.map_const' ..
      rw [hmap]
      refine ⟨strictMonoOn_Iio_iff.mpr fun j hj i hij => ?_, fun i hi => ?_, ?_, hcapacity,
        hcapacity⟩
      · exact absurd (hij.trans_le (Nat.lt_succ_iff.mp hj)) (Nat.not_lt_zero i)
      · obtain rfl : i = 0 := Nat.lt_one_iff.mp hi
        have hbin := builder.bin_setBin_self 0 (0, dist.values.length)
        exact hlength.trans_eq (congrArg Prod.snd hbin).symm
      · rw [Distribution.contents, Finset.sum_range_one]
        exact congrArg (fun bin : ℤ × ℕ => Multiset.replicate bin.2 bin.1)
          (Distribution.bin_setBin_self builder 0 _)
  · rename_i hfactor
    -- the builder has room for all bins, perhaps after a reallocation
    obtain ⟨builder', hallocated, hlarge⟩ := h.enlargeBuilder_spec builder memory
    obtain ⟨scaled, endRank, hloop, hcapacity, hbins⟩ := h.scaleLoop_spec b builder' hfits
    refine ⟨{ scaled with numBins := dist.numBins }, ?_, h.isHistogram_scaled hfactor rfl ?_ hbins⟩
    · simp only [hallocated, hloop, Option.bind_eq_bind, Option.bind_some]
    · exact hlarge.trans_eq hcapacity.symm

/-- So does inserting them one by one. -/
theorem naiveScale_eq (b : Build) (h : dist.Built) (hempty : builder.numBins = 0)
    (hcapacity : 0 < builder.capacity)
    (hfits : ∀ x ∈ dist.values, -2 ^ 63 ≤ factor * x ∧ factor * x < 2 ^ 63)
    (memory : ℕ → Allocation) :
    ∃ naive : Distribution, naiveScale b builder factor dist memory = distributionBuild naive ∧
      naive.IsHistogram (dist.values.map fun x => factor * x : List ℤ) := by
  have hvalue : ∀ rank (hrank : rank < (dist.values.map fun x => factor * x).length),
      (distributionNth b dist rank).map (int64Mul factor)
        = some (dist.values.map fun x => factor * x)[rank] := by
    intro rank hrank
    rw [List.length_map] at hrank
    obtain ⟨hlow, hhigh⟩ := hfits _ (List.getElem_mem hrank)
    rw [h.distributionNth_eq b hrank, List.getElem?_eq_getElem hrank, Option.map_some,
      int64Mul_eq hlow hhigh, List.getElem_map]
  have hlength : (dist.values.map fun x => factor * x).length < 2 ^ 64 := by
    rw [List.length_map]
    exact h.length_values_lt
  obtain ⟨naive, hloop, hnaive⟩ :=
    (Distribution.IsHistogram.empty hempty hcapacity).insertLoop b hlength hvalue memory
  refine ⟨naive, ?_, hnaive⟩
  rw [List.length_map] at hloop
  simp only [Option.bind_map, Function.comp_def] at hloop
  simp only [naiveScale, h.distributionLen_eq b, Option.bind_eq_bind, Option.bind_some, hloop]

end Distribution.Built

/-- Two histograms of the same values are built into the same bins. -/
theorem Distribution.IsHistogram.build_unique {dist' : Distribution} (h : dist.IsHistogram m)
    (h' : dist'.IsHistogram m) (hsome : m ≠ 0) (hfits : m.card < 2 ^ 64) :
    ∃ built built', distributionBuild dist = some built ∧ distributionBuild dist' = some built' ∧
      built.Built ∧ built.numBins = built'.numBins ∧ ∀ i < built.numBins, built.bin i = built'.bin i := by
  obtain ⟨hsame, hbins⟩ := h.unique h'
  have hnonempty := h.numBins_pos hsome
  obtain ⟨built, hbuild, hbuilt, -, hnum, hvalues, hranks⟩ := h.build hnonempty hfits
  obtain ⟨built', hbuild', -, -, hnum', hvalues', hranks'⟩ := h'.build (hsame ▸ hnonempty) hfits
  refine ⟨built, built', hbuild, hbuild', hbuilt, hnum.trans (hsame.trans hnum'.symm), ?_⟩
  intro i hi
  refine Prod.ext ?_ ?_
  · show built.sortedValues i = built'.sortedValues i
    rw [hvalues, hvalues']
    exact congrArg Prod.fst (hbins i (hnum ▸ hi))
  · show built.counts i = built'.counts i
    rw [hranks i hi, hranks' i (by omega)]
    refine Finset.sum_congr rfl fun j hj => congrArg Prod.snd (hbins j ?_)
    have := Finset.mem_range.mp hj
    omega

/-- For every factor without overflow, `distribution_scale` yields the bins and end ranks that
inserting the scaled values one by one into an empty builder would. -/
theorem distributionScale_eq_naiveScale (b : Build) (h : dist.Built) (hempty : builder.numBins = 0)
    (hroom : factor ≠ 0 ∨ 0 < builder.capacity)
    (hfits : ∀ x ∈ dist.values, -2 ^ 63 ≤ factor * x ∧ factor * x < 2 ^ 63) (memory : Allocation)
    {builder' : Distribution} (hempty' : builder'.numBins = 0) (hroom' : 0 < builder'.capacity)
    (memory' : ℕ → Allocation) :
    ∃ scaled naive, distributionScale b builder factor dist memory = some scaled ∧
      naiveScale b builder' factor dist memory' = some naive ∧ scaled.Built ∧
      scaled.numBins = naive.numBins ∧ ∀ i < scaled.numBins, scaled.bin i = naive.bin i := by
  obtain ⟨scaled, hscale, hscaled⟩ := h.distributionScale_eq b hempty hroom hfits memory
  obtain ⟨naive, hnaiveScale, hnaive⟩ := h.naiveScale_eq b hempty' hroom' hfits memory'
  rw [hscale, hnaiveScale]
  have hsome : (dist.values.map fun x => factor * x : List ℤ) ≠ (0 : Multiset ℤ) := by
    intro hzero
    have hcard := congrArg Multiset.card hzero
    rw [Multiset.coe_card, List.length_map, Multiset.card_zero] at hcard
    exact h.length_values_pos.ne' hcard
  have hlength : ((dist.values.map fun x => factor * x : List ℤ) : Multiset ℤ).card < 2 ^ 64 := by
    rw [Multiset.coe_card, List.length_map]
    exact h.length_values_lt
  exact hscaled.build_unique hnaive hsome hlength

/-- A fresh builder with room for two bins. -/
def smallBuilder : Distribution where
  allocation := .zero
  numBins := 0
  capacity := 2

/-- Twice the negation, with a reallocation. -/
theorem distributionScale_eq_naiveScale_threeRuns :
    ∃ scaled naive, distributionScale ⟨true⟩ smallBuilder (-2) threeRuns .zero = some scaled ∧
      naiveScale ⟨true⟩ smallBuilder (-2) threeRuns (fun _ => .zero) = some naive ∧ scaled.Built ∧
      scaled.numBins = naive.numBins ∧ ∀ i < scaled.numBins, scaled.bin i = naive.bin i :=
  distributionScale_eq_naiveScale ⟨true⟩ threeRuns_built rfl (.inl (by decide)) (by decide) .zero
    rfl (by decide) fun _ => .zero

end Udipe

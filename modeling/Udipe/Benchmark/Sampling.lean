import Udipe.Benchmark.Scaling

/-!
# Arithmetic on sampled distributions

Reference: `benchmark/distribution.h`, `benchmark/distribution.c`.

A difference or ratio of two distributions goes through the values of one of them and combines each
with a random value of the other. Which of them is sampled depends on their lengths, except that
`distribution_scaled_div` compares the length of the numerator with itself.

`draws` has the number that `rand` answers for each sample, and `memory` what `malloc` does if its
insertion calls it.
-/

namespace Udipe

/-- `distribution_choose`, where `rand` answers `draw`. Without a value, the remainder is a division
by zero. -/
def distributionChoose (b : Build) (dist : Distribution) (draw : ℕ) : Option ℤ := do
  b.assert (decide (1 ≤ dist.numBins))
  let numValues ← distributionLen b dist
  if numValues = 0 then none
  else distributionNth b dist (draw % numValues)

/-- A round of the inner loops: a sample is combined with the value of the bin, and inserted. The
state has the builder and the number of samples. -/
def sampleRound (b : Build) (sampled : Distribution) (combine : ℤ → Option ℤ) (draws : ℕ → ℕ)
    (memory : ℕ → Allocation) (s : Distribution × ℕ) : Option (Distribution × ℕ) := do
  let (builder, sample) := s
  let chosen ← distributionChoose b sampled (draws sample)
  let value ← combine chosen
  let builder ← distributionInsert b builder value (memory sample)
  some (builder, sample + 1)

/-- A round of the outer loops, over the bins of the enumerated distribution. The state also has the
end rank of the previous bin. -/
def enumerateRound (b : Build) (enumerated sampled : Distribution) (combine : ℤ → ℤ → Option ℤ)
    (draws : ℕ → ℕ) (memory : ℕ → Allocation) (s : (Distribution × ℕ) × ℕ) (pos : ℕ) :
    Option ((Distribution × ℕ) × ℕ) := do
  let (inner, prevEndRank) := s
  let value := enumerated.sortedValues pos
  let endRank := enumerated.counts pos
  let count := sizeSub endRank prevEndRank
  let inner ← forRangeM 0 count inner fun inner _ => sampleRound b sampled (combine value)
    draws memory inner
  some (inner, endRank)

/-- Both loops, then `distribution_build`. -/
def buildSamples (b : Build) (builder enumerated sampled : Distribution)
    (combine : ℤ → ℤ → Option ℤ) (draws : ℕ → ℕ) (memory : ℕ → Allocation) :
    Option Distribution := do
  let ((builder, _), _) ←
    forRangeM 0 enumerated.numBins ((builder, 0), 0)
    (enumerateRound b enumerated sampled combine draws memory)
  distributionBuild builder

/-- `distribution_sub`. -/
def distributionSub (b : Build) (builder minuend subtrahend : Distribution) (draws : ℕ → ℕ)
    (memory : ℕ → Allocation) : Option Distribution :=
  if builder.numBins ≠ 0 then none
  else do
    let minuendLen ← distributionLen b minuend
    let subtrahendLen ← distributionLen b subtrahend
    let (shorter, longer, diffSign) :=
      if minuendLen ≤ subtrahendLen then (minuend, subtrahend, 1) else (subtrahend, minuend, -1)
    buildSamples b builder shorter longer
      (fun shortValue chosen => some (int64Mul diffSign (int64Sub shortValue chosen))) draws memory

/-- The quotient of two `int64_t`, wrapped where its overflow is undefined in C. -/
def int64Div (x y : ℤ) : Option ℤ := if y = 0 then none else some (Int.bmod (x.tdiv y) (2 ^ 64))

/-- `distribution_scaled_div`. The second length it asks for is that of `num` again. -/
def distributionScaledDiv (b : Build) (builder num : Distribution) (factor : ℤ)
    (denom : Distribution) (draws : ℕ → ℕ) (memory : ℕ → Allocation) : Option Distribution :=
  if builder.numBins ≠ 0 then none
  else do
    let len ← distributionLen b num
    let otherLen ← distributionLen b num
    if len ≤ otherLen then
      buildSamples b builder num denom
        (fun numValue denomValue => int64Div (int64Mul numValue factor) denomValue) draws memory
    else
      buildSamples b builder denom num
        (fun denomValue numValue => int64Div (int64Mul numValue factor) denomValue) draws memory

variable {b : Build} {builder enumerated sampled left right result : Distribution} {f : ℤ → ℤ → ℤ}
  {combine : ℤ → ℤ → Option ℤ} {r : ℕ}

/-! ## The loops -/

/-- `distribution_choose` chooses one of the values. -/
theorem Distribution.Built.distributionChoose_spec (b : Build) (h : sampled.Built) (draw : ℕ) :
    ∃ y ∈ sampled.values, distributionChoose b sampled draw = some y := by
  have hrank : draw % sampled.values.length < sampled.values.length :=
    Nat.mod_lt _ h.length_values_pos
  refine ⟨_, List.getElem_mem hrank, ?_⟩
  rw [distributionChoose, b.assert_decide (show 1 ≤ sampled.numBins from h.nonempty),
    h.distributionLen_eq b]
  simp only [Option.bind_eq_bind, Option.bind_some]
  rw [if_neg h.length_values_pos.ne', h.distributionNth_eq b hrank, List.getElem?_eq_getElem hrank]

/-- The builder has the values of `f` on the first `r` enumerated values, each with a value of the
other distribution. -/
def SampledUpTo (enumerated sampled : Distribution) (f : ℤ → ℤ → ℤ) (r : ℕ)
    (builder : Distribution) : Prop :=
  ∃ pairs : Multiset (ℤ × ℤ), pairs.map Prod.fst = (enumerated.values.take r : List ℤ) ∧
    (∀ p ∈ pairs, p.2 ∈ sampled.values) ∧ builder.IsHistogram (pairs.map fun p => f p.1 p.2)

/-- One sample. -/
theorem SampledUpTo.sampleRound (b : Build) (h : SampledUpTo enumerated sampled f r builder)
    (henumerated : enumerated.Built) (hsampled : sampled.Built) (hr : r < enumerated.values.length)
    (hcombine : ∀ x ∈ enumerated.values, ∀ y ∈ sampled.values, combine x y = some (f x y))
    (draws : ℕ → ℕ) (memory : ℕ → Allocation) (sample : ℕ) :
    ∃ s, sampleRound b sampled (combine enumerated.values[r]) draws memory (builder, sample)
        = some s ∧
      SampledUpTo enumerated sampled f (r + 1) s.1 := by
  obtain ⟨pairs, hfst, hsnd, hhist⟩ := h
  obtain ⟨y, hy, hchoose⟩ := hsampled.distributionChoose_spec b (draws sample)
  have hcard : (pairs.map fun p => f p.1 p.2).card = r := by
    have hcards := congrArg Multiset.card hfst
    rwa [Multiset.card_map, Multiset.coe_card, List.length_take_of_le hr.le,
      ← Multiset.card_map fun p => f p.1 p.2] at hcards
  have hroom : (pairs.map fun p => f p.1 p.2).card + 1 < 2 ^ 64 := by
    have hlength := henumerated.length_values_lt
    omega
  obtain ⟨builder', hinsert, hhist'⟩ := hhist.insert b (f enumerated.values[r] y)
    (memory sample) hroom
  refine ⟨(builder', sample + 1), ?_, pairs + {(enumerated.values[r], y)}, ?_, ?_, ?_⟩
  · rw [Udipe.sampleRound]
    simp only [hchoose, hcombine _ (List.getElem_mem hr) y hy, hinsert, Option.bind_eq_bind,
      Option.bind_some]
  · rw [Multiset.map_add, hfst, Multiset.map_singleton, List.take_add_one,
      List.getElem?_eq_getElem hr]
    rfl
  · intro p hp
    rcases Multiset.mem_add.mp hp with hold | hnew
    · exact hsnd p hold
    · obtain rfl := Multiset.mem_singleton.mp hnew
      exact hy
  · rw [Multiset.map_add, Multiset.map_singleton]
    exact hhist'

/-- The samples of one bin. -/
theorem enumerateRound_spec (b : Build) {s : Distribution × ℕ} {pos : ℕ}
    (henumerated : enumerated.Built) (hsampled : sampled.Built)
    (hcombine : ∀ x ∈ enumerated.values, ∀ y ∈ sampled.values, combine x y = some (f x y))
    (draws : ℕ → ℕ) (memory : ℕ → Allocation) (hpos : pos < enumerated.numBins)
    (h : SampledUpTo enumerated sampled f (enumerated.startRank pos) s.1) :
    ∃ s', enumerateRound b enumerated sampled combine draws memory (s, enumerated.startRank pos) pos
        = some s' ∧
      SampledUpTo enumerated sampled f (enumerated.startRank (pos + 1)) s'.1.1 ∧
      s'.2 = enumerated.startRank (pos + 1) := by
  have hrank := henumerated.startRank_lt hpos
  have hcount : sizeSub (enumerated.counts pos) (enumerated.startRank pos)
      = enumerated.binCount pos :=
    sizeSub_eq hrank.le (henumerated.counts_lt hpos)
  have hend : enumerated.startRank pos + enumerated.binCount pos = enumerated.startRank (pos + 1) :=
    Nat.add_sub_cancel' hrank.le
  have hsample : ∀ j inner, 0 ≤ j → j < 0 + enumerated.binCount pos →
      SampledUpTo enumerated sampled f (enumerated.startRank pos + j) inner.1 →
      ∃ inner', sampleRound b sampled (combine (enumerated.sortedValues pos)) draws memory inner
          = some inner' ∧
        SampledUpTo enumerated sampled f (enumerated.startRank pos + (j + 1)) inner'.1 := by
    rintro j ⟨builder, sample⟩ - hj hinner
    rw [Nat.zero_add] at hj
    have hbefore : enumerated.startRank pos + j < enumerated.counts pos := by
      rw [Distribution.binCount] at hj
      omega
    have hvalue := henumerated.getElem?_values hpos (Nat.le_add_right _ _) hbefore
    obtain ⟨hlt, hvalue⟩ := List.getElem?_eq_some_iff.mp hvalue
    rw [← hvalue]
    exact hinner.sampleRound b henumerated hsampled hlt hcombine draws memory sample
  obtain ⟨inner, hloop, hinner⟩ := forRangeM_induction 0 (enumerated.binCount pos) s _ _ h hsample
  rw [Nat.zero_add, hend] at hinner
  refine ⟨(inner, enumerated.counts pos), ?_, hinner, rfl⟩
  rw [enumerateRound]
  simp only [hcount, hloop, Option.bind_eq_bind, Option.bind_some]

/-- The result has the values of `f` on every enumerated value, with a value of the other
distribution each. -/
theorem buildSamples_spec (b : Build) (hempty : builder.numBins = 0) (hroom : 0 < builder.capacity)
    (henumerated : enumerated.Built) (hsampled : sampled.Built)
    (hcombine : ∀ x ∈ enumerated.values, ∀ y ∈ sampled.values, combine x y = some (f x y))
    (draws : ℕ → ℕ) (memory : ℕ → Allocation) :
    ∃ result, buildSamples b builder enumerated sampled combine draws memory = some result ∧
      result.Built ∧ ∃ pairs : Multiset (ℤ × ℤ), pairs.map Prod.fst = enumerated.values ∧
        (∀ p ∈ pairs, p.2 ∈ sampled.values) ∧
        (result.values : Multiset ℤ) = pairs.map fun p => f p.1 p.2 := by
  have hinit : SampledUpTo enumerated sampled f (enumerated.startRank 0) builder := by
    refine ⟨0, rfl, fun p hp => absurd hp (Multiset.notMem_zero p), ?_⟩
    exact Distribution.IsHistogram.empty hempty hroom
  have hround : ∀ pos (s : (Distribution × ℕ) × ℕ), 0 ≤ pos → pos < 0 + enumerated.numBins →
      SampledUpTo enumerated sampled f (enumerated.startRank pos) s.1.1 ∧
        s.2 = enumerated.startRank pos →
      ∃ s', enumerateRound b enumerated sampled combine draws memory s pos = some s' ∧
        SampledUpTo enumerated sampled f (enumerated.startRank (pos + 1)) s'.1.1 ∧
        s'.2 = enumerated.startRank (pos + 1) := by
    rintro pos ⟨s, prevEndRank⟩ - hpos ⟨hs, rfl⟩
    rw [Nat.zero_add] at hpos
    exact enumerateRound_spec b henumerated hsampled hcombine draws memory hpos hs
  obtain ⟨⟨⟨builder', samples⟩, endRank⟩, hloop, ⟨pairs, hfst, hsnd, hhist⟩, -⟩ :=
    forRangeM_induction 0 enumerated.numBins ((builder, 0), 0) _ _ ⟨hinit, rfl⟩ hround
  have hall : enumerated.startRank (0 + enumerated.numBins) = enumerated.values.length := by
    rw [Nat.zero_add, ← henumerated.sum_binCount le_rfl, Distribution.values, length_runs]
  rw [hall, List.take_length] at hfst
  have hcard : (pairs.map fun p => f p.1 p.2).card = enumerated.values.length := by
    rw [Multiset.card_map, ← Multiset.card_map Prod.fst, hfst, Multiset.coe_card]
  have hnonempty : 0 < builder'.numBins := by
    refine hhist.numBins_pos fun hzero => ?_
    rw [hzero, Multiset.card_zero] at hcard
    exact henumerated.length_values_pos.ne hcard
  obtain ⟨result, hbuild, hbuilt, hvalues, -⟩ :=
    hhist.build hnonempty (hcard ▸ henumerated.length_values_lt)
  refine ⟨result, ?_, hbuilt, pairs, hfst, hsnd, hvalues⟩
  rw [buildSamples]
  simp only [hloop, Option.bind_eq_bind, Option.bind_some]
  exact hbuild

/-- One value for each pair. -/
theorem length_eq_of_pairs {pairs : Multiset (ℤ × ℤ)} {xs ys : List ℤ} {g : ℤ × ℤ → ℤ}
    (hfst : pairs.map Prod.fst = (xs : Multiset ℤ)) (hvalues : (ys : Multiset ℤ) = pairs.map g) :
    ys.length = xs.length := by
  rw [← Multiset.coe_card ys, hvalues, Multiset.card_map, ← Multiset.card_map Prod.fst, hfst,
    Multiset.coe_card]

/-! ## The shorter distribution is enumerated -/

/-- The values of `result` are those of `f` on pairs of a value of each distribution, which use
every value of the shorter one, of `left` in doubt, as often as it occurs. -/
def CombinesShorter (f : ℤ → ℤ → ℤ) (left right result : Distribution) : Prop :=
  result.values.length = min left.values.length right.values.length ∧
    ∃ pairs : Multiset (ℤ × ℤ), (result.values : Multiset ℤ) = pairs.map (fun p => f p.1 p.2) ∧
      (∀ p ∈ pairs, p.1 ∈ left.values ∧ p.2 ∈ right.values) ∧
      if left.values.length ≤ right.values.length then pairs.map Prod.fst = left.values
      else pairs.map Prod.snd = right.values

theorem CombinesShorter.of_left {pairs : Multiset (ℤ × ℤ)}
    (hle : left.values.length ≤ right.values.length) (hfst : pairs.map Prod.fst = left.values)
    (hsnd : ∀ p ∈ pairs, p.2 ∈ right.values)
    (hvalues : (result.values : Multiset ℤ) = pairs.map fun p => f p.1 p.2) :
    CombinesShorter f left right result := by
  refine ⟨?_, pairs, hvalues, fun p hp => ⟨?_, hsnd p hp⟩, ?_⟩
  · rw [min_eq_left hle]
    exact length_eq_of_pairs hfst hvalues
  · rw [← Multiset.mem_coe, ← hfst]
    exact Multiset.mem_map_of_mem Prod.fst hp
  · rw [if_pos hle]
    exact hfst

theorem CombinesShorter.of_right {pairs : Multiset (ℤ × ℤ)}
    (hlt : right.values.length < left.values.length) (hfst : pairs.map Prod.fst = right.values)
    (hsnd : ∀ p ∈ pairs, p.2 ∈ left.values)
    (hvalues : (result.values : Multiset ℤ) = pairs.map fun p => f p.2 p.1) :
    CombinesShorter f left right result := by
  refine ⟨?_, pairs.map Prod.swap, ?_, ?_, ?_⟩
  · rw [min_eq_right hlt.le]
    exact length_eq_of_pairs hfst hvalues
  · rw [hvalues, Multiset.map_map]
    rfl
  · intro p hp
    obtain ⟨q, hq, rfl⟩ := Multiset.mem_map.mp hp
    refine ⟨hsnd q hq, ?_⟩
    rw [← Multiset.mem_coe, ← hfst]
    exact Multiset.mem_map_of_mem Prod.fst hq
  · rw [if_neg hlt.not_ge, Multiset.map_map]
    exact hfst

theorem int64Mul_int64Sub (x y z : ℤ) :
    int64Mul x (int64Sub y z) = Int.bmod (x * (y - z)) (2 ^ 64) := by
  rw [int64Mul, int64Sub]
  exact Int.mul_bmod_bmod

/-- The values 2 and 3. -/
def twoValues : Distribution where
  allocation := { sortedValues := fun i => [2, 3].getD i 0, counts := fun i => i + 1 }
  numBins := 2
  capacity := 2

theorem twoValues_built : twoValues.Built where
  nonempty := by decide
  increasing := strictMonoOn_Iio_iff.mpr (by decide)
  ranks := strictMonoOn_Iio_iff.mpr (by decide)
  positive := by decide
  fits := by decide
  room := by decide

/-- `distribution_sub` subtracts samples of the longer distribution and every value of the shorter
one, the right way around. -/
theorem distributionSub_combinesShorter (b : Build) {minuend subtrahend : Distribution}
    (hempty : builder.numBins = 0) (hroom : 0 < builder.capacity) (hminuend : minuend.Built)
    (hsubtrahend : subtrahend.Built)
    (hfits : ∀ x ∈ minuend.values, ∀ y ∈ subtrahend.values, -2 ^ 63 ≤ x - y ∧ x - y < 2 ^ 63)
    (draws : ℕ → ℕ) (memory : ℕ → Allocation) :
    ∃ result, distributionSub b builder minuend subtrahend draws memory = some result ∧
      result.Built ∧ CombinesShorter (fun x y => x - y) minuend subtrahend result := by
  rw [distributionSub, if_neg (not_not.mpr hempty), hminuend.distributionLen_eq b,
    hsubtrahend.distributionLen_eq b]
  simp only [Option.bind_eq_bind, Option.bind_some]
  by_cases hle : minuend.values.length ≤ subtrahend.values.length
  · have hcombine : ∀ x ∈ minuend.values, ∀ y ∈ subtrahend.values,
        some (int64Mul 1 (int64Sub x y)) = some (x - y) := by
      intro x hx y hy
      have hxy := hfits x hx y hy
      rw [int64Mul_int64Sub, one_mul, Int.bmod_eq_of_le (by omega) (by omega)]
    obtain ⟨result, hresult, hbuilt, pairs, hfst, hsnd, hvalues⟩ :=
      buildSamples_spec b hempty hroom hminuend hsubtrahend hcombine draws memory
    rw [if_pos hle]
    exact ⟨result, hresult, hbuilt, .of_left hle hfst hsnd hvalues⟩
  · have hcombine : ∀ y ∈ subtrahend.values, ∀ x ∈ minuend.values,
        some (int64Mul (-1) (int64Sub y x)) = some (x - y) := by
      intro y hy x hx
      have hxy := hfits x hx y hy
      rw [int64Mul_int64Sub, neg_one_mul, neg_sub, Int.bmod_eq_of_le (by omega) (by omega)]
    obtain ⟨result, hresult, hbuilt, pairs, hfst, hsnd, hvalues⟩ :=
      buildSamples_spec b hempty hroom hsubtrahend hminuend hcombine draws memory
    rw [if_neg hle]
    exact ⟨result, hresult, hbuilt, .of_right (not_le.mp hle) hfst hsnd hvalues⟩

/-- Seven values minus samples of two. -/
theorem distributionSub_combinesShorter_threeRuns :
    ∃ result, distributionSub ⟨true⟩ smallBuilder threeRuns twoValues (fun i => i) (fun _ => .zero)
        = some result ∧
      result.Built ∧ CombinesShorter (fun x y => x - y) threeRuns twoValues result :=
  distributionSub_combinesShorter ⟨true⟩ rfl (by decide) threeRuns_built twoValues_built
    (by decide) (fun i => i) fun _ => .zero

/-! ## Ratios -/

/-- `distribution_scaled_div` divides every value of the numerator by samples of the denominator. -/
theorem distributionScaledDiv_spec (b : Build) {num denom : Distribution} (factor : ℤ)
    (hempty : builder.numBins = 0) (hroom : 0 < builder.capacity) (hnum : num.Built)
    (hdenom : denom.Built) (hnonzero : ∀ d ∈ denom.values, d ≠ 0)
    (hproduct : ∀ n ∈ num.values, -2 ^ 63 ≤ n * factor ∧ n * factor < 2 ^ 63)
    (hquotient : ∀ n ∈ num.values, ∀ d ∈ denom.values,
      -2 ^ 63 ≤ (n * factor).tdiv d ∧ (n * factor).tdiv d < 2 ^ 63)
    (draws : ℕ → ℕ) (memory : ℕ → Allocation) :
    ∃ result, distributionScaledDiv b builder num factor denom draws memory = some result ∧
      result.Built ∧ ∃ pairs : Multiset (ℤ × ℤ), pairs.map Prod.fst = num.values ∧
        (∀ p ∈ pairs, p.2 ∈ denom.values) ∧
        (result.values : Multiset ℤ) = pairs.map fun p => (p.1 * factor).tdiv p.2 := by
  have hcombine : ∀ n ∈ num.values, ∀ d ∈ denom.values,
      int64Div (int64Mul n factor) d = some ((n * factor).tdiv d) := by
    intro n hn d hd
    obtain ⟨hlow, hhigh⟩ := hproduct n hn
    have hbounds := hquotient n hn d hd
    rw [int64Mul_eq hlow hhigh, int64Div, if_neg (hnonzero d hd),
      Int.bmod_eq_of_le (by omega) (by omega)]
  rw [distributionScaledDiv, if_neg (not_not.mpr hempty), hnum.distributionLen_eq b]
  simp only [Option.bind_eq_bind, Option.bind_some, le_refl, if_true]
  exact buildSamples_spec b hempty hroom hnum hdenom hcombine draws memory

/-- It goes through the values of the shorter distribution exactly when that is the numerator. -/
theorem distributionScaledDiv_combinesShorter_iff (b : Build) {num denom : Distribution}
    {factor : ℤ} (hempty : builder.numBins = 0) (hroom : 0 < builder.capacity) (hnum : num.Built)
    (hdenom : denom.Built) (hnonzero : ∀ d ∈ denom.values, d ≠ 0)
    (hproduct : ∀ n ∈ num.values, -2 ^ 63 ≤ n * factor ∧ n * factor < 2 ^ 63)
    (hquotient : ∀ n ∈ num.values, ∀ d ∈ denom.values,
      -2 ^ 63 ≤ (n * factor).tdiv d ∧ (n * factor).tdiv d < 2 ^ 63)
    (draws : ℕ → ℕ) (memory : ℕ → Allocation) :
    (∃ result, distributionScaledDiv b builder num factor denom draws memory = some result ∧
        result.Built ∧ CombinesShorter (fun n d => (n * factor).tdiv d) num denom result) ↔
      num.values.length ≤ denom.values.length := by
  obtain ⟨result, hresult, hbuilt, pairs, hfst, hsnd, hvalues⟩ :=
    distributionScaledDiv_spec b factor hempty hroom hnum hdenom hnonzero hproduct hquotient
      draws memory
  constructor
  · rintro ⟨result', hresult', -, hlength, -⟩
    obtain rfl := Option.some.inj (hresult.symm.trans hresult')
    -- as many values as the numerator has
    rw [length_eq_of_pairs hfst hvalues] at hlength
    exact min_eq_left_iff.mp hlength.symm
  · intro hle
    exact ⟨result, hresult, hbuilt, .of_left hle hfst hsnd hvalues⟩

/-- Seven values are divided by samples of two, which makes seven ratios. -/
theorem threeRuns_overTwoValues :
    ¬ ∃ result,
      distributionScaledDiv ⟨true⟩ smallBuilder threeRuns 1 twoValues (fun i => i) (fun _ => .zero)
        = some result ∧ result.Built ∧
      CombinesShorter (fun n d => (n * 1).tdiv d) threeRuns twoValues result := by
  rintro ⟨result, hresult, -, hlength, -⟩
  obtain ⟨result', hresult', -, pairs, hfst, -, hvalues⟩ :=
    distributionScaledDiv_spec ⟨true⟩ 1 (show smallBuilder.numBins = 0 from rfl) (by decide)
      threeRuns_built twoValues_built (by decide) (by decide) (by decide) (fun i => i)
      fun _ => .zero
  obtain rfl := Option.some.inj (hresult.symm.trans hresult')
  rw [length_eq_of_pairs hfst hvalues] at hlength
  exact absurd hlength (by decide)

theorem distributionScaledDiv_combinesShorter_iff_twoValues :
    ∃ result,
      distributionScaledDiv ⟨true⟩ smallBuilder twoValues 6 threeRuns (fun i => i) (fun _ => .zero)
        = some result ∧ result.Built ∧
      CombinesShorter (fun n d => (n * 6).tdiv d) twoValues threeRuns result := by
  rw [distributionScaledDiv_combinesShorter_iff ⟨true⟩ rfl (by decide) twoValues_built
    threeRuns_built (by decide) (by decide) (by decide)]
  decide

end Udipe

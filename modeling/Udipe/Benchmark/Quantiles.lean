import Udipe.Benchmark.Doubles
import Udipe.Benchmark.Scaling
import Udipe.Lib.OrderStatistics
import Udipe.Lib.RelativeError

/-!
# Quantiles of a built distribution

Reference: `benchmark/distribution.h`.

`distribution_quantile` multiplies the probability with the number of values as a `double`. The
result is a value whatever the roundings, unless they lead past the last value.
-/

namespace Udipe

open FloatFormat

/-- `distribution_quantile`. -/
def distributionQuantile (b : Build) (dist : Distribution) (probability : Double) : Option ℤ := do
  b.assert ((Double.finite 0).le probability && probability.le (.finite 1))
  let len ← distributionLen b dist
  let minValuesBelow ← (probability.mul (.ofSize len)).ceilSize
  let rank := if minValuesBelow = 0 then 0 else minValuesBelow - 1
  distributionNth b dist rank

variable {dist : Distribution} {p q x : ℚ} {n : ℕ}

/-! ## Sizes as numbers -/

theorem Double.ofSize_eq (hn : n < 2 ^ 64) : Double.ofSize n = .finite (binary64.round n) := by
  have h := Double.ofU64_eq (BitVec.ofNat 64 n)
  rwa [Double.ofU64, BitVec.toNat_ofNat, Nat.mod_eq_of_lt hn] at h

/-- Sizes up to `2 ^ 53` are exact. -/
theorem round_natCast (hn : n ≤ 2 ^ 53) : binary64.round n = n := by
  have hrep : binary64.Representable (n * 2 ^ (0 : ℤ)) :=
    representable_natCast_mul_zpow hn (by decide)
  rw [zpow_zero, mul_one] at hrep
  exact round_of_representable hrep

theorem relApprox_round_natCast (n : ℕ) : RelApprox (2 ^ (-53 : ℤ)) (binary64.round n) n := by
  refine relApprox_round ?_
  rcases Nat.eq_zero_or_pos n with rfl | hpos
  · exact .inl Nat.cast_zero
  · refine .inr ?_
    rw [abs_of_nonneg (Nat.cast_nonneg n)]
    calc (2 : ℚ) ^ (binary64.emin + binary64.prec - 1)
        ≤ 2 ^ (0 : ℤ) := zpow_le_zpow_right₀ one_le_two (by decide)
      _ ≤ n := by
        rw [zpow_zero]
        exact_mod_cast hpos

/-! ## The rank -/

/-- How many values, at least, are up to the quantile. -/
def quantileCount (p : ℚ) (n : ℕ) : ℚ := binary64.round (p * binary64.round n)

theorem quantileCount_nonneg (hp : 0 ≤ p) : 0 ≤ quantileCount p n :=
  round_nonneg (mul_nonneg hp (round_nonneg (Nat.cast_nonneg n)))

theorem quantileCount_mono (hpq : p ≤ q) : quantileCount p n ≤ quantileCount q n :=
  round_mono (mul_le_mul_of_nonneg_right hpq (round_nonneg (Nat.cast_nonneg n)))

/-- All the values of a distribution of less than `2 ^ 53` values are enough. -/
theorem quantileCount_le_of_small (hp : p ≤ 1) (hn : n ≤ 2 ^ 53) : quantileCount p n ≤ n := by
  have hexact := round_natCast hn
  rw [quantileCount, hexact]
  have hrep : binary64.Representable n := hexact ▸ representable_round _
  exact hrep.round_le (mul_le_of_le_one_left (Nat.cast_nonneg n) hp)

/-- They are enough for every distribution when the probability is not next to 1. -/
theorem quantileCount_le_of_lt_one (hp0 : 0 ≤ p) (hp : p ≤ 63 / 64) : quantileCount p n ≤ n := by
  rcases Nat.lt_or_ge (2 ^ 53) n with hbig | hsmall
  swap
  · exact quantileCount_le_of_small (by linarith) hsmall
  have hn : (2 : ℚ) ^ (53 : ℤ) ≤ n := by exact_mod_cast hbig.le
  have hround0 : 0 ≤ binary64.round n := round_nonneg (Nat.cast_nonneg n)
  rcases le_or_gt (p * binary64.round n) (2 ^ (53 : ℤ)) with hle | hgt
  · exact ((representable_zpow (by decide)).round_le hle).trans hn
  · have hlen := (relApprox_round_natCast n).abs_le
    have hnormal : (2 : ℚ) ^ (binary64.emin + binary64.prec - 1) ≤ |p * binary64.round n| := by
      rw [abs_of_nonneg (mul_nonneg hp0 hround0)]
      exact (zpow_le_zpow_right₀ one_le_two (by decide)).trans hgt.le
    have herr : |quantileCount p n| ≤ (1 + 2 ^ (-53 : ℤ)) * |p * binary64.round n| :=
      (relApprox_round (.inr hnormal)).abs_le
    rw [abs_of_nonneg hround0, abs_of_nonneg (Nat.cast_nonneg n)] at hlen
    rw [abs_of_nonneg (mul_nonneg hp0 hround0), abs_of_nonneg (quantileCount_nonneg hp0)] at herr
    calc quantileCount p n
        ≤ (1 + 2 ^ (-53 : ℤ)) * (p * binary64.round n) := herr
      _ ≤ (1 + 2 ^ (-53 : ℤ)) * (63 / 64 * ((1 + 2 ^ (-53 : ℤ)) * n)) :=
          mul_le_mul_of_nonneg_left (mul_le_mul hp hlen hround0 (by norm_num)) (by positivity)
      _ = (1 + 2 ^ (-53 : ℤ)) * (63 / 64) * (1 + 2 ^ (-53 : ℤ)) * n := by ring
      _ ≤ n := mul_le_of_le_one_left (Nat.cast_nonneg n) (by norm_num)

/-- The product of a probability and a size. -/
theorem Double.mul_ofSize (hp0 : 0 ≤ p) (hp1 : p ≤ 1) (hn : n < 2 ^ 64) :
    (Double.finite p).mul (.ofSize n) = .finite (quantileCount p n) := by
  have hround0 : 0 ≤ binary64.round n := round_nonneg (Nat.cast_nonneg n)
  have hsize : (n : ℚ) ≤ 2 ^ (64 : ℤ) := by exact_mod_cast hn.le
  have hround : binary64.round n ≤ 2 ^ (64 : ℤ) := (representable_zpow (by decide)).round_le hsize
  rw [Double.ofSize_eq hn]
  refine (Double.isFinite_zpow (k := 64) (by decide) (by decide)).ofExact_of_le ?_
  rw [abs_of_nonneg (mul_nonneg hp0 hround0)]
  exact (mul_le_of_le_one_left hround0 hp1).trans hround

/-- The rank that `distribution_quantile` looks up, when the count does not exceed the length. -/
theorem distributionQuantile_eq (b : Build) (h : dist.Built) (hp0 : 0 ≤ p) (hp1 : p ≤ 1) :
    distributionQuantile b dist (.finite p)
      = (Double.toSize ⌈quantileCount p dist.values.length⌉).bind fun count =>
        distributionNth b dist (count - 1) := by
  have hassert : ((Double.finite 0).le (.finite p) && (Double.finite p).le (.finite 1)) = true := by
    simp only [Double.le, Bool.and_eq_true, decide_eq_true_eq]
    exact ⟨hp0, hp1⟩
  rw [distributionQuantile, hassert, h.distributionLen_eq b]
  simp only [b.assert_true, Option.bind_eq_bind, Option.bind_some,
    Double.mul_ofSize hp0 hp1 h.length_values_lt, Double.ceilSize]
  congr 1
  funext count
  split_ifs with hzero
  · rw [hzero]
  · rfl

/-! ## The quantile -/

/-- What `distribution_quantile` answers: the least value up to which there are enough values. -/
def IsQuantile (dist : Distribution) (p : ℚ) (v : ℤ) : Prop :=
  IsLeast {y | y ∈ dist.values ∧
    quantileCount p dist.values.length ≤ dist.values.countP fun x => decide (x ≤ y)} v

theorem IsQuantile.mono {v w : ℤ} (hv : IsQuantile dist p v) (hw : IsQuantile dist q w)
    (hpq : p ≤ q) : v ≤ w :=
  hv.2 ⟨hw.1.1, (quantileCount_mono hpq).trans hw.1.2⟩

theorem distributionQuantile_isQuantile (b : Build) (h : dist.Built) (hp0 : 0 ≤ p) (hp1 : p ≤ 1)
    (hfits : quantileCount p dist.values.length ≤ dist.values.length) :
    ∃ v, distributionQuantile b dist (.finite p) = some v ∧ IsQuantile dist p v := by
  have hlength := h.length_values_pos
  have hceil0 : 0 ≤ ⌈quantileCount p dist.values.length⌉ :=
    Int.ceil_nonneg (quantileCount_nonneg hp0)
  obtain ⟨count, hcount⟩ := Int.eq_ofNat_of_zero_le hceil0
  have hle : count ≤ dist.values.length := by
    have := Int.ceil_le.mpr (show quantileCount p dist.values.length
      ≤ ((dist.values.length : ℤ) : ℚ) from hfits)
    omega
  have hrank : count - 1 < dist.values.length := by omega
  have hlt := h.length_values_lt
  refine ⟨dist.values[count - 1], ?_, ?_⟩
  · rw [distributionQuantile_eq b h hp0 hp1, hcount, Double.toSize, if_pos (by omega),
      Option.bind_some, Int.toNat_natCast, h.distributionNth_eq b hrank,
      List.getElem?_eq_getElem hrank]
  · -- more than `count - 1` values are enough, and so are all the values up to one of them
    have hset : ∀ y ∈ dist.values,
        (quantileCount p dist.values.length ≤ dist.values.countP (fun x => decide (x ≤ y)) ↔
          count - 1 < dist.values.countP fun x => decide (x ≤ y)) := by
      intro y hy
      have hpos : 0 < dist.values.countP fun x => decide (x ≤ y) :=
        List.countP_pos_iff.mpr ⟨y, hy, decide_eq_true le_rfl⟩
      have hiff : quantileCount p dist.values.length
          ≤ ((dist.values.countP fun x => decide (x ≤ y) : ℕ) : ℚ) ↔
          ⌈quantileCount p dist.values.length⌉
            ≤ ((dist.values.countP fun x => decide (x ≤ y) : ℕ) : ℤ) := by
        rw [Int.ceil_le, Int.cast_natCast]
      rw [hiff, hcount]
      omega
    have hleast := isLeast_getElem h.values_sorted hrank
    refine ⟨⟨List.getElem_mem hrank, (hset _ (List.getElem_mem hrank)).mpr hleast.1.2⟩, ?_⟩
    rintro y ⟨hy, hcounty⟩
    exact hleast.2 ⟨hy, (hset y hy).mp hcounty⟩

/-- With assertions, the lookup of a rank past the last value ends the process. -/
theorem distributionQuantile_eq_none (h : dist.Built) (hp0 : 0 ≤ p) (hp1 : p ≤ 1)
    (hexceeds : dist.values.length < quantileCount p dist.values.length) :
    distributionQuantile ⟨true⟩ dist (.finite p) = none := by
  rw [distributionQuantile_eq ⟨true⟩ h hp0 hp1]
  have hceil : (dist.values.length : ℤ) < ⌈quantileCount p dist.values.length⌉ := by
    rw [Int.lt_ceil, Int.cast_natCast]
    exact hexceeds
  rw [Double.toSize]
  split_ifs with hrange
  · have hfail : (⟨true⟩ : Build).assert
        (decide (⌈quantileCount p dist.values.length⌉.toNat - 1 < dist.values.length)) = none := by
      rw [decide_eq_false (by omega)]
      rfl
    rw [Option.bind_some, distributionNth,
      Build.assert_decide _ (show 1 ≤ dist.numBins from h.nonempty), distributionBinByRank,
      h.distributionLen_eq ⟨true⟩]
    simp only [Option.bind_eq_bind, Option.bind_some, hfail, Option.bind_none]
  · rfl

/-! ## Both ends -/

theorem IsQuantile.eq_min (h : dist.Built) {v : ℤ} (hv : IsQuantile dist 0 v) :
    v = dist.sortedValues 0 := by
  have hcount : quantileCount 0 dist.values.length = 0 := by
    rw [quantileCount, zero_mul, round_zero]
  have hfirst : dist.sortedValues 0 ∈ dist.values := h.mem_values.mpr ⟨0, h.nonempty, rfl⟩
  refine le_antisymm (hv.2 ⟨hfirst, hcount.trans_le (Nat.cast_nonneg _)⟩) ?_
  obtain ⟨i, hi, hvalue⟩ := h.mem_values.mp hv.1.1
  rw [← hvalue]
  exact h.increasing.entry_le (Nat.zero_le i) hi

theorem IsQuantile.eq_max (h : dist.Built) (hsmall : dist.values.length ≤ 2 ^ 53) {v : ℤ}
    (hv : IsQuantile dist 1 v) : v = dist.sortedValues (dist.numBins - 1) := by
  have hcount : quantileCount 1 dist.values.length = dist.values.length := by
    rw [quantileCount, one_mul, round_natCast hsmall, round_natCast hsmall]
  have hnonempty := h.nonempty
  obtain ⟨i, hi, hvalue⟩ := h.mem_values.mp hv.1.1
  have hlast : dist.sortedValues (dist.numBins - 1) ∈ dist.values :=
    h.mem_values.mpr ⟨_, by omega, rfl⟩
  refine le_antisymm ?_ ?_
  · rw [← hvalue]
    exact h.increasing.entry_le (by omega) (by omega)
  · -- all the values are up to `v`
    have hall := hv.1.2
    rw [hcount, Nat.cast_le] at hall
    have hevery := List.countP_eq_length.mp (le_antisymm List.countP_le_length hall)
    exact of_decide_eq_true (hevery _ hlast)

/-- `distribution_quantile` is the quantile function: for every probability it answers the least
value up to which there are `RN(p · RN(len))` values, and none of its assertions fails, unless the
roundings exceed the number of values. Its answers increase with the probability, from the smallest
value to the largest one. -/
theorem distributionQuantile_spec (b : Build) (h : dist.Built) :
    (∀ p, 0 ≤ p → p ≤ 1 → quantileCount p dist.values.length ≤ dist.values.length →
      ∃ v, distributionQuantile b dist (.finite p) = some v ∧ IsQuantile dist p v) ∧
    (∀ p, 0 ≤ p → p ≤ 1 → dist.values.length < quantileCount p dist.values.length →
      distributionQuantile ⟨true⟩ dist (.finite p) = none) ∧
    (∀ p q v w, 0 ≤ p → p ≤ q → q ≤ 1 → quantileCount q dist.values.length ≤ dist.values.length →
      distributionQuantile b dist (.finite p) = some v →
      distributionQuantile b dist (.finite q) = some w → v ≤ w) ∧
    distributionQuantile b dist (.finite 0) = some (dist.sortedValues 0) ∧
    (dist.values.length ≤ 2 ^ 53 →
      distributionQuantile b dist (.finite 1) = some (dist.sortedValues (dist.numBins - 1))) := by
  have hanswer : ∀ p, 0 ≤ p → p ≤ 1 → quantileCount p dist.values.length ≤ dist.values.length →
      ∃ v, distributionQuantile b dist (.finite p) = some v ∧ IsQuantile dist p v :=
    fun p hp0 hp1 hfits => distributionQuantile_isQuantile b h hp0 hp1 hfits
  refine ⟨hanswer, fun p hp0 hp1 => distributionQuantile_eq_none h hp0 hp1, ?_, ?_, ?_⟩
  · intro p q v w hp0 hpq hq1 hfits hv hw
    obtain ⟨v', hv', hpv⟩ := hanswer p hp0 (hpq.trans hq1) ((quantileCount_mono hpq).trans hfits)
    obtain ⟨w', hw', hqw⟩ := hanswer q (hp0.trans hpq) hq1 hfits
    obtain rfl := Option.some.inj (hv'.symm.trans hv)
    obtain rfl := Option.some.inj (hw'.symm.trans hw)
    exact hpv.mono hqw hpq
  · obtain ⟨v, hv, hquantile⟩ := hanswer 0 le_rfl zero_le_one
      (quantileCount_le_of_lt_one le_rfl (by norm_num))
    rw [hv, hquantile.eq_min h]
  · intro hsmall
    obtain ⟨v, hv, hquantile⟩ := hanswer 1 zero_le_one le_rfl (quantileCount_le_of_small le_rfl hsmall)
    rw [hv, hquantile.eq_max h hsmall]

/-- The median of seven values is the fourth one. -/
theorem distributionQuantile_spec_threeRuns : IsQuantile threeRuns (1 / 2) 10 := by
  obtain ⟨v, hv, hquantile⟩ := (distributionQuantile_spec ⟨true⟩ threeRuns_built).1 (1 / 2)
    (by norm_num) (by norm_num) (quantileCount_le_of_small (by norm_num) (by decide))
  have hten : distributionQuantile ⟨true⟩ threeRuns (.finite (1 / 2)) = some 10 := by decide +kernel
  obtain rfl := Option.some.inj (hv.symm.trans hten)
  exact hquantile

end Udipe

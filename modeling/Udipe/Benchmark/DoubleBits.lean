import Udipe.Benchmark.SumRounding

/-!
# The bit pattern of a `double`

Reference: `benchmark/numeric.h`.

What `bitcast_f64_to_u64` answers, and that the decoding of the accumulator inverts it.
-/

namespace Udipe

open FloatFormat

namespace Double

/-- The sign bit. -/
def signBits (negative : Bool) : ℕ := if negative then 2 ^ 63 else 0

/-- The exponent field and the fraction field of a magnitude. The implicit bit of a normal number
adds one to the exponent field. -/
def magnitudeBits (x : ℚ) : ℕ :=
  if x = 0 then 0
  else
    let exponent := binary64.ulpExponent x
    (exponent - binary64.emin).toNat * 2 ^ 52 + ⌊|x| / 2 ^ exponent⌋.toNat

/-- `bitcast_f64_to_u64`. -/
def bits : Double → BitVec 64
  | .finite x => BitVec.ofNat 64 (signBits (decide (x < 0)) + magnitudeBits x)
  | .infinite negative => BitVec.ofNat 64 (signBits negative + 2047 * 2 ^ 52)
  | .nan => BitVec.ofNat 64 (2047 * 2 ^ 52 + 2 ^ 51)

variable {x : ℚ}

/-- The fields of a number that is not zero: an exponent `k` above that of the last bit and a
significand, whose top bit is set unless the exponent is the smallest one. -/
theorem IsFinite.exists_fields (h : IsFinite x) (hx : x ≠ 0) :
    ∃ k m : ℕ, magnitudeBits x = k * 2 ^ 52 + m ∧ |x| = m * 2 ^ (k + binary64.emin) ∧ k < 2046 ∧
      m < 2 ^ 53 ∧ (0 < k → 2 ^ 52 ≤ m) := by
  obtain ⟨k, hk⟩ := Int.eq_ofNat_of_zero_le
    (sub_nonneg.mpr (emin_le_ulpExponent (F := binary64) x))
  have hexponent : binary64.ulpExponent x = k + binary64.emin := by omega
  -- the significand is an integer
  obtain ⟨n, hn⟩ : ∃ n : ℤ, x = n * 2 ^ (k + binary64.emin) := by
    rw [← hexponent]
    refine ⟨roundHalfEven (x / binary64.ulp x), ?_⟩
    exact (round_of_representable h.1).symm
  have hpow : (0 : ℚ) < 2 ^ (k + binary64.emin) := zpow_pos two_pos _
  have habs : |x| = (n.natAbs : ℚ) * 2 ^ (k + binary64.emin) := by
    rw [hn, abs_mul, abs_of_pos hpow, Nat.cast_natAbs, Int.cast_abs]
  have hlt := abs_lt_zpow_ulpExponent (F := binary64) x
  rw [hexponent, habs, zpow_add₀ two_ne_zero _ (binary64.prec : ℤ), mul_comm,
    mul_lt_mul_iff_right₀ hpow, zpow_natCast] at hlt
  refine ⟨k, n.natAbs, ?_, habs, ?_, by exact_mod_cast hlt, fun hkpos => ?_⟩
  · rw [magnitudeBits, if_neg hx]
    simp only
    rw [hk, hexponent, habs, mul_div_cancel_right₀ _ hpow.ne', Int.floor_natCast]
    rfl
  · by_contra hbig
    have hle : (2 : ℚ) ^ (1024 : ℕ) ≤ |x| := by
      have hnormal := zpow_le_abs_of_emin_lt hx
        (show binary64.emin < binary64.ulpExponent x by omega)
      refine le_trans ?_ hnormal
      rw [hexponent, ← zpow_natCast]
      exact zpow_le_zpow_right₀ one_le_two (by simp only [binary64]; omega)
    exact absurd h.2 (not_lt.mpr hle)
  · have hnormal := zpow_le_abs_of_emin_lt hx
      (show binary64.emin < binary64.ulpExponent x by omega)
    have hsplit : (k : ℤ) + binary64.emin + binary64.prec - 1 = 52 + (k + binary64.emin) := by
      simp only [binary64]
      omega
    rw [hexponent, habs, hsplit, zpow_add₀ two_ne_zero, mul_le_mul_iff_left₀ hpow] at hnormal
    exact_mod_cast hnormal

/-- The fields of the bit pattern. -/
theorem magnitude_ofNat_fields {k m : ℕ} (hk : k < 2046) (hm : m < 2 ^ 53) (htop : 0 < k → 2 ^ 52 ≤ m)
    (negative : Bool) :
    Binary64.Finite (BitVec.ofNat 64 (signBits negative + (k * 2 ^ 52 + m))) ∧
      Binary64.magnitude (BitVec.ofNat 64 (signBits negative + (k * 2 ^ 52 + m))) = m * 2 ^ k ∧
      (BitVec.ofNat 64 (signBits negative + (k * 2 ^ 52 + m))).msb = negative := by
  have hsign : signBits negative = negative.toNat * 2 ^ 63 := by cases negative <;> rfl
  have hbit := negative.toNat_lt
  have hnat : (BitVec.ofNat 64 (signBits negative + (k * 2 ^ 52 + m))).toNat
      = negative.toNat * 2 ^ 63 + (k * 2 ^ 52 + m) := by
    rw [BitVec.toNat_ofNat, hsign]
    exact Nat.mod_eq_of_lt (by omega)
  have hmsb : (BitVec.ofNat 64 (signBits negative + (k * 2 ^ 52 + m))).msb = negative := by
    rw [BitVec.msb_eq_decide, hnat]
    cases negative <;> simp only [Bool.toNat_true, Bool.toNat_false, decide_eq_true_eq,
      decide_eq_false_iff_not] <;> omega
  refine ⟨?_, ?_, hmsb⟩
  · rw [Binary64.Finite, Binary64.biasedExponent, hnat]
    omega
  · rw [Binary64.magnitude, Binary64.biasedExponent, Binary64.fraction, hnat]
    rcases Nat.lt_or_ge m (2 ^ 52) with hsubnormal | hnormal
    · obtain rfl : k = 0 := by
        by_contra hpos
        exact absurd (htop (Nat.pos_of_ne_zero hpos)) (Nat.not_le.mpr hsubnormal)
      rw [if_pos (by omega), pow_zero, mul_one]
      omega
    · have hexp : (negative.toNat * 2 ^ 63 + (k * 2 ^ 52 + m)) / 2 ^ 52 % 2 ^ 11 = k + 1 := by omega
      have hfraction : (negative.toNat * 2 ^ 63 + (k * 2 ^ 52 + m)) % 2 ^ 52 = m - 2 ^ 52 := by
        omega
      rw [hexp, if_neg (Nat.succ_ne_zero k), hfraction, Nat.add_sub_cancel' hnormal,
        Nat.add_sub_cancel]

/-- The accumulator decodes the bit pattern of a number to the number. -/
theorem IsFinite.bits_spec (h : IsFinite x) :
    Binary64.Finite (bits (.finite x)) ∧ Binary64.value (bits (.finite x)) = x := by
  rcases eq_or_ne x 0 with rfl | hx
  · have hzero : bits (.finite 0) = 0#64 := by simp [bits, magnitudeBits, signBits]
    rw [hzero, Binary64.value]
    have hunits : Binary64.units 0#64 = 0 := by decide
    rw [hunits]
    exact ⟨by decide, by simp⟩
  · obtain ⟨k, m, hbits, habs, hk, hm, htop⟩ := h.exists_fields hx
    obtain ⟨hfinite, hmagnitude, hmsb⟩ := magnitude_ofNat_fields hk hm htop (decide (x < 0))
    have hvalue : (m * 2 ^ k : ℚ) * 2 ^ accumulatorExponent = |x| := by
      have hexponent : accumulatorExponent = binary64.emin := by decide
      rw [habs, zpow_add₀ two_ne_zero, hexponent, zpow_natCast, mul_assoc]
    rw [bits, hbits, Binary64.value, Binary64.units, hmagnitude, hmsb]
    refine ⟨hfinite, ?_⟩
    rcases hx.lt_or_gt with hneg | hpos
    · rw [decide_eq_true hneg, signedMagnitude, if_pos rfl]
      push_cast
      rw [neg_mul, hvalue, abs_of_neg hneg, neg_neg]
    · rw [decide_eq_false (not_lt.mpr hpos.le), signedMagnitude, if_neg Bool.false_ne_true]
      push_cast
      rw [hvalue, abs_of_pos hpos]

end Double

end Udipe

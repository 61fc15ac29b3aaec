import Udipe.Lib.FloatFormat
import Mathlib.Algebra.Order.BigOperators.Group.Finset
import Mathlib.Algebra.BigOperators.Ring.Finset

/-!
# Relative errors

How the relative errors of rounded operations add up along a computation.
-/

/-- `r` differs from `x` by at most the fraction `ε` of `x`. -/
def RelApprox (ε r x : ℚ) : Prop := |r - x| ≤ ε * |x|

namespace RelApprox

variable {δ ε a b r x y : ℚ}

theorem refl (x : ℚ) : RelApprox 0 x x := by simp [RelApprox]

theorem mono (h : RelApprox δ r x) (hle : δ ≤ ε) : RelApprox ε r x :=
  le_trans h (mul_le_mul_of_nonneg_right hle (abs_nonneg x))

theorem abs_le (h : RelApprox ε r x) : |r| ≤ (1 + ε) * |x| := by
  have htri := abs_add_le (r - x) x
  rw [sub_add_cancel] at htri
  rw [RelApprox] at h
  linarith

theorem le_abs (h : RelApprox ε r x) : (1 - ε) * |x| ≤ |r| := by
  have htri := abs_sub_abs_le_abs_sub x r
  rw [abs_sub_comm] at htri
  rw [RelApprox] at h
  linarith

/-- An approximation of an approximation. -/
theorem trans (hε : 0 ≤ ε) (h : RelApprox ε r a) (h' : RelApprox δ a x) :
    RelApprox (δ + ε + δ * ε) r x := by
  have htri := abs_sub_le r a x
  have hstep : ε * |a| ≤ ε * ((1 + δ) * |x|) := mul_le_mul_of_nonneg_left h'.abs_le hε
  rw [RelApprox] at h h' ⊢
  linarith

theorem mul (h : RelApprox δ a x) (h' : RelApprox ε b y) :
    RelApprox (δ + ε + δ * ε) (a * b) (x * y) := by
  have hsplit : a * b - x * y = (a - x) * y + x * (b - y) + (a - x) * (b - y) := by ring
  have hδ : |(a - x) * y| ≤ δ * |x * y| := by
    rw [abs_mul, abs_mul, ← mul_assoc]
    exact mul_le_mul_of_nonneg_right h (abs_nonneg y)
  have hε : |x * (b - y)| ≤ ε * |x * y| := by
    rw [abs_mul, abs_mul, mul_left_comm]
    exact mul_le_mul_of_nonneg_left h' (abs_nonneg x)
  have hδε : |(a - x) * (b - y)| ≤ δ * ε * |x * y| := by
    rw [abs_mul, abs_mul, mul_mul_mul_comm]
    exact mul_le_mul h h' (abs_nonneg _) ((abs_nonneg _).trans h)
  rw [RelApprox, hsplit]
  calc |(a - x) * y + x * (b - y) + (a - x) * (b - y)|
      ≤ |(a - x) * y| + |x * (b - y)| + |(a - x) * (b - y)| := abs_add_three _ _ _
    _ ≤ (δ + ε + δ * ε) * |x * y| := by linarith

theorem inv (hx : x ≠ 0) (hδ : δ < 1) (h : RelApprox δ a x) :
    RelApprox (δ / (1 - δ)) a⁻¹ x⁻¹ := by
  have hxpos := abs_pos.mpr hx
  have hgap : 0 < 1 - δ := sub_pos.mpr hδ
  have hlow := h.le_abs
  have hapos : 0 < |a| := (mul_pos hgap hxpos).trans_le hlow
  have ha : a ≠ 0 := abs_pos.mp hapos
  have hsplit : a⁻¹ - x⁻¹ = (x - a) * x⁻¹ * a⁻¹ := by field_simp
  have hinv : |a|⁻¹ ≤ ((1 - δ) * |x|)⁻¹ := inv_anti₀ (mul_pos hgap hxpos) hlow
  rw [RelApprox] at h
  rw [RelApprox, hsplit, abs_mul, abs_mul, abs_inv, abs_inv, abs_sub_comm]
  calc |a - x| * |x|⁻¹ * |a|⁻¹
      ≤ δ * |x| * |x|⁻¹ * ((1 - δ) * |x|)⁻¹ := by
        have := mul_le_mul_of_nonneg_right h (inv_pos.mpr hxpos).le
        exact mul_le_mul this hinv (inv_pos.mpr hapos).le
          ((mul_nonneg (abs_nonneg _) (inv_pos.mpr hxpos).le).trans this)
    _ = δ / (1 - δ) * |x|⁻¹ := by
        field_simp

theorem sum {ι : Type*} {s : Finset ι} {f g : ι → ℚ} (h : ∀ i ∈ s, RelApprox ε (f i) (g i)) :
    |∑ i ∈ s, f i - ∑ i ∈ s, g i| ≤ ε * ∑ i ∈ s, |g i| := by
  rw [← Finset.sum_sub_distrib, Finset.mul_sum]
  exact (Finset.abs_sum_le_sum_abs _ _).trans (Finset.sum_le_sum h)

end RelApprox

namespace FloatFormat

variable {F : FloatFormat} {δ a x : ℚ}

/-- One rounding, of zero or of a number that is not too small. -/
theorem relApprox_round (h : x = 0 ∨ 2 ^ (F.emin + F.prec - 1) ≤ |x|) :
    RelApprox (2 ^ (-F.prec : ℤ)) (F.round x) x := by
  rcases h with rfl | hx
  · simp [RelApprox]
  · exact abs_round_sub_le_mul hx

/-- One more rounding. -/
theorem relApprox_round_of (hδ : RelApprox δ a x)
    (h : a = 0 ∨ 2 ^ (F.emin + F.prec - 1) ≤ |a|) :
    RelApprox (δ + 2 ^ (-F.prec : ℤ) + δ * 2 ^ (-F.prec : ℤ)) (F.round a) x :=
  (relApprox_round h).trans (zpow_pos two_pos _).le hδ

end FloatFormat

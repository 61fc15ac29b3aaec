import Mathlib.Algebra.Order.Floor.Div
import Mathlib.Data.Nat.Cast.Order.Basic

/-!
# Rounding up to a multiple

`roundUp unit n` is the least multiple of `unit` that is at least `n`, in exact arithmetic. Below a
multiple of the unit, rounding up makes no difference (`roundUp_le_iff`).
-/

/-- The least multiple of `unit` that is at least `n`. -/
def roundUp (unit n : ℕ) : ℕ := unit * (n ⌈/⌉ unit)

variable {unit n m bound : ℕ}

theorem dvd_roundUp (unit n : ℕ) : unit ∣ roundUp unit n := Nat.dvd_mul_right ..

theorem le_roundUp (h : 0 < unit) (n : ℕ) : n ≤ roundUp unit n :=
  (ceilDiv_le_iff_le_mul h).mp le_rfl

theorem roundUp_le_iff (h : 0 < unit) (hbound : unit ∣ bound) : roundUp unit n ≤ bound ↔
    n ≤ bound := by
  obtain ⟨q, rfl⟩ := hbound
  rw [roundUp, Nat.mul_le_mul_left_iff h, ceilDiv_le_iff_le_mul h]

/-- The quotient, and one more when there is a remainder. -/
theorem ceilDiv_eq (h : 0 < unit) (n : ℕ) : n ⌈/⌉ unit
    = n / unit + if n % unit ≠ 0 then 1 else 0 := by
  have hdiv := Nat.div_add_mod n unit
  have hlt := Nat.mod_lt n h
  refine eq_of_forall_ge_iff fun q => ?_
  rw [ceilDiv_le_iff_le_mul h]
  constructor
  · intro hle
    have hquot : n / unit ≤ q := Nat.div_le_of_le_mul hle
    split
    · have hne : n / unit ≠ q := by
        rintro rfl
        omega
      omega
    · exact hquot
  · intro hle
    have hmul := Nat.mul_le_mul_left unit hle
    rw [Nat.mul_add] at hmul
    split at hmul <;> omega

/-- What is added is the rest of the last unit. -/
theorem roundUp_eq (h : 0 < unit) (n : ℕ) :
    roundUp unit n = if n % unit ≠ 0 then n + (unit - n % unit) else n := by
  have hdiv := Nat.div_add_mod n unit
  have hlt := Nat.mod_lt n h
  rw [roundUp, ceilDiv_eq h, Nat.mul_add]
  split <;> omega

theorem roundUp_lt (h : 0 < unit) (n : ℕ) : roundUp unit n < n + unit := by
  have hlt := Nat.mod_lt n h
  rw [roundUp_eq h]
  split <;> omega

/-- How much `m` times the rounded number can be. -/
theorem mul_roundUp_le_iff (h : 0 < unit) (hm : 0 < m) :
    roundUp unit n * m ≤ bound ↔ n ≤ unit * (bound / (m * unit)) := by
  rw [← ceilDiv_le_iff_le_mul h, Nat.le_div_iff_mul_le (Nat.mul_pos hm h), roundUp]
  have hcomm : unit * (n ⌈/⌉ unit) * m = (n ⌈/⌉ unit) * (m * unit) := by
    rw [Nat.mul_comm unit, Nat.mul_assoc, Nat.mul_comm unit]
  rw [hcomm]

/-- Below a multiple of the unit, as long as the last unit is not reached. -/
theorem roundUp_lt_iff (h : 0 < unit) (hdvd : unit ∣ bound) (hbound : 0 < bound) :
    roundUp unit n < bound ↔ n ≤ bound - unit := by
  have hunit := Nat.le_of_dvd hbound hdvd
  rw [← roundUp_le_iff h (Nat.dvd_sub hdvd dvd_rfl)]
  constructor
  · intro hlt
    -- two multiples of the unit differ by one unit at least
    have hgap : unit ≤ bound - roundUp unit n :=
      Nat.le_of_dvd (by omega) (Nat.dvd_sub hdvd (dvd_roundUp unit n))
    omega
  · intro hle
    omega

/-- Rounding up modulo a multiple of the unit yields less than there was exactly when it wraps. -/
theorem le_roundUp_mod_iff (h : 0 < unit) (hdvd : unit ∣ bound) (hn : 0 < n) (hlt : n < bound) :
    n ≤ roundUp unit n % bound ↔ n ≤ bound - unit := by
  rw [← roundUp_lt_iff h hdvd (by omega)]
  have hle := (roundUp_le_iff h hdvd).mpr hlt.le
  rcases hle.lt_or_eq with hless | heq
  · rw [Nat.mod_eq_of_lt hless]
    exact iff_of_true (le_roundUp h n) hless
  · rw [heq, Nat.mod_self]
    exact iff_of_false (by omega) (by omega)

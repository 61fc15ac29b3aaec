import Mathlib.Algebra.BigOperators.Ring.Finset
import Mathlib.Algebra.Order.BigOperators.Ring.Finset
import Mathlib.Tactic.LinearCombination
import Mathlib.Tactic.Ring

/-!
# Positional numbers

`positional base digits n` is the number that the first `n` digits stand for, lowest digit first, and
`IsTopDigit` tracks the highest digit that is not zero.
-/

open Function Finset

variable {base : ℕ} {digits digits' : ℕ → ℕ} {i m n : ℕ}

/-- The number with `digits` in base `base`. -/
def positional (base : ℕ) (digits : ℕ → ℕ) (n : ℕ) : ℕ :=
  ∑ i ∈ range n, digits i * base ^ i

@[simp] theorem positional_zero (base : ℕ) (digits : ℕ → ℕ) : positional base digits 0 = 0 := by
  simp [positional]

theorem positional_succ (base : ℕ) (digits : ℕ → ℕ) (n : ℕ) :
    positional base digits (n + 1) = positional base digits n + digits n * base ^ n := by
  simp [positional, sum_range_succ]

theorem positional_congr (h : ∀ i < n, digits i = digits' i) :
    positional base digits n = positional base digits' n :=
  sum_congr rfl fun i hi => by rw [h i (mem_range.mp hi)]

/-- Writing one digit. -/
theorem positional_update (base : ℕ) (digits : ℕ → ℕ) (x : ℕ) (hi : i < n) :
    positional base (update digits i x) n + digits i * base ^ i
      = positional base digits n + x * base ^ i := by
  have hmem : i ∈ range n := mem_range.mpr hi
  simp only [positional, ← add_sum_erase _ _ hmem, update_self]
  rw [sum_congr rfl fun j hj => by rw [update_of_ne (ne_of_mem_erase hj)]]
  omega

/-- One digit is part of the number. -/
theorem digit_mul_le_positional (base : ℕ) (digits : ℕ → ℕ) (hi : i < n) :
    digits i * base ^ i ≤ positional base digits n :=
  single_le_sum (f := fun i => digits i * base ^ i) (fun _ _ => Nat.zero_le _) (mem_range.mpr hi)

/-- Digits that are zero do not count. -/
theorem positional_eq_of_zero (hmn : m ≤ n) (h : ∀ i, m ≤ i → i < n → digits i = 0) :
    positional base digits n = positional base digits m := by
  induction n, hmn using Nat.le_induction with
  | base => rfl
  | succ n hmn ih =>
      rw [positional_succ, h n hmn (by omega), ih fun i hi hlt => h i hi (by omega)]
      simp

/-- `n` digits stand for a number below `base ^ n`. -/
theorem positional_lt (h : ∀ i < n, digits i < base) : positional base digits n < base ^ n := by
  induction n with
  | zero => simp
  | succ n ih =>
      have hlow : positional base digits n < base ^ n := ih fun i hi => h i (by omega)
      have htop : digits n + 1 ≤ base := h n (by omega)
      calc positional base digits (n + 1)
          = positional base digits n + digits n * base ^ n := positional_succ ..
        _ < base ^ n + digits n * base ^ n := by omega
        _ = (digits n + 1) * base ^ n := by ring
        _ ≤ base * base ^ n := Nat.mul_le_mul_right _ htop
        _ = base ^ (n + 1) := (pow_succ' base n).symm

/-- The digits are determined by the number. -/
theorem positional_injective (h : ∀ i < n, digits i < base) (h' : ∀ i < n, digits' i < base)
    (heq : positional base digits n = positional base digits' n) : ∀ i < n, digits i = digits' i := by
  induction n with
  | zero => exact fun i hi => absurd hi (Nat.not_lt_zero i)
  | succ n ih =>
      have hlow := positional_lt fun i (hi : i < n) => h i (by omega)
      have hlow' := positional_lt fun i (hi : i < n) => h' i (by omega)
      have hpos : 0 < base ^ n := by omega
      rw [positional_succ, positional_succ] at heq
      -- the two top digits are the quotients by `base ^ n`
      have htop : digits n = digits' n := by
        have hdiv := congrArg (· / base ^ n) heq
        simpa [Nat.add_mul_div_right _ _ hpos, Nat.div_eq_of_lt hlow, Nat.div_eq_of_lt hlow']
          using hdiv
      intro i hi
      rcases Nat.lt_succ_iff_lt_or_eq.mp hi with hlt | rfl
      · rw [htop] at heq
        exact ih (fun i hi => h i (by omega)) (fun i hi => h' i (by omega)) (by omega) i hlt
      · exact htop

/-- Adding (`sign = 1`) or subtracting (`sign = -1`) `x` at one digit leaves a carry or borrow of the
weight of the next digit. -/
theorem positional_update_carry (hi : i < n) {sign : ℤ} {y x carry : ℕ}
    (h : (y : ℤ) + sign * carry * base = digits i + sign * x) :
    (positional base (update digits i y) n : ℤ) + sign * carry * base ^ (i + 1)
      = positional base digits n + sign * (x * base ^ i) := by
  have hupdate := congrArg (Nat.cast : ℕ → ℤ) (positional_update base digits y hi)
  push_cast at hupdate
  linear_combination hupdate + (base : ℤ) ^ i * h

/-! ## The highest digit -/

/-- `top` is the index of the highest digit that is not zero, or zero when there is none. -/
structure IsTopDigit (digits : ℕ → ℕ) (top : ℕ) : Prop where
  zero_above : ∀ i, top < i → digits i = 0
  ne_zero : top ≠ 0 → digits top ≠ 0

namespace IsTopDigit

variable {top : ℕ}

/-- There is one highest digit. -/
theorem unique (h : IsTopDigit digits top) {top' : ℕ} (h' : IsTopDigit digits top') : top = top' := by
  rcases lt_trichotomy top top' with hlt | heq | hgt
  · exact absurd (h.zero_above _ hlt) (h'.ne_zero (by omega))
  · exact heq
  · exact absurd (h'.zero_above _ hgt) (h.ne_zero (by omega))

theorem value_eq (h : IsTopDigit digits top) (htop : top < n) :
    positional base digits n = positional base digits (top + 1) :=
  positional_eq_of_zero htop fun i hi _ => h.zero_above i (by omega)

/-- A number is below the weight of the digits above its top one. -/
theorem value_lt (h : IsTopDigit digits top) (hbase : ∀ i, digits i < base) (htop : top < n)
    (hm : top < m) : positional base digits n < base ^ m := by
  have hpos : 0 < base := (Nat.zero_le _).trans_lt (hbase 0)
  calc positional base digits n = positional base digits (top + 1) := h.value_eq htop
    _ < base ^ (top + 1) := positional_lt fun i _ => hbase i
    _ ≤ base ^ m := Nat.pow_le_pow_right hpos hm

/-- A number is at least the weight of its top digit. -/
theorem le_value (h : IsTopDigit digits top) (htop : top < n) (hne : top ≠ 0) :
    base ^ top ≤ positional base digits n :=
  (Nat.le_mul_of_pos_left _ (Nat.pos_of_ne_zero (h.ne_zero hne))).trans
    (digit_mul_le_positional base digits htop)

end IsTopDigit

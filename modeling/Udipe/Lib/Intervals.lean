import Mathlib.Algebra.BigOperators.Group.Finset.Basic
import Mathlib.Order.Interval.Set.Defs
import Mathlib.Order.Monotone.Basic

/-!
# Counting in consecutive intervals

A sequence of bounds cuts a linear order into half-open intervals, and the elements of a list fall into
these. `gapAfter n k` spreads `n` elements over `k` intervals: it is how many come after a bound when
rounded down, and no interval is empty while there are at least `k` elements.
-/

open Finset

universe u

variable {α : Type u} [LinearOrder α] {bound : ℕ → α} {a b : α} {n k i : ℕ}

/-! ## Counts -/

/-- The number of elements after `a` and up to `b`. -/
def countBetween (l : List α) (a b : α) : ℕ := l.countP fun x => decide (a < x ∧ x ≤ b)

theorem countP_le_add_countBetween (l : List α) (h : a ≤ b) :
    l.countP (· ≤ a) + countBetween l a b = l.countP (· ≤ b) := by
  induction l with
  | nil => rfl
  | cons x l ih =>
      rw [countBetween] at ih ⊢
      rw [List.countP_cons, List.countP_cons, List.countP_cons, ← ih]
      simp only [decide_eq_true_eq]
      by_cases hxa : x ≤ a
      · rw [if_pos hxa, if_neg fun hx => absurd hxa hx.1.not_ge, if_pos (hxa.trans h)]
        omega
      · rw [if_neg hxa]
        simp only [not_le.mp hxa, true_and]
        omega

/-- Consecutive intervals hold the elements up to the last bound. -/
theorem sum_countBetween (l : List α) (h : ∀ i < n, bound i ≤ bound (i + 1)) :
    l.countP (· ≤ bound 0) + ∑ i ∈ range n, countBetween l (bound i) (bound (i + 1)) =
      l.countP (· ≤ bound n) := by
  induction n with
  | zero => rfl
  | succ n ih =>
      rw [Finset.sum_range_succ, ← Nat.add_assoc, ih fun i hi => h i (by omega)]
      exact countP_le_add_countBetween l (h n (Nat.lt_succ_self n))

/-! ## Even intervals -/

/-- The elements after bound `i`, when `n` of them are spread over `k` intervals. -/
def gapAfter (n k i : ℕ) : ℕ := n * (k - i) / k

@[simp] theorem gapAfter_last (n k : ℕ) : gapAfter n k k = 0 := by simp [gapAfter]

theorem gapAfter_zero (n : ℕ) (hk : 0 < k) : gapAfter n k 0 = n := Nat.mul_div_cancel n hk

/-- No interval is empty. -/
theorem gapAfter_succ_lt (hkn : k ≤ n) (hi : i < k) : gapAfter n k (i + 1) < gapAfter n k i := by
  have hk : 0 < k := Nat.zero_lt_of_lt hi
  have hsplit : n * (k - i) = n * (k - (i + 1)) + n := by
    rw [← Nat.mul_succ]
    congr 1
    omega
  rw [gapAfter, gapAfter, hsplit, ← Nat.succ_le_iff]
  calc n * (k - (i + 1)) / k + 1 = (n * (k - (i + 1)) + k) / k := (Nat.add_div_right _ hk).symm
    _ ≤ (n * (k - (i + 1)) + n) / k := Nat.div_le_div_right (Nat.add_le_add_left hkn _)

import Mathlib.Algebra.BigOperators.Group.Finset.Basic
import Mathlib.Algebra.Order.BigOperators.Group.Finset
import Mathlib.Data.Multiset.AddSub
import Mathlib.Algebra.BigOperators.Group.Multiset.Defs

/-!
# Runs of equal elements

`runs value count n` is the list that has `count i` copies of `value i` for each `i` below `n`, in
this order. Run `i` starts at the sum of the counts before it.
-/

universe u

variable {α : Type u} {value : ℕ → α} {count count' : ℕ → ℕ} {n i r : ℕ}

/-- `count i` copies of `value i` for each `i` below `n`. -/
def runs (value : ℕ → α) (count : ℕ → ℕ) (n : ℕ) : List α :=
  (List.range n).flatMap fun i => List.replicate (count i) (value i)

@[simp] theorem runs_zero : runs value count 0 = [] := rfl

theorem runs_succ (value : ℕ → α) (count : ℕ → ℕ) (n : ℕ) :
    runs value count (n + 1) = runs value count n ++ List.replicate (count n) (value n) := by
  rw [runs, List.range_succ, List.flatMap_append, List.flatMap_singleton]
  rfl

theorem map_runs {β : Type*} (f : α → β) (value : ℕ → α) (count : ℕ → ℕ) (n : ℕ) :
    (runs value count n).map f = runs (fun i => f (value i)) count n := by
  induction n with
  | zero => rfl
  | succ n ih => rw [runs_succ, runs_succ, List.map_append, ih, List.map_replicate]

theorem length_runs (value : ℕ → α) (count : ℕ → ℕ) (n : ℕ) :
    (runs value count n).length = ∑ i ∈ Finset.range n, count i := by
  induction n with
  | zero => rfl
  | succ n ih => rw [runs_succ, List.length_append, List.length_replicate, ih,
      Finset.sum_range_succ]

/-- The elements of run `i`. -/
theorem getElem?_runs (hi : i < n) (hstart : ∑ j ∈ Finset.range i, count j ≤ r)
    (hend : r < ∑ j ∈ Finset.range (i + 1), count j) : (runs value count n)[r]?
      = some (value i) := by
  induction n with
  | zero => exact absurd hi (Nat.not_lt_zero i)
  | succ n ih =>
      rw [runs_succ]
      rcases Nat.lt_succ_iff_lt_or_eq.mp hi with hlt | rfl
      · have hsub : ∑ j ∈ Finset.range (i + 1), count j ≤ ∑ j ∈ Finset.range n, count j :=
          Finset.sum_le_sum_of_subset (Finset.range_subset_range.mpr hlt)
        rw [List.getElem?_append_left (by rw [length_runs]; omega)]
        exact ih hlt
      · rw [Finset.sum_range_succ] at hend
        rw [List.getElem?_append_right (by rw [length_runs]; exact hstart), length_runs,
          List.getElem?_replicate_of_lt (by omega)]

theorem mem_runs {x : α} : x ∈ runs value count n ↔ ∃ i < n, 0 < count i ∧ value i = x := by
  simp only [runs, List.mem_flatMap, List.mem_range, List.mem_replicate, Nat.pos_iff_ne_zero,
    eq_comm (a := x)]

/-- The runs whose value has the property. -/
theorem countP_runs (p : α → Bool) (value : ℕ → α) (count : ℕ → ℕ) (n : ℕ) :
    (runs value count n).countP p = ∑ i ∈ Finset.range n, if p (value i) then count i else 0 := by
  induction n with
  | zero => rfl
  | succ n ih =>
      rw [runs_succ, List.countP_append, ih, Finset.sum_range_succ, List.countP_replicate]

/-- Runs of increasing values are sorted. -/
theorem pairwise_runs [Preorder α] (hmono : ∀ j < n, ∀ i < j, value i ≤ value j) :
    (runs value count n).Pairwise (· ≤ ·) := by
  induction n with
  | zero => exact List.Pairwise.nil
  | succ n ih =>
      rw [runs_succ, List.pairwise_append]
      refine ⟨ih fun j hj => hmono j (by omega), ?_, fun x hx y hy => ?_⟩
      · rw [List.pairwise_replicate]
        exact .inr le_rfl
      · obtain ⟨i, hi, -, rfl⟩ := mem_runs.mp hx
        obtain rfl := (List.mem_replicate.mp hy).2
        exact hmono n (Nat.lt_succ_self n) i hi

/-- The multiset of the runs. -/
theorem coe_runs (value : ℕ → α) (count : ℕ → ℕ) (n : ℕ) :
    (runs value count n : Multiset α) = ∑ i ∈ Finset.range n, Multiset.replicate (count i)
    (value i) := by
  induction n with
  | zero => rfl
  | succ n ih => rw [runs_succ, ← Multiset.coe_add, ih, Finset.sum_range_succ,
      Multiset.coe_replicate]

/-- The sum of the runs. -/
theorem sum_runs [AddCommMonoid α] (value : ℕ → α) (count : ℕ → ℕ) (n : ℕ) :
    (runs value count n).sum = ∑ i ∈ Finset.range n, count i • value i := by
  induction n with
  | zero => rfl
  | succ n ih => rw [runs_succ, List.sum_append, ih, List.sum_replicate, Finset.sum_range_succ]

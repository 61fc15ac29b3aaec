import Udipe.Lib.SortedArray
import Mathlib.Data.List.Sort
import Mathlib.Order.Bounds.Basic

/-!
# Order statistics

The element of a given rank among the elements of a list, in increasing order.
-/

universe u

variable {α : Type u} [LinearOrder α] {l l' : List α} {r : ℕ}

/-- The element of rank `r` of a sorted list is the least one with more than `r` elements up to
it. -/
theorem isLeast_getElem (hsorted : l.Pairwise (· ≤ ·)) (hr : r < l.length) :
    IsLeast {y | y ∈ l ∧ r < l.countP (fun x => decide (x ≤ y))} l[r] := by
  refine ⟨⟨List.getElem_mem hr, (lt_countP_le_iff hsorted _ hr).mpr le_rfl⟩, ?_⟩
  rintro y ⟨-, hy⟩
  exact (lt_countP_le_iff hsorted y hr).mp hy

/-- The elements in increasing order. -/
def ascending (l : List α) : List α := l.mergeSort fun x y => decide (x ≤ y)

theorem ascending_perm (l : List α) : (ascending l).Perm l := List.mergeSort_perm l _

theorem pairwise_ascending (l : List α) : (ascending l).Pairwise (· ≤ ·) := by
  have hsorted := @List.pairwise_mergeSort α (fun x y => decide (x ≤ y))
    (fun a b c hab hbc => by
      rw [decide_eq_true_iff] at hab hbc ⊢
      exact hab.trans hbc)
    (fun a b => by
      rw [Bool.or_eq_true, decide_eq_true_iff, decide_eq_true_iff]
      exact le_total a b) l
  exact hsorted.imp fun h => of_decide_eq_true h

/-- `x` is the element of rank `r`. -/
def IsOrderStatistic (l : List α) (r : ℕ) (x : α) : Prop := (ascending l)[r]? = some x

namespace IsOrderStatistic

variable {x y : α} {s : ℕ}

theorem exists_of_lt (hr : r < l.length) : ∃ x, IsOrderStatistic l r x := by
  rw [← (ascending_perm l).length_eq] at hr
  exact ⟨_, List.getElem?_eq_getElem hr⟩

theorem mem (h : IsOrderStatistic l r x) : x ∈ l :=
  (ascending_perm l).subset (List.mem_of_getElem? h)

/-- More than `r` elements are at most `v` exactly when the element of rank `r` is. -/
theorem le_iff (h : IsOrderStatistic l r x) (v : α) :
    x ≤ v ↔ r < l.countP fun a => decide (a ≤ v) := by
  obtain ⟨hr, rfl⟩ := List.getElem?_eq_some_iff.mp h
  rw [← lt_countP_le_iff (pairwise_ascending l) v hr, (ascending_perm l).countP_eq]

/-- Later elements are larger. -/
theorem mono (hx : IsOrderStatistic l r x) (hy : IsOrderStatistic l s y) (hrs : r ≤ s) : x ≤ y :=
  (hx.le_iff y).mpr (hrs.trans_lt ((hy.le_iff y).mp le_rfl))

/-- Order statistics keep a bound that holds position by position. -/
theorem le_of_forall₂ (hle : List.Forall₂ (· ≤ ·) l l') (hx : IsOrderStatistic l r x)
    (hy : IsOrderStatistic l' r y) : x ≤ y := by
  rw [hx.le_iff y]
  refine ((hy.le_iff y).mp le_rfl).trans_le ?_
  clear hx hy
  induction hle with
  | nil => exact le_rfl
  | @cons a a' l l' h _ ih =>
      rw [List.countP_cons, List.countP_cons]
      refine Nat.add_le_add ih ?_
      split_ifs with ha' ha
      · exact le_rfl
      · exact absurd (decide_eq_true (h.trans (of_decide_eq_true ha'))) ha
      · exact Nat.zero_le _
      · exact le_rfl

end IsOrderStatistic

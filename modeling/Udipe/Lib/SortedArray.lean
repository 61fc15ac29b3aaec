import Mathlib.Algebra.BigOperators.Fin
import Mathlib.Algebra.Order.BigOperators.Group.Finset
import Mathlib.Data.List.Sort
import Mathlib.Order.Interval.Set.Basic

/-!
# Insertion into the occupied part of an array

An array is a function on indices of which the first `n` entries are in use. `InsertedAt` relates it
to the array with one more entry at `pos`: the entries from `pos` on have moved up by one.
-/

universe u v

variable {α : Type u} {β : Type v} {pos n : ℕ} {x : α} {a a' a'' : ℕ → α}

/-- A later entry in use is larger. -/
theorem StrictMonoOn.entry_lt [Preorder α] (h : StrictMonoOn a (Set.Iio n)) {i j : ℕ} (hij : i < j)
    (hj : j < n) :
    a i < a j := h (Set.mem_Iio.mpr (hij.trans hj)) (Set.mem_Iio.mpr hj) hij

theorem StrictMonoOn.entry_le [Preorder α] (h : StrictMonoOn a (Set.Iio n)) {i j : ℕ} (hij : i ≤ j)
    (hj : j < n) :
    a i ≤ a j := h.monotoneOn (Set.mem_Iio.mpr (hij.trans_lt hj)) (Set.mem_Iio.mpr hj) hij

/-- `a'` is `a` with `x` inserted at `pos`, as far as the first `n` entries of `a` are concerned. -/
structure InsertedAt (pos n : ℕ) (x : α) (a a' : ℕ → α) : Prop where
  below : ∀ i < pos, a' i = a i
  here : a' pos = x
  above : ∀ i, pos ≤ i → i < n → a' (i + 1) = a i

namespace InsertedAt

theorem map (h : InsertedAt pos n x a a') (f : α → β) :
    InsertedAt pos n (f x) (f ∘ a) (f ∘ a') :=
  ⟨fun i hi => congrArg f (h.below i hi), congrArg f h.here,
    fun i hi hn => congrArg f (h.above i hi hn)⟩

/-- The result is determined. -/
theorem unique (h : InsertedAt pos n x a a') (h' : InsertedAt pos n x a a'') {i : ℕ} (hi : i ≤ n) :
    a' i = a'' i := by
  rcases lt_trichotomy i pos with hlt | rfl | hgt
  · rw [h.below i hlt, h'.below i hlt]
  · rw [h.here, h'.here]
  · obtain ⟨j, rfl⟩ : ∃ j, i = j + 1 := ⟨i - 1, by omega⟩
    rw [h.above j (by omega) (by omega), h'.above j (by omega) (by omega)]

/-- A property of all entries. -/
theorem forall_iff {P : α → Prop} (h : InsertedAt pos n x a a') (hpos : pos ≤ n) :
    (∀ i < n + 1, P (a' i)) ↔ P x ∧ ∀ i < n, P (a i) := by
  constructor
  · intro hall
    refine ⟨h.here ▸ hall pos (by omega), fun i hi => ?_⟩
    rcases lt_or_ge i pos with hlt | hge
    · exact h.below i hlt ▸ hall i (by omega)
    · exact h.above i hge hi ▸ hall (i + 1) (by omega)
  · rintro ⟨hx, hall⟩ i hi
    rcases lt_trichotomy i pos with hlt | rfl | hgt
    · exact h.below i hlt ▸ hall i (by omega)
    · exact h.here ▸ hx
    · obtain ⟨j, rfl⟩ : ∃ j, i = j + 1 := ⟨i - 1, by omega⟩
      exact h.above j (by omega) (by omega) ▸ hall j (by omega)

/-- The sum over all entries. -/
theorem sum [AddCommMonoid α] (h : InsertedAt pos n x a a') (hpos : pos ≤ n) :
    ∑ i ∈ Finset.range (n + 1), a' i = x + ∑ i ∈ Finset.range n, a i := by
  rw [Finset.sum_range, Finset.sum_range, Fin.sum_univ_succAbove _ ⟨pos, by omega⟩]
  congr 1
  · exact h.here
  · refine Finset.sum_congr rfl fun i _ => ?_
    rcases lt_or_ge i.val pos with hlt | hge
    · rw [Fin.succAbove_of_castSucc_lt _ _ (by simpa [Fin.lt_def] using hlt)]
      exact h.below i hlt
    · rw [Fin.succAbove_of_le_castSucc _ _ (by simpa [Fin.le_def] using hge)]
      exact h.above i hge i.isLt

/-- Inserting between the smaller and the larger entries keeps the array strictly increasing. -/
theorem strictMonoOn [Preorder α] (h : InsertedAt pos n x a a') (hpos : pos ≤ n)
    (hmono : StrictMonoOn a (Set.Iio n)) (hlow : ∀ i < pos, a i < x)
    (hhigh : ∀ i, pos ≤ i → i < n → x < a i) : StrictMonoOn a' (Set.Iio (n + 1)) := by
  intro i hi j hj hij
  simp only [Set.mem_Iio] at hi hj
  rcases lt_trichotomy j pos with hjlt | rfl | hjgt
  · rw [h.below i (by omega), h.below j hjlt]
    exact hmono.entry_lt hij (by omega)
  · rw [h.below i hij, h.here]
    exact hlow i hij
  · obtain ⟨k, rfl⟩ : ∃ k, j = k + 1 := ⟨j - 1, by omega⟩
    rw [h.above k (by omega) (by omega)]
    rcases lt_trichotomy i pos with hilt | rfl | higt
    · rw [h.below i hilt]
      exact (hlow i hilt).trans (hhigh k (by omega) (by omega))
    · rw [h.here]
      exact hhigh k (by omega) (by omega)
    · obtain ⟨l, rfl⟩ : ∃ l, i = l + 1 := ⟨i - 1, by omega⟩
      rw [h.above l (by omega) (by omega)]
      exact hmono.entry_lt (by omega) (by omega)

end InsertedAt

/-- The prefix sums of positive numbers are strictly increasing. -/
theorem strictMonoOn_prefixSum {counts : ℕ → ℕ} (hpos : ∀ i < n, 0 < counts i) :
    StrictMonoOn (fun i => ∑ j ∈ Finset.range (i + 1), counts j) (Set.Iio n) := by
  intro i _ j hj hij
  have hsub : Finset.range (i + 1) ⊆ Finset.range (j + 1) :=
    Finset.range_subset_range.mpr (by omega)
  exact Finset.sum_lt_sum_of_subset hsub (i := j) (by simp) (by simp; omega) (hpos j hj)
    fun _ _ _ => Nat.zero_le _

/-- Strictly increasing entries, one by one. -/
theorem strictMonoOn_Iio_iff [Preorder α] : StrictMonoOn a (Set.Iio n) ↔
    ∀ j < n, ∀ i < j, a i < a j :=
  ⟨fun h _ hj _ hij => h.entry_lt hij hj,
    fun h _ _ j hj hij => h j hj _ hij⟩

/-- Strictly increasing entries are determined by which elements occur. -/
theorem StrictMonoOn.eq_of_occurs_iff [PartialOrder α] {n' : ℕ} (h : StrictMonoOn a (Set.Iio n))
    (h' : StrictMonoOn a' (Set.Iio n')) (hsame : ∀ x, (∃ i < n, a i = x) ↔ ∃ i < n', a' i = x) :
    n = n' ∧ ∀ i < n, a i = a' i := by
  have hsorted : ∀ {a : ℕ → α} {n : ℕ}, StrictMonoOn a (Set.Iio n) →
      ((List.range n).map a).Pairwise (· < ·) := by
    intro a n hmono
    rw [List.pairwise_map]
    refine List.pairwise_lt_range.imp_of_mem fun hi hj hij => ?_
    exact hmono (List.mem_range.mp hi) (List.mem_range.mp hj) hij
  have heq : (List.range n).map a = (List.range n').map a' := by
    refine (hsorted h).eq_of_mem_iff (hsorted h') fun x => ?_
    simp only [List.mem_map, List.mem_range]
    exact hsame x
  have hlength : n = n' := by
    have hlengths := congrArg List.length heq
    rwa [List.length_map, List.length_map, List.length_range, List.length_range] at hlengths
  subst hlength
  exact ⟨rfl, fun i hi => List.map_inj_left.mp heq i (List.mem_range.mpr hi)⟩

/-- In a sorted list the elements that are at most `v` come first: `r` is among the ranks that they
have exactly when the element of rank `r` is one of them. -/
theorem lt_countP_le_iff [LinearOrder α] {l : List α} (hsorted : l.Pairwise (· ≤ ·)) (v : α) {r : ℕ}
    (hr : r < l.length) : r < l.countP (fun x => decide (x ≤ v)) ↔ l[r] ≤ v := by
  induction l generalizing r with
  | nil => exact absurd hr (Nat.not_lt_zero r)
  | cons a t ih =>
      obtain ⟨hhead, htail⟩ := List.pairwise_cons.mp hsorted
      by_cases ha : a ≤ v
      · have hcount : (a :: t).countP (fun x => decide (x ≤ v)) = t.countP
          (fun x => decide (x ≤ v)) + 1 :=
          List.countP_cons_of_pos (decide_eq_true ha)
        rw [hcount]
        cases r with
        | zero => exact iff_of_true (Nat.succ_pos _) ha
        | succ r => exact Nat.succ_lt_succ_iff.trans (ih htail (Nat.lt_of_succ_lt_succ hr))
      · have hlarge : ∀ x ∈ t, ¬ x ≤ v := fun x hx hxv => ha ((hhead x hx).trans hxv)
        have hnone : t.countP (fun x => decide (x ≤ v)) = 0 :=
          List.countP_eq_zero.mpr fun x hx => by simpa using hlarge x hx
        have hcount : (a :: t).countP (fun x => decide (x ≤ v)) = t.countP
          (fun x => decide (x ≤ v)) :=
          List.countP_cons_of_neg (by simpa using ha)
        rw [hcount, hnone]
        refine iff_of_false (Nat.not_lt_zero r) ?_
        cases r with
        | zero => exact ha
        | succ r => exact hlarge _ (List.getElem_mem (Nat.lt_of_succ_lt_succ hr))

/-! ## Bisection -/

/-- The middle of an interval that has an inside. -/
theorem bisection_inside {below above : ℕ} (h : 1 < above - below) :
    below < below + (above - below) / 2 ∧ below + (above - below) / 2 < above := by
  omega

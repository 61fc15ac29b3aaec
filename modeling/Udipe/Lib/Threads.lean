import Mathlib.Algebra.BigOperators.Group.Finset.Basic
import Mathlib.Algebra.Order.BigOperators.Group.Finset
import Mathlib.Data.Fintype.Basic
import Mathlib.Tactic.Abel

/-!
# Families of threads and counts over them

A family `pc : ι → L` gives each thread its local state; one thread moves by `Function.update`. A
count `∑ u, f (pc u)` then changes only by the moving thread's part.
-/

namespace Threads

open Function

variable {ι L : Type*} [DecidableEq ι]

/-- A statement about every thread after one thread moved. -/
theorem forall_update {P : ι → L → Prop} {pc : ι → L} {t : ι} {x : L} (ht : P t x)
    (h : ∀ u, u ≠ t → P u (pc u)) : ∀ u, P u (update pc t x u) := by
  intro u
  rcases eq_or_ne u t with rfl | hut
  · simpa using ht
  · simpa [update_of_ne hut] using h u hut

variable [Fintype ι]

/-- Moving one thread changes a count by that thread's part. -/
theorem sum_update {M : Type*} [AddCommMonoid M] (f : L → M) (pc : ι → L) (t : ι) (x : L) :
    ∑ u, f (update pc t x u) + f (pc t) = ∑ u, f (pc u) + f x := by
  rw [← Finset.add_sum_erase _ _ (Finset.mem_univ t),
    ← Finset.add_sum_erase _ (fun u => f (pc u)) (Finset.mem_univ t)]
  have hrest : ∑ u ∈ Finset.univ.erase t, f (update pc t x u)
      = ∑ u ∈ Finset.univ.erase t, f (pc u) :=
    Finset.sum_congr rfl fun u hu => by rw [update_of_ne (Finset.ne_of_mem_erase hu)]
  rw [hrest, update_self]
  abel

omit [DecidableEq ι] in
/-- A thread's part is at most the count. -/
theorem le_sum (f : L → ℕ) (pc : ι → L) (t : ι) : f (pc t) ≤ ∑ u, f (pc u) :=
  Finset.single_le_sum (f := fun u => f (pc u)) (fun _ _ => Nat.zero_le _) (Finset.mem_univ t)

/-- Two different threads' parts together are at most the count. -/
theorem add_le_sum (f : L → ℕ) (pc : ι → L) {t u : ι} (htu : t ≠ u) :
    f (pc t) + f (pc u) ≤ ∑ v, f (pc v) := by
  rw [← Finset.add_sum_erase _ _ (Finset.mem_univ t)]
  have hu : u ∈ Finset.univ.erase t := Finset.mem_erase.mpr ⟨htu.symm, Finset.mem_univ u⟩
  have := Finset.single_le_sum (f := fun v => f (pc v)) (fun _ _ => Nat.zero_le _) hu
  omega

omit [DecidableEq ι] in
/-- The count is zero exactly when every thread's part is. -/
theorem sum_eq_zero (f : L → ℕ) (pc : ι → L) : ∑ u, f (pc u) = 0 ↔ ∀ u, f (pc u) = 0 := by
  simp [Finset.sum_eq_zero_iff]

end Threads

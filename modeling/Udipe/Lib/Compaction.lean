import Mathlib.Data.List.Range
import Mathlib.Logic.Function.Basic

/-!
# Compacting an array in place

The entries of an array that are to be kept are moved towards its start, in a loop over its indices.
An array is a function on indices, `entries a n` is the list of its first `n` entries. `Compacted` is
what holds before index `k` is looked at: the kept entries below `k` are in front, and from `k` on
nothing has changed.
-/

open Function

universe u

variable {α : Type u} {keep : ℕ → Bool} {a a' : ℕ → α} {k n : ℕ}

/-- The first `n` entries of an array. -/
def entries (a : ℕ → α) (n : ℕ) : List α := (List.range n).map a

@[simp] theorem length_entries (a : ℕ → α) (n : ℕ) : (entries a n).length = n := by simp [entries]

theorem entries_succ (a : ℕ → α) (n : ℕ) : entries a (n + 1) = entries a n ++ [a n] := by
  rw [entries, List.range_succ, List.map_append]
  rfl

theorem entries_congr (h : ∀ i < n, a i = a' i) : entries a n = entries a' n :=
  List.map_congr_left fun i hi => h i (List.mem_range.mp hi)

theorem mem_entries {x : α} : x ∈ entries a n ↔ ∃ i < n, a i = x := by
  simp [entries]

/-- The indices below `k` that are kept. -/
def keptIndices (keep : ℕ → Bool) (k : ℕ) : List ℕ := (List.range k).filter keep

theorem keptIndices_succ_of_keep (h : keep k = true) :
    keptIndices keep (k + 1) = keptIndices keep k ++ [k] := by
  rw [keptIndices, List.range_succ, List.filter_append, List.filter_singleton, h]
  rfl

theorem keptIndices_succ_of_drop (h : keep k = false) :
    keptIndices keep (k + 1) = keptIndices keep k := by
  rw [keptIndices, List.range_succ, List.filter_append, List.filter_singleton, h]
  exact List.append_nil _

theorem length_keptIndices_le (keep : ℕ → Bool) (k : ℕ) : (keptIndices keep k).length ≤ k := by
  simpa [keptIndices] using List.length_filter_le keep (List.range k)

/-- An index is kept or dropped. -/
theorem length_keptIndices_add (keep : ℕ → Bool) (k : ℕ) :
    (keptIndices keep k).length + (keptIndices (fun i => !keep i) k).length = k := by
  simpa [keptIndices, ← List.countP_eq_length_filter] using
    (List.length_eq_countP_add_countP keep (l := List.range k)).symm

/-- The kept entries and the dropped ones are all entries. -/
theorem keptIndices_perm (keep : ℕ → Bool) (a : ℕ → α) (n : ℕ) :
    ((keptIndices keep n).map a ++ (keptIndices (fun i => !keep i) n).map a).Perm (entries a n) := by
  rw [← List.map_append]
  exact (List.filter_append_perm keep (List.range n)).map a

/-- The kept entries, in their order. -/
theorem keptIndices_sublist (keep : ℕ → Bool) (a : ℕ → α) (n : ℕ) :
    ((keptIndices keep n).map a).Sublist (entries a n) :=
  List.filter_sublist.map a

/-- `a'` is what `a` has become before index `k` is looked at. -/
structure Compacted (keep : ℕ → Bool) (a a' : ℕ → α) (k : ℕ) : Prop where
  front : entries a' (keptIndices keep k).length = (keptIndices keep k).map a
  rest : ∀ i, k ≤ i → a' i = a i

namespace Compacted

theorem start (keep : ℕ → Bool) (a : ℕ → α) : Compacted keep a a 0 := ⟨rfl, fun _ _ => rfl⟩

/-- A dropped entry. -/
theorem drop (h : Compacted keep a a' k) (hk : keep k = false) : Compacted keep a a' (k + 1) where
  front := by
    rw [keptIndices_succ_of_drop hk]
    exact h.front
  rest i hi := h.rest i (by omega)

/-- A kept entry that is moved to the front. -/
theorem move (h : Compacted keep a a' k) (hk : keep k = true) :
    Compacted keep a (update a' (keptIndices keep k).length (a k)) (k + 1) where
  front := by
    rw [keptIndices_succ_of_keep hk, List.length_append, List.length_singleton, entries_succ,
      update_self, List.map_append, ← h.front]
    congr 1
    exact entries_congr fun i hi => update_of_ne hi.ne _ _
  rest i hi := by
    have hle := length_keptIndices_le keep k
    rw [update_of_ne (by omega)]
    exact h.rest i (by omega)

/-- A kept entry that is in place, since none has been dropped. -/
theorem stay (h : Compacted keep a a' k) (hk : keep k = true)
    (hall : (keptIndices keep k).length = k) : Compacted keep a a' (k + 1) := by
  have hsame : update a' (keptIndices keep k).length (a k) = a' := by
    rw [hall, ← h.rest k le_rfl]
    exact update_eq_self k a'
  rw [← hsame]
  exact h.move hk

end Compacted

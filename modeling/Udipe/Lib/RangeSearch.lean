import Mathlib.Data.List.Find
import Mathlib.Data.List.Range
import Mathlib.Data.List.Rotate

/-!
# The first number of a range with a property

`(List.range' s n).find? p` is the first number from `s` to `s + n - 1` that satisfies `p`. A range
is searched in parts, from a number on with wraparound, or again from the number found until there
is no more.
-/

namespace RangeSearch

variable {p : ℕ → Bool} {s m n i : ℕ}

/-- A search in two parts. -/
theorem find?_range'_add (p : ℕ → Bool) (s m n : ℕ) :
    (List.range' s (m + n)).find? p
      = ((List.range' s m).find? p).or ((List.range' (s + m) n).find? p) := by
  rw [← List.range'_append_1, List.find?_append]

/-- The search of a range that starts after its first `k` numbers and comes back to them at the
end. -/
theorem find?_rotate_range {k : ℕ} (p : ℕ → Bool) (hk : k ≤ n) :
    ((List.range n).rotate k).find? p
      = ((List.range' k (n - k)).find? p).or ((List.range k).find? p) := by
  rw [List.rotate_eq_drop_append_take (by simpa using hk), List.find?_append, List.take_range,
    Nat.min_eq_left hk, List.range_eq_range', List.drop_range', Nat.zero_add, Nat.mul_one]

/-- What follows the first number found is found by a search that starts after it. -/
theorem filter_range'_of_find?_eq_some (h : (List.range' s n).find? p = some i) :
    (List.range' s n).filter p = i :: (List.range' (i + 1) (s + n - (i + 1))).filter p := by
  obtain ⟨hi, hmem, hbefore⟩ := List.find?_range'_eq_some.mp h
  obtain ⟨hle, hlt⟩ : s ≤ i ∧ i < s + n := by simpa using hmem
  have hsplit : List.range' s n
      = List.range' s (i - s) ++ i :: List.range' (i + 1) (s + n - (i + 1)) := by
    have hrest : List.range' i (n - (i - s)) = i :: List.range' (i + 1) (s + n - (i + 1)) := by
      rw [show n - (i - s) = s + n - (i + 1) + 1 by omega, List.range'_succ]
    rw [← hrest]
    conv_lhs => rw [show n = i - s + (n - (i - s)) by omega, ← List.range'_append_1]
    rw [Nat.add_sub_cancel' hle]
  have hskipped : (List.range' s (i - s)).filter p = [] := by
    rw [List.filter_eq_nil_iff]
    intro j hj
    have hj' := List.mem_range'_1.mp hj
    simpa using hbefore j hj'.1 (by omega)
  rw [hsplit, List.filter_append, hskipped, List.nil_append, List.filter_cons_of_pos hi]

theorem filter_range'_of_find?_eq_none (h : (List.range' s n).find? p = none) :
    (List.range' s n).filter p = [] := by
  rw [List.filter_eq_nil_iff]
  exact List.find?_eq_none.mp h

end RangeSearch

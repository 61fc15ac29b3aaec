import Mathlib.Data.Nat.Count
import Mathlib.Data.Nat.Log

/-!
# The end of an initial segment

A property that holds on an initial segment of the numbers below `n` holds exactly below its count.
So a bisection that keeps a number with the property on its left and one without on its right closes
in on the count, and each halving takes one off the logarithm of the distance.
-/

variable {p : ℕ → Prop} {n i : ℕ}

/-- Below `n`, the numbers with property `p` come first. -/
def InitialSegment (p : ℕ → Prop) (n : ℕ) : Prop :=
  ∀ i j, i ≤ j → j < n → p j → p i

/-- The numbers with the property are those below their count. -/
theorem InitialSegment.iff_lt_count [DecidablePred p] (h : InitialSegment p n) (hi : i < n) :
    p i ↔ i < Nat.count p n := by
  constructor
  · intro hp
    have hall : Nat.count p (i + 1) = i + 1 :=
      Nat.count_of_forall fun j hj => h j i (Nat.le_of_lt_succ hj) hi hp
    have hle : Nat.count p (i + 1) ≤ Nat.count p n := Nat.count_monotone p hi
    omega
  · intro hlt
    by_contra hp
    -- nothing from `i` on has the property, so at most `i` numbers do
    have hnone : Nat.count (fun k => p (i + k)) (n - i) = 0 :=
      Nat.count_iff_forall_not.mpr fun k hk hik => hp (h i (i + k) (by omega) (by omega) hik)
    have hsplit := Nat.count_add (p := p) i (n - i)
    rw [Nat.add_sub_of_le hi.le, hnone] at hsplit
    have hle : Nat.count p i ≤ i := Nat.count_le p
    omega

/-- Either half of a distance of at least two, rounded up, has a smaller logarithm. -/
theorem Nat.clog_lt_of_half {d d' : ℕ} (hd : 2 ≤ d) (h : d' ≤ (d + 1) / 2) :
    Nat.clog 2 d' < Nat.clog 2 d := by
  rw [Nat.clog_of_two_le (n := d) (by omega) hd, Nat.lt_succ_iff]
  exact Nat.clog_mono_right 2 h

import Mathlib.Data.BitVec

/-!
# A counter in the low bits of a machine word

A word `a ++ b` holds a counter `b` in its low bits. Adding one to the whole word adds one to the
counter and leaves `a` alone unless the counter is at its maximum; subtracting one does the same unless
the counter is zero.
-/

namespace BitVec

variable {m n : ℕ}

private theorem toNat_append_eq (a : BitVec m) (b : BitVec n) :
    (a ++ b).toNat = a.toNat * 2 ^ n + b.toNat := by
  rw [toNat_append, ← Nat.shiftLeft_add_eq_or_of_lt b.isLt, Nat.shiftLeft_eq]

/-- A counter below its maximum counts up by one. -/
theorem toNat_add_one_of_ne {b : BitVec n} (hn : 0 < n) (hb : b ≠ allOnes n) :
    (b + 1#n).toNat = b.toNat + 1 := by
  have hmax : b.toNat ≠ 2 ^ n - 1 := fun h => hb (eq_of_toNat_eq (by simpa using h))
  have hlt := b.isLt
  rw [toNat_add, toNat_ofNat, Nat.one_mod_two_pow_eq_one.mpr hn, Nat.mod_eq_of_lt (by omega)]

/-- A nonzero counter counts down by one. -/
theorem toNat_sub_one_of_ne {b : BitVec n} (hn : 0 < n) (hb : b ≠ 0#n) :
    (b - 1#n).toNat + 1 = b.toNat := by
  have hpos : b.toNat ≠ 0 := fun h => hb (eq_of_toNat_eq (by simpa using h))
  have hlt := b.isLt
  rw [toNat_sub, toNat_ofNat, Nat.one_mod_two_pow_eq_one.mpr hn]
  have hborrow : 2 ^ n - 1 + b.toNat = (b.toNat - 1) + 2 ^ n := by omega
  rw [hborrow, Nat.add_mod_right, Nat.mod_eq_of_lt (by omega)]
  omega

/-- No carry out of a counter that is not at its maximum. -/
theorem append_add_one (a : BitVec m) {b : BitVec n} (hn : 0 < n) (hb : b ≠ allOnes n) :
    (a ++ b) + 1#(m + n) = a ++ (b + 1#n) := by
  have hsucc := toNat_add_one_of_ne hn hb
  have hone : 1 < 2 ^ (m + n) := Nat.one_lt_two_pow (by omega)
  have hfit : a.toNat * 2 ^ n + b.toNat + 1 < 2 ^ (m + n) := by
    have := (a ++ (b + 1#n)).isLt
    rwa [toNat_append_eq, hsucc, ← Nat.add_assoc] at this
  apply eq_of_toNat_eq
  rw [toNat_add, toNat_append_eq, toNat_append_eq, hsucc, toNat_ofNat, Nat.mod_eq_of_lt hone,
    Nat.mod_eq_of_lt hfit, Nat.add_assoc]

/-- No borrow from a counter that is not zero. -/
theorem append_sub_one (a : BitVec m) {b : BitVec n} (hn : 0 < n) (hb : b ≠ 0#n) :
    (a ++ b) - 1#(m + n) = a ++ (b - 1#n) := by
  have hmax : b - 1#n ≠ allOnes n := by
    intro h
    have hwrap : b = allOnes n + 1#n := by rw [← h, BitVec.sub_add_cancel]
    exact hb (by rw [hwrap, ← BitVec.neg_one_eq_allOnes]; simp)
  have h := append_add_one a hn hmax
  rw [BitVec.sub_add_cancel] at h
  rw [← h, BitVec.add_sub_cancel]

end BitVec

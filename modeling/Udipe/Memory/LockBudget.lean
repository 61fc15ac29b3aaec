import Udipe.Lib.Checked
import Udipe.Lib.Loops
import Udipe.Memory.Buffer

/-!
# The memory locking limit

Reference: `memory.c`, the part of `try_increase_mlock_budget` for Linux.

The soft limit is doubled until there is room for the allocation, modulo `2 ^ 64`. The doubling ends
only if some power of two times the limit, modulo `2 ^ 64`, leaves that room.
-/

namespace Udipe

open Checked

/-- `struct rlimit`. -/
structure Rlimit where
  rlimCur : ℕ
  rlimMax : ℕ
deriving DecidableEq, Repr

/-- `a - b` for two values of type `size_t`. -/
def subSize (a b : ℕ) : ℕ := wrapSize (a + 2 ^ 64 - b)

/-- `try_increase_mlock_budget`, the loop that doubles the soft limit; `none` when `fuel` tests are
not enough. -/
def doubledLimit (fuel initialCur size : ℕ) : Option ℕ :=
  whileLoop (fun rlimCur => decide (rlimCur < wrapSize (initialCur + size)))
    (fun rlimCur => wrapSize (rlimCur * 2)) fuel initialCur

/-- `try_increase_mlock_budget`, the limits passed to `setrlimit`. -/
def increasedLimit (fuel size : ℕ) (mlockLimit : Rlimit) : Option Rlimit := do
  let initialCur := mlockLimit.rlimCur
  let rlimCur ← doubledLimit fuel initialCur size
  if mlockLimit.rlimMax < rlimCur then
    if size ≤ subSize mlockLimit.rlimMax initialCur then
      some ⟨mlockLimit.rlimMax, mlockLimit.rlimMax⟩
    else some ⟨rlimCur, rlimCur⟩
  else some ⟨rlimCur, mlockLimit.rlimMax⟩

/-- What `setrlimit` answers. -/
inductive SetrlimitAnswer where
  | success
  | efault
  | einval
  | eperm
  | otherError
deriving DecidableEq, Repr

/-- The ends of the process in `try_increase_mlock_budget`. -/
inductive LockFailure where
  | impossibleAnswer
  | hardLimitNotRaised
deriving DecidableEq, Repr

/-- `try_increase_mlock_budget`, where `getrlimit` yields `mlockLimit`. -/
def tryIncreaseMlockBudget (assertions : Bool) (fuel size : ℕ) (mlockLimit : Rlimit)
    (setrlimit : Rlimit → SetrlimitAnswer) : Option (Except LockFailure Bool) :=
  (increasedLimit fuel size mlockLimit).map fun raised =>
    match setrlimit raised with
    | .success => pure true
    | .efault | .einval => .error .impossibleAnswer
    | .eperm => do
        assertion assertions (decide (mlockLimit.rlimMax < raised.rlimMax)) .hardLimitNotRaised
        pure false
    | .otherError => pure false

/-- The computation ends with limits that leave room for `size` more bytes, and raises the hard
limit only if it has to. -/
def RaisesLimit (size : ℕ) (mlockLimit : Rlimit) : Prop :=
  ∃ fuel raised, increasedLimit fuel size mlockLimit = some raised ∧
    mlockLimit.rlimCur + size ≤ raised.rlimCur ∧ raised.rlimCur ≤ raised.rlimMax ∧
    (size ≤ mlockLimit.rlimMax - mlockLimit.rlimCur → raised.rlimMax = mlockLimit.rlimMax)

variable {fuel size initialCur rlimCur : ℕ} {mlockLimit raised : Rlimit}

/-- The soft limit after `k` rounds. -/
theorem iterate_double (h : initialCur < 2 ^ 64) (k : ℕ) :
    (fun rlimCur => wrapSize (rlimCur * 2))^[k] initialCur = wrapSize (initialCur * 2 ^ k) := by
  induction k with
  | zero =>
      rw [Function.iterate_zero, id, Nat.pow_zero, Nat.mul_one, wrapSize, Nat.mod_eq_of_lt h]
  | succ k ih =>
      rw [Function.iterate_succ_apply', ih, wrapSize, wrapSize, Nat.mod_mul_mod, Nat.pow_succ,
        Nat.mul_assoc]
      rfl

/-- After sixty-four rounds nothing is left of it. -/
theorem wrapSize_mul_two_pow {k : ℕ} (hk : 64 ≤ k) : wrapSize (initialCur * 2 ^ k) = 0 := by
  obtain ⟨d, rfl⟩ := Nat.exists_eq_add_of_le hk
  rw [wrapSize, Nat.pow_add, ← Nat.mul_assoc, Nat.mul_right_comm, Nat.mul_mod_left]

/-- The doubling ends exactly when a power of two brings the limit far enough. -/
theorem exists_doubledLimit_iff (hsize : 0 < size) (hfits : initialCur + size < 2 ^ 64) :
    (∃ fuel rlimCur, doubledLimit fuel initialCur size = some rlimCur) ↔
      ∃ k < 64, initialCur + size ≤ wrapSize (initialCur * 2 ^ k) := by
  have hinitial : initialCur < 2 ^ 64 := by omega
  have htarget : wrapSize (initialCur + size) = initialCur + size := Nat.mod_eq_of_lt hfits
  simp only [doubledLimit, exists_whileLoop_iff, iterate_double hinitial, htarget,
    decide_eq_false_iff_not, Nat.not_lt]
  constructor
  · rintro ⟨k, hk⟩
    refine ⟨k, ?_, hk⟩
    by_contra hlarge
    rw [wrapSize_mul_two_pow (Nat.not_lt.mp hlarge)] at hk
    omega
  · rintro ⟨k, -, hk⟩
    exact ⟨k, hk⟩

/-- What the doubling ends with. -/
theorem le_of_doubledLimit (hfits : initialCur + size < 2 ^ 64)
    (h : doubledLimit fuel initialCur size = some rlimCur) : initialCur + size ≤ rlimCur := by
  obtain ⟨hdone, -⟩ := whileLoop_eq_some h
  rw [decide_eq_false_iff_not, Nat.not_lt, wrapSize, Nat.mod_eq_of_lt hfits] at hdone
  exact hdone

/-- The limits passed to `setrlimit`, when there are any. -/
theorem increasedLimit_spec (hle : mlockLimit.rlimCur ≤ mlockLimit.rlimMax)
    (hmax : mlockLimit.rlimMax < 2 ^ 64) (hfits : mlockLimit.rlimCur + size < 2 ^ 64)
    (h : increasedLimit fuel size mlockLimit = some raised) :
    mlockLimit.rlimCur + size ≤ raised.rlimCur ∧ raised.rlimCur ≤ raised.rlimMax ∧
      (raised.rlimMax = mlockLimit.rlimMax ∨
        mlockLimit.rlimMax < raised.rlimMax ∧ mlockLimit.rlimMax - mlockLimit.rlimCur < size) := by
  obtain ⟨rlimCur, hdoubled, h⟩ := Option.bind_eq_some_iff.mp h
  have hroom := le_of_doubledLimit hfits hdoubled
  have hsub : subSize mlockLimit.rlimMax mlockLimit.rlimCur
      = mlockLimit.rlimMax - mlockLimit.rlimCur := by
    unfold subSize wrapSize
    omega
  rw [hsub] at h
  split at h
  · rename_i hover
    split at h
    · rename_i hhard
      obtain rfl := Option.some.inj h
      exact ⟨by dsimp only; omega, le_rfl, .inl rfl⟩
    · rename_i hhard
      obtain rfl := Option.some.inj h
      exact ⟨hroom, le_rfl, .inr ⟨hover, by omega⟩⟩
  · rename_i hunder
    obtain rfl := Option.some.inj h
    exact ⟨hroom, Nat.not_lt.mp hunder, .inl rfl⟩

/-- Where `setrlimit` refuses limits only as documented, the process does not end. -/
theorem tryIncreaseMlockBudget_returns (assertions : Bool) {setrlimit : Rlimit → SetrlimitAnswer}
    {result : Except LockFailure Bool} (hle : mlockLimit.rlimCur ≤ mlockLimit.rlimMax)
    (hmax : mlockLimit.rlimMax < 2 ^ 64) (hfits : mlockLimit.rlimCur + size < 2 ^ 64)
    (hvalid : ∀ limit, setrlimit limit ≠ .efault)
    (hordered : ∀ limit, setrlimit limit = .einval → limit.rlimMax < limit.rlimCur)
    (hprivilege : ∀ limit, setrlimit limit = .eperm → mlockLimit.rlimMax < limit.rlimMax)
    (h : tryIncreaseMlockBudget assertions fuel size mlockLimit setrlimit = some result) :
    ∃ succeeded, result = .ok succeeded := by
  obtain ⟨raised, hraised, rfl⟩ := Option.map_eq_some_iff.mp h
  obtain ⟨-, hcur, -⟩ := increasedLimit_spec hle hmax hfits hraised
  cases hanswer : setrlimit raised with
  | success => exact ⟨true, rfl⟩
  | efault => exact absurd hanswer (hvalid raised)
  | einval => exact absurd (hordered raised hanswer) (by omega)
  | eperm =>
      have hassert := assertion_of_true assertions LockFailure.hardLimitNotRaised
        (decide_eq_true (hprivilege raised hanswer))
      refine ⟨false, ?_⟩
      simp only [hassert]
      rfl
  | otherError => exact ⟨false, rfl⟩

/-- The limits are computed, and right, exactly when a power of two times the soft limit, modulo
`2 ^ 64`, leaves room for the allocation. -/
theorem raisesLimit_iff (hle : mlockLimit.rlimCur ≤ mlockLimit.rlimMax)
    (hmax : mlockLimit.rlimMax < 2 ^ 64) (hsize : 0 < size)
    (hfits : mlockLimit.rlimCur + size < 2 ^ 64) :
    RaisesLimit size mlockLimit ↔
      ∃ k < 64, mlockLimit.rlimCur + size ≤ wrapSize (mlockLimit.rlimCur * 2 ^ k) := by
  rw [← exists_doubledLimit_iff hsize hfits]
  constructor
  · rintro ⟨fuel, raised, h, -⟩
    obtain ⟨rlimCur, hdoubled, -⟩ := Option.bind_eq_some_iff.mp h
    exact ⟨fuel, rlimCur, hdoubled⟩
  · rintro ⟨fuel, rlimCur, hdoubled⟩
    obtain ⟨raised, hraised⟩ : ∃ raised, increasedLimit fuel size mlockLimit = some raised := by
      simp only [increasedLimit, hdoubled, Option.bind_eq_bind, Option.bind_some]
      split
      · split
        · exact ⟨_, rfl⟩
        · exact ⟨_, rfl⟩
      · exact ⟨_, rfl⟩
    obtain ⟨hroom, hcur, hhard⟩ := increasedLimit_spec hle hmax hfits hraised
    refine ⟨fuel, raised, hraised, hroom, hcur, fun hfree => ?_⟩
    rcases hhard with hsame | ⟨-, hless⟩
    · exact hsame
    · omega

/-- From 64 KiB to more than 1 MiB, below the hard limit. -/
theorem raisesLimit_iff_doubling : RaisesLimit (2 ^ 20) ⟨2 ^ 16, 2 ^ 23⟩ :=
  (raisesLimit_iff (by decide) (by decide) (by decide) (by decide)).mpr ⟨5, by decide, by decide⟩

/-- A soft limit of zero is doubled for ever. -/
theorem zeroLimit_stuck :
    (∀ fuel, increasedLimit fuel 4096 ⟨0, 2 ^ 23⟩ = none) ∧ ¬ RaisesLimit 4096 ⟨0, 2 ^ 23⟩ := by
  have hnever : ∀ fuel, increasedLimit fuel 4096 ⟨0, 2 ^ 23⟩ = none := fun fuel => by
    have hdoubled : doubledLimit fuel 0 4096 = none := by
      rw [Option.eq_none_iff_forall_ne_some]
      intro rlimCur h
      obtain ⟨k, -, hk⟩ := (exists_doubledLimit_iff (by decide) (by decide)).mp ⟨fuel, rlimCur, h⟩
      rw [Nat.zero_mul] at hk
      exact absurd hk (by decide)
    rw [increasedLimit, hdoubled]
    rfl
  refine ⟨hnever, ?_⟩
  rintro ⟨fuel, raised, h, -⟩
  rw [hnever fuel] at h
  cases h

end Udipe

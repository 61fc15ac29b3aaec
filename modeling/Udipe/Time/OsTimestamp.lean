import Udipe.Time.Stopwatch

/-!
# Timestamps of the system clock

Reference: `benchmark.h`.

Two POSIX timestamps are compared by their seconds, and in the same second by their nanoseconds. The
comparison recognises the same second by the nanoseconds of the first timestamp, not by its seconds.
A signed operation that overflows is undefined in C, and a failure here.
-/

namespace Udipe

open Checked

/-- `os_timestamp_t`. -/
abbrev OsTimestamp : Type := Timespec

/-- `signed_duration_ns_t`. -/
abbrev SignedDurationNs : Type := BitVec 64

/-- `os_timestamp_eq`. -/
def osTimestampEq (t1 t2 : OsTimestamp) : Bool := t1.tvSec == t2.tvSec && t1.tvNsec == t2.tvNsec

/-- `os_timestamp_le`. -/
def osTimestampLe (t1 t2 : OsTimestamp) : Bool :=
  t1.tvSec.slt t2.tvSec || (t1.tvNsec == t2.tvSec && t1.tvNsec.sle t2.tvNsec)

/-- The assertion of `os_duration`, and what is undefined in it. -/
inductive OsDurationFailure where
  | startAfterEnd
  | signedOverflow
deriving DecidableEq, Repr

/-- The difference of two `int64_t`. -/
def signedSub (x y : BitVec 64) : Except OsDurationFailure (BitVec 64) := do
  ensure (!x.ssubOverflow y) .signedOverflow
  pure (x - y)

/-- The sum of two `int64_t`. -/
def signedAdd (x y : BitVec 64) : Except OsDurationFailure (BitVec 64) := do
  ensure (!x.saddOverflow y) .signedOverflow
  pure (x + y)

/-- `os_duration`. The seconds turn unsigned before they are multiplied. -/
def osDuration (assertions : Bool) (start stop : OsTimestamp) :
    Except OsDurationFailure SignedDurationNs := do
  assertion assertions (osTimestampLe start stop) .startAfterEnd
  let secs ← signedSub stop.tvSec start.tvSec
  let durationNs := secs * BitVec.ofNat 64 udipeSecond
  let nsecs ← signedSub stop.tvNsec start.tvNsec
  signedAdd durationNs nsecs

/-! ## The order of time -/

variable {assertions : Bool} {t1 t2 : OsTimestamp}

/-- The nanoseconds of a reading are not negative and less than a second. -/
theorem Timespec.tvNsec_bounds (t : Timespec) :
    0 ≤ t.tvNsec.toInt ∧ t.tvNsec.toInt < 1000000000 := by
  have hlt : t.tvNsec.toNat < 1000000000 := t.tvNsec_lt
  rw [t.tvNsec_toInt]
  omega

theorem Timespec.time_eq (t : Timespec) : t.time = t.tvSec.toInt * 1000000000 + t.tvNsec.toInt := by
  rw [t.tvNsec_toInt]
  rfl

/-- Time is ordered by the seconds first. -/
theorem Timespec.time_le_iff (t1 t2 : Timespec) : t1.time ≤ t2.time ↔
    t1.tvSec.toInt < t2.tvSec.toInt ∨
      t1.tvSec.toInt = t2.tvSec.toInt ∧ t1.tvNsec.toInt ≤ t2.tvNsec.toInt := by
  have h1 := t1.tvNsec_bounds
  have h2 := t2.tvNsec_bounds
  rw [t1.time_eq, t2.time_eq]
  omega

theorem Timespec.time_eq_iff (t1 t2 : Timespec) : t1.time = t2.time ↔
    t1.tvSec.toInt = t2.tvSec.toInt ∧ t1.tvNsec.toInt = t2.tvNsec.toInt := by
  have h1 := t1.tvNsec_bounds
  have h2 := t2.tvNsec_bounds
  rw [t1.time_eq, t2.time_eq]
  omega

/-- What `os_timestamp_le` compares. -/
theorem osTimestampLe_iff (t1 t2 : OsTimestamp) : osTimestampLe t1 t2 = true ↔
    t1.tvSec.toInt < t2.tvSec.toInt ∨
      t1.tvNsec.toInt = t2.tvSec.toInt ∧ t1.tvNsec.toInt ≤ t2.tvNsec.toInt := by
  rw [osTimestampLe, Bool.or_eq_true, Bool.and_eq_true, beq_iff_eq, BitVec.slt_iff_toInt_lt,
    BitVec.sle_iff_toInt_le, BitVec.toInt_inj]

/-- `os_timestamp_eq` is equality of time. -/
theorem osTimestampEq_iff (t1 t2 : OsTimestamp) : osTimestampEq t1 t2 = true ↔ t1.time = t2.time := by
  rw [osTimestampEq, Bool.and_eq_true, beq_iff_eq, beq_iff_eq, Timespec.time_eq_iff,
    BitVec.toInt_inj, BitVec.toInt_inj]

/-! ## Durations -/

theorem signedSub_of_fits {x y : BitVec 64} (hlow : -2 ^ 63 ≤ x.toInt - y.toInt)
    (hhigh : x.toInt - y.toInt < 2 ^ 63) :
    ∃ d, signedSub x y = .ok d ∧ d.toInt = x.toInt - y.toInt := by
  have hfits : x.ssubOverflow y = false := by
    simp only [BitVec.ssubOverflow, Bool.or_eq_false_iff, decide_eq_false_iff_not]
    omega
  refine ⟨x - y, ?_, BitVec.toInt_sub_of_not_ssubOverflow (by simp [hfits])⟩
  rw [signedSub, hfits]
  rfl

/-- A sum is computed when it fits, and only then. -/
theorem signedAdd_iff {x y d : BitVec 64} : signedAdd x y = .ok d ↔
    (-2 ^ 63 ≤ x.toInt + y.toInt ∧ x.toInt + y.toInt < 2 ^ 63) ∧ x + y = d := by
  rw [signedAdd, bind_eq_ok]
  simp only [ensure_eq_ok, pure_eq_ok, BitVec.saddOverflow, Bool.not_eq_true', Bool.or_eq_false_iff,
    decide_eq_false_iff_not, not_le, not_lt, exists_const]
  constructor
  · rintro ⟨⟨hhigh, hlow⟩, h⟩
    exact ⟨⟨hlow, hhigh⟩, h⟩
  · rintro ⟨⟨hlow, hhigh⟩, h⟩
    exact ⟨⟨hhigh, hlow⟩, h⟩

/-- The whole seconds between two timestamps, in nanoseconds. -/
def wholeSeconds (t1 t2 : OsTimestamp) : ℤ := (t2.tvSec.toInt - t1.tvSec.toInt) * udipeSecond

/-- Without its assertion, `os_duration` is exact when the whole seconds fit, and only then. -/
theorem osDuration_unchecked_iff (hle : t1.time ≤ t2.time) (hfits : t2.time - t1.time < 2 ^ 63) :
    (∃ d, osDuration false t1 t2 = .ok d ∧ d.toInt = t2.time - t1.time) ↔
      wholeSeconds t1 t2 < 2 ^ 63 := by
  have h1 := t1.tvNsec_bounds
  have h2 := t2.tvNsec_bounds
  rw [t1.time_eq, t2.time_eq] at hle hfits ⊢
  obtain ⟨secs, hsecs, hsecsInt⟩ := signedSub_of_fits (x := t2.tvSec) (y := t1.tvSec)
    (by omega) (by omega)
  obtain ⟨nsecs, hnsecs, hnsecsInt⟩ := signedSub_of_fits (x := t2.tvNsec) (y := t1.tvNsec)
    (by omega) (by omega)
  have hmul : (secs * BitVec.ofNat 64 udipeSecond).toInt = (wholeSeconds t1 t2).bmod (2 ^ 64) := by
    have hsecond : (BitVec.ofNat 64 udipeSecond).toInt = udipeSecond := by decide
    rw [BitVec.toInt_mul, hsecsInt, hsecond, wholeSeconds]
  have hrun : osDuration false t1 t2 = signedAdd (secs * BitVec.ofNat 64 udipeSecond) nsecs := by
    rw [osDuration, assertion_disabled, ok_bind, hsecs, ok_bind, hnsecs, ok_bind]
  generalize secs * BitVec.ofNat 64 udipeSecond = durationNs at hmul hrun
  have hsum : (durationNs + nsecs).toInt
      = (wholeSeconds t1 t2 + (t2.tvNsec.toInt - t1.tvNsec.toInt)).bmod (2 ^ 64) := by
    rw [BitVec.toInt_add, hmul, hnsecsInt, Int.bmod_add_bmod]
  simp only [hrun, signedAdd_iff, hmul, hnsecsInt]
  simp only [wholeSeconds, udipeSecond, Nat.cast_ofNat, Int.bmod_def] at hsum ⊢
  constructor
  · rintro ⟨_, ⟨hbounds, -⟩, -⟩
    omega
  · intro hwhole
    refine ⟨_, ⟨by omega, rfl⟩, ?_⟩
    rw [hsum]
    omega

/-! ## Where the comparison is right -/

/-- What the functions owe a pair of timestamps: the order and the equality of time, and the exact
duration when it fits. -/
structure ComparesTime (assertions : Bool) (t1 t2 : OsTimestamp) : Prop where
  le : osTimestampLe t1 t2 = true ↔ t1.time ≤ t2.time
  eq : osTimestampEq t1 t2 = true ↔ t1.time = t2.time
  duration : t1.time ≤ t2.time → t2.time - t1.time < 2 ^ 63 →
    ∃ d, osDuration assertions t1 t2 = .ok d ∧ d.toInt = t2.time - t1.time

/-- In the same second, if the nanoseconds do not go down, those of the first timestamp happen to equal
the second; they do not when the seconds go down; and whole seconds fit along with the duration. -/
def ComparableFields (t1 t2 : OsTimestamp) : Prop :=
  (t1.tvNsec.toInt ≤ t2.tvNsec.toInt →
    (t1.tvSec = t2.tvSec → t1.tvNsec = t2.tvSec) ∧
      (t2.tvSec.toInt < t1.tvSec.toInt → t1.tvNsec ≠ t2.tvSec)) ∧
    (t1.time ≤ t2.time → t2.time - t1.time < 2 ^ 63 → wholeSeconds t1 t2 < 2 ^ 63)

instance : DecidableRel ComparableFields := fun _ _ => by
  unfold ComparableFields
  infer_instance

/-- With the order right, the assertion of `os_duration` holds. -/
theorem osDuration_eq_unchecked (hle : osTimestampLe t1 t2 = true) :
    osDuration assertions t1 t2 = osDuration false t1 t2 := by
  rw [osDuration, osDuration, assertion_of_true _ _ hle, assertion_of_true _ _ hle]

theorem osTimestampLe_right_iff : (osTimestampLe t1 t2 = true ↔ t1.time ≤ t2.time) ↔
    (t1.tvNsec.toInt ≤ t2.tvNsec.toInt →
      (t1.tvSec = t2.tvSec → t1.tvNsec = t2.tvSec) ∧
        (t2.tvSec.toInt < t1.tvSec.toInt → t1.tvNsec ≠ t2.tvSec)) := by
  rw [osTimestampLe_iff, Timespec.time_le_iff, ne_eq, ← BitVec.toInt_inj, ← BitVec.toInt_inj]
  omega

/-- For every pair of timestamps: the functions compare and subtract times exactly when the fields are
comparable. -/
theorem osTimestamps_compareTime_iff (assertions : Bool) (t1 t2 : OsTimestamp) :
    ComparesTime assertions t1 t2 ↔ ComparableFields t1 t2 := by
  constructor
  · rintro ⟨hle, -, hduration⟩
    refine ⟨osTimestampLe_right_iff.mp hle, fun hbefore hfits => ?_⟩
    have hexact := hduration hbefore hfits
    rw [osDuration_eq_unchecked (hle.mpr hbefore)] at hexact
    exact (osDuration_unchecked_iff hbefore hfits).mp hexact
  · rintro ⟨hfields, hwhole⟩
    have hle := osTimestampLe_right_iff.mpr hfields
    refine ⟨hle, osTimestampEq_iff t1 t2, fun hbefore hfits => ?_⟩
    rw [osDuration_eq_unchecked (hle.mpr hbefore)]
    exact (osDuration_unchecked_iff hbefore hfits).mpr (hwhole hbefore hfits)

/-- Where the fields of all pairs are comparable, `os_timestamp_le` is a total preorder with
`os_timestamp_eq` as its equivalence. -/
theorem osTimestampLe_totalPreorder {ts : Set OsTimestamp}
    (h : ∀ t1 ∈ ts, ∀ t2 ∈ ts, ComparableFields t1 t2) :
    (∀ t1 ∈ ts, ∀ t2 ∈ ts, osTimestampLe t1 t2 = true ∨ osTimestampLe t2 t1 = true) ∧
    (∀ t1 ∈ ts, ∀ t2 ∈ ts, ∀ t3 ∈ ts,
      osTimestampLe t1 t2 = true → osTimestampLe t2 t3 = true → osTimestampLe t1 t3 = true) ∧
    ∀ t1 ∈ ts, ∀ t2 ∈ ts,
      (osTimestampLe t1 t2 = true ∧ osTimestampLe t2 t1 = true) ↔ osTimestampEq t1 t2 = true := by
  have hle : ∀ {t1 t2}, t1 ∈ ts → t2 ∈ ts → (osTimestampLe t1 t2 = true ↔ t1.time ≤ t2.time) :=
    fun h1 h2 => osTimestampLe_right_iff.mpr (h _ h1 _ h2).1
  refine ⟨fun t1 h1 t2 h2 => ?_, fun t1 h1 t2 h2 t3 h3 => ?_, fun t1 h1 t2 h2 => ?_⟩
  · rw [hle h1 h2, hle h2 h1]
    exact le_total _ _
  · rw [hle h1 h2, hle h2 h3, hle h1 h3]
    exact le_trans
  · rw [hle h1 h2, hle h2 h1, osTimestampEq_iff]
    exact antisymm_iff

/-- Two readings within the first second: the assertion of `os_duration` fails. -/
theorem sameSecond_notOrdered : osDuration true (.at 1 5) (.at 1 7) = .error .startAfterEnd ∧
    ¬ ComparesTime true (.at 1 5) (.at 1 7) := by
  refine ⟨by decide, fun h => ?_⟩
  have hle := h.le.mpr (by decide)
  revert hle
  decide

end Udipe

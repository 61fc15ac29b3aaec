import Mathlib.Data.BitVec
import Mathlib.Data.List.Chain
import Mathlib.Tactic.Ring
import Udipe.Lib.Checked

/-!
# Measuring time with a stopwatch

Reference: `stopwatch.h`, `duration.h`.

A measurement subtracts the seconds and the nanoseconds of two clock readings separately. When the
nanoseconds go down it adds a second without having borrowed one, so the result is a second too long.
-/

namespace Udipe

open Checked

/-- `UDIPE_SECOND`, in nanoseconds. -/
abbrev udipeSecond : ℕ := 1000000000

/-- `udipe_duration_ns_t`. -/
abbrev DurationNs : Type := BitVec 64

/-- `struct timespec`, as the clock fills it. -/
structure Timespec where
  tvSec : BitVec 64
  tvNsec : BitVec 64
  tvNsec_lt : tvNsec.toNat < udipeSecond
deriving DecidableEq

/-- The time that a reading stands for, in nanoseconds. -/
def Timespec.time (t : Timespec) : ℤ := t.tvSec.toInt * udipeSecond + t.tvNsec.toNat

/-- `stopwatch_t`. -/
structure Stopwatch where
  lastTime : Timespec
deriving DecidableEq

/-- The assertion of `stopwatch_measure`. -/
inductive StopwatchFailure where
  | secondsWentDown
deriving DecidableEq, Repr

/-- `stopwatch_initialize`, at a reading of the clock. -/
def stopwatchInitialize (now : Timespec) : Stopwatch := ⟨now⟩

/-- `stopwatch_measure`, at a reading of the clock. The difference of the seconds, which are signed, turns
unsigned before it is multiplied. -/
def stopwatchMeasure (assertions : Bool) (stopwatch : Stopwatch) (currentTime : Timespec) :
    Except StopwatchFailure (DurationNs × Stopwatch) := do
  let startTime := stopwatch.lastTime
  assertion assertions (startTime.tvSec.sle currentTime.tvSec) .secondsWentDown
  let seconds := (currentTime.tvSec - startTime.tvSec) * BitVec.ofNat 64 udipeSecond
  let elapsedTime :=
    if startTime.tvNsec.sle currentTime.tvNsec then
      seconds + (currentTime.tvNsec - startTime.tvNsec)
    else seconds + BitVec.ofNat 64 udipeSecond - (startTime.tvNsec - currentTime.tvNsec)
  pure (elapsedTime, ⟨currentTime⟩)

/-- The measurements made at successive readings. -/
def stopwatchMeasurements (assertions : Bool) :
    Stopwatch → List Timespec → Except StopwatchFailure (List DurationNs)
  | _, [] => pure []
  | stopwatch, now :: readings => do
      let (elapsedTime, stopwatch) ← stopwatchMeasure assertions stopwatch now
      let later ← stopwatchMeasurements assertions stopwatch readings
      pure (elapsedTime :: later)

/-! ## What a measurement returns -/

variable {assertions : Bool} {start now : Timespec}

/-- The second that a measurement adds when the nanoseconds go down. -/
def unborrowedSecond (start now : Timespec) : ℕ :=
  if start.tvNsec.toNat ≤ now.tvNsec.toNat then 0 else udipeSecond

theorem Timespec.tvNsec_toInt (t : Timespec) : t.tvNsec.toInt = t.tvNsec.toNat := by
  have hlt : t.tvNsec.toNat < 1000000000 := t.tvNsec_lt
  exact BitVec.toInt_eq_toNat_of_lt (by omega)

/-- The clock does not run backwards: neither do the seconds. -/
theorem Timespec.tvSec_mono (h : start.time ≤ now.time) : start.tvSec.sle now.tvSec = true := by
  have hstart : start.tvNsec.toNat < 1000000000 := start.tvNsec_lt
  have hnow : now.tvNsec.toNat < 1000000000 := now.tvNsec_lt
  rw [BitVec.sle_iff_toInt_le]
  simp only [Timespec.time, udipeSecond] at h
  omega

/-- What a measurement returns: the interval, and the second that was not borrowed, in 64 bits. -/
def measuredTime (start now : Timespec) : DurationNs :=
  ((now.time - start.time + unborrowedSecond start now : ℤ) : DurationNs)

theorem stopwatchMeasure_spec (h : start.time ≤ now.time) :
    stopwatchMeasure assertions ⟨start⟩ now = .ok (measuredTime start now, ⟨now⟩) := by
  rw [stopwatchMeasure, assertion_of_true _ _ (Timespec.tvSec_mono h), ok_bind]
  have hsec : ∀ t : Timespec, ((t.tvSec.toInt : ℤ) : DurationNs) = t.tvSec := fun t =>
    BitVec.ofInt_toInt
  have hnsec : ∀ t : Timespec, ((t.tvNsec.toNat : ℕ) : DurationNs) = t.tvNsec := fun t =>
    BitVec.ofNat_toNat ..
  have hle : start.tvNsec.sle now.tvNsec = true ↔ start.tvNsec.toNat ≤ now.tvNsec.toNat := by
    rw [BitVec.sle_iff_toInt_le, start.tvNsec_toInt, now.tvNsec_toInt, Int.ofNat_le]
  have hsecond : BitVec.ofNat 64 udipeSecond = ((udipeSecond : ℕ) : DurationNs) := rfl
  simp only [measuredTime, unborrowedSecond, Timespec.time, hle, hsecond]
  congr 2
  split
  · rw [Nat.cast_zero, add_zero]
    push_cast
    rw [hsec, hsec, hnsec, hnsec]
    ring
  · push_cast
    rw [hsec, hsec, hnsec, hnsec]
    ring

/-- No second goes missing between the readings, and a duration can hold the interval. -/
def FitsWithoutBorrow (start now : Timespec) : Prop :=
  start.tvNsec.toNat ≤ now.tvNsec.toNat ∧ now.time - start.time < 2 ^ 64

instance : DecidableRel FitsWithoutBorrow := fun _ _ => by
  unfold FitsWithoutBorrow
  infer_instance

theorem measuredTime_toNat (start now : Timespec) : ((measuredTime start now).toNat : ℤ)
    = (now.time - start.time + unborrowedSecond start now) % 2 ^ 64 := by
  have hofInt : measuredTime start now
      = BitVec.ofInt 64 (now.time - start.time + unborrowedSecond start now) := rfl
  rw [hofInt, BitVec.toNat_ofInt]
  omega

/-- A measurement is exact when no second goes missing and the interval fits, and at no other time. -/
theorem measuredTime_exact_iff (h : start.time ≤ now.time) :
    ((measuredTime start now).toNat : ℤ) = now.time - start.time ↔ FitsWithoutBorrow start now := by
  rw [measuredTime_toNat, unborrowedSecond, FitsWithoutBorrow]
  split
  · simp only [*, true_and]
    omega
  · simp only [*, false_and, iff_false, udipeSecond, Nat.cast_ofNat]
    omega

/-! ## Successive measurements -/

/-- The times between successive readings. -/
def intervals : Timespec → List Timespec → List ℤ
  | _, [] => []
  | start, now :: readings => (now.time - start.time) :: intervals now readings

theorem sum_intervals (start : Timespec) (readings : List Timespec) :
    (intervals start readings).sum = (readings.getLastD start).time - start.time := by
  induction readings generalizing start with
  | nil => simp [intervals]
  | cons now readings ih =>
      rw [intervals, List.sum_cons, ih, List.getLastD_cons]
      ring

/-- The clock never runs backwards. -/
abbrev ClockForward (start : Timespec) (readings : List Timespec) : Prop :=
  (start :: readings).IsChain fun a b => a.time ≤ b.time

/-- The measurements are the times between successive readings, and sum up to the whole time. -/
def ExactMeasurements (start : Timespec) (readings : List Timespec) (durations : List DurationNs) :
    Prop :=
  durations.map (fun d => (d.toNat : ℤ)) = intervals start readings ∧
    (durations.map fun d => (d.toNat : ℤ)).sum = (readings.getLastD start).time - start.time

/-- The measurements made by a stopwatch that is started at one reading and asked at the next ones. -/
def measuredTimes : Timespec → List Timespec → List DurationNs
  | _, [] => []
  | start, now :: readings => measuredTime start now :: measuredTimes now readings

theorem stopwatchMeasurements_spec {readings : List Timespec} (hmono : ClockForward start readings) :
    stopwatchMeasurements assertions (stopwatchInitialize start) readings
      = .ok (measuredTimes start readings) := by
  induction readings generalizing start with
  | nil => rfl
  | cons now readings ih =>
      obtain ⟨hle, hmono⟩ := List.isChain_cons_cons.mp hmono
      rw [stopwatchMeasurements, stopwatchInitialize, stopwatchMeasure_spec hle, ok_bind]
      change stopwatchMeasurements assertions (stopwatchInitialize now) readings >>= _ = _
      rw [ih hmono]
      rfl

theorem measuredTimes_exact_iff {readings : List Timespec} (hmono : ClockForward start readings) :
    (measuredTimes start readings).map (fun d => (d.toNat : ℤ)) = intervals start readings ↔
      (start :: readings).IsChain FitsWithoutBorrow := by
  induction readings generalizing start with
  | nil => simp [measuredTimes, intervals]
  | cons now readings ih =>
      obtain ⟨hle, hmono⟩ := List.isChain_cons_cons.mp hmono
      rw [measuredTimes, intervals, List.map_cons, List.cons.injEq, measuredTime_exact_iff hle,
        ih hmono, List.isChain_cons_cons]

/-- Over every sequence of readings of a clock that does not run backwards: no assertion fails, and the
measurements are exact exactly when the nanoseconds never go down and every interval fits a duration. -/
theorem stopwatch_exact_iff {start : Timespec} {readings : List Timespec}
    (hmono : ClockForward start readings) :
    (∃ durations, stopwatchMeasurements assertions (stopwatchInitialize start) readings = .ok durations ∧
        ExactMeasurements start readings durations) ↔
      (start :: readings).IsChain FitsWithoutBorrow := by
  rw [stopwatchMeasurements_spec hmono, ← measuredTimes_exact_iff hmono]
  constructor
  · rintro ⟨_, hok, hexact, -⟩
    cases hok
    exact hexact
  · intro hexact
    exact ⟨_, rfl, hexact, by rw [hexact, sum_intervals]⟩

/-- A reading in the first `2 ^ 63` seconds. -/
def Timespec.at (sec nsec : ℕ) (h : nsec < udipeSecond := by decide) : Timespec where
  tvSec := BitVec.ofNat 64 sec
  tvNsec := BitVec.ofNat 64 nsec
  tvNsec_lt := by
    rw [BitVec.toNat_ofNat]
    exact (Nat.mod_le ..).trans_lt h

/-- A quarter of a second, then a second and a half. -/
theorem stopwatch_exact_iff_steps :
    ∃ durations, stopwatchMeasurements true (stopwatchInitialize (.at 1 250000000))
        [.at 1 500000000, .at 3 500000000] = .ok durations ∧
      ExactMeasurements (.at 1 250000000) [.at 1 500000000, .at 3 500000000] durations :=
  (stopwatch_exact_iff (by decide)).mpr (by decide)

/-- Two tenths of a second over the turn of a second are measured as one second and two tenths. -/
theorem stopwatch_addsSecond :
    stopwatchMeasurements true (stopwatchInitialize (.at 1 900000000)) [.at 2 100000000]
        = .ok [BitVec.ofNat 64 1200000000] ∧
      ¬ ∃ durations, stopwatchMeasurements true (stopwatchInitialize (.at 1 900000000))
            [.at 2 100000000] = .ok durations ∧
          ExactMeasurements (.at 1 900000000) [.at 2 100000000] durations := by
  have hok : stopwatchMeasurements true (stopwatchInitialize (.at 1 900000000)) [.at 2 100000000]
      = .ok [BitVec.ofNat 64 1200000000] := by
    rw [stopwatchMeasurements_spec (by decide)]
    decide
  refine ⟨hok, ?_⟩
  rintro ⟨durations, hdurations, -, hsum⟩
  obtain rfl := Except.ok.inj (hok.symm.trans hdurations)
  revert hsum
  decide

end Udipe

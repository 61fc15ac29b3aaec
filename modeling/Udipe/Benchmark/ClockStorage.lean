import Udipe.Future.Status
import Udipe.Lib.Checked
import Udipe.Lib.Machine
import Udipe.Memory.Buffer

/-!
# The timestamp storage of the clocks

Reference: `benchmark.c`, `benchmark.h`, `memory.h`.

A clock owns a buffer for two timestamps per run. It is allocated when the clock is initialized,
replaced when a measurement needs more runs than it has room for, and liberated when the clock is
finalized. The system clock stores the two timestamps of a run side by side, the TSC clock stores
all starts before all ends.

The contents of the buffer play no part: it is known by the size that it was asked for, which
`realtime_liberate` must be given again. An index into memory that exists does not wrap, so indices
are natural numbers. A system that refuses memory ends the process, and such a run has no further
step.
-/

namespace Udipe

open Checked

/-- `THRESHOLD_NRUNS`. -/
def thresholdNruns : ℕ := 64 * 1024

/-- `SIGNAL_NRUNS`. -/
def signalNruns : ℕ := 64 * 1024

/-- `AFFINE_NRUNS`. -/
def affineNruns : ℕ := 64 * 1024

/-- The check of `realtime_allocate`, the contract of `realtime_liberate`, the bounds of the buffer
and the assertions of the duration callbacks. -/
inductive StorageFailure where
  | emptyAllocation
  | wrongLiberationSize
  | accessOutOfBounds
  | runOutOfRange
  | tooManyRuns
deriving DecidableEq, Repr

/-- The storage fields of a clock. In place of the pointer stands the size that its buffer was
allocated with. -/
structure ClockStorage where
  size : ℕ
  numDurations : ℕ
deriving DecidableEq, Repr

/-- `2 * n * sizeof(entry)`. -/
def storageSize (entrySize n : ℕ) : ℕ := wrapSize (2 * n * entrySize)

/-- `realtime_allocate` for `n` durations. -/
def allocateStorage (entrySize n : ℕ) : Except StorageFailure ClockStorage := do
  ensure (decide (0 < storageSize entrySize n)) .emptyAllocation
  pure ⟨storageSize entrySize n, n⟩

/-- `realtime_liberate`. -/
def liberateStorage (s : ClockStorage) (size : ℕ) : Except StorageFailure Unit :=
  ensure (s.size == size) .wrongLiberationSize

/-- The reallocation at the start of a measurement. -/
def reserveDurations (entrySize numRuns : ℕ) (s : ClockStorage) :
    Except StorageFailure ClockStorage :=
  if s.numDurations < numRuns then do
    liberateStorage s (storageSize entrySize s.numDurations)
    allocateStorage entrySize numRuns
  else pure s

/-- Where the timestamps of a run are, given the number of runs of the measurement. -/
structure ClockLayout where
  entrySize : ℕ
  startIndex : ℕ → ℕ → ℕ
  endIndex : ℕ → ℕ → ℕ
  startIndex_lt : ∀ {numRuns run}, run < numRuns → startIndex numRuns run < 2 * numRuns
  endIndex_lt : ∀ {numRuns run}, run < numRuns → endIndex numRuns run < 2 * numRuns
  /-- The last timestamp is at the end of the buffer. -/
  endIndex_last : ∀ numRuns, endIndex (numRuns + 1) numRuns + 1 = 2 * (numRuns + 1)

/-- `timestamps[2*run]` and `timestamps[2*run+1]`, of type `struct timespec`. -/
def osLayout : ClockLayout where
  entrySize := 16
  startIndex := fun _ run => 2 * run
  endIndex := fun _ run => 2 * run + 1
  startIndex_lt := by intro numRuns run h; omega
  endIndex_lt := by intro numRuns run h; omega
  endIndex_last := by intro numRuns; omega

/-- `starts[run]` and `ends[run]`, of type `x86_instant`. -/
def x86Layout : ClockLayout where
  entrySize := 8
  startIndex := fun _ run => run
  endIndex := fun numRuns run => numRuns + run
  startIndex_lt := by intro numRuns run h; omega
  endIndex_lt := by intro numRuns run h; omega
  endIndex_last := by intro numRuns; omega

/-- A read or a write of an entry. -/
def accessEntry (L : ClockLayout) (s : ClockStorage) (index : ℕ) : Except StorageFailure Unit :=
  ensure (decide ((index + 1) * L.entrySize ≤ s.size)) .accessOutOfBounds

/-- The accesses to the two timestamps of a run. -/
def accessRun (L : ClockLayout) (numRuns : ℕ) (s : ClockStorage) (run : ℕ) :
    Except StorageFailure Unit := do
  accessEntry L s (L.startIndex numRuns run)
  accessEntry L s (L.endIndex numRuns run)

/-- The calls of `compute_duration` in `compute_duration_distribution`. -/
def computeDurations (computeDuration : ℕ → Except StorageFailure Unit) (numRuns : ℕ) :
    Except StorageFailure Unit :=
  forRangeE 0 numRuns () fun _ run => computeDuration run

/-- What `os_clock_measure` and `x86_clock_measure` have in common. -/
def measureWithLayout (L : ClockLayout)
    (computeDuration : ClockStorage → ℕ → Except StorageFailure Unit) (numRuns : ℕ)
    (s : ClockStorage) : Except StorageFailure ClockStorage := do
  let s ← reserveDurations L.entrySize numRuns s
  forRangeE 0 numRuns () fun _ run => accessRun L numRuns s run
  computeDurations (computeDuration s) numRuns
  pure s

variable (b : Build)

/-- `compute_os_duration`. -/
def computeOsDuration (numRuns : ℕ) (s : ClockStorage) (run : ℕ) : Except StorageFailure Unit := do
  assertion b.assertions (decide (run < s.numDurations)) .runOutOfRange
  accessRun osLayout numRuns s run

/-- `os_clock_measure`. -/
def osClockMeasure (numRuns : ℕ) (s : ClockStorage) : Except StorageFailure ClockStorage :=
  measureWithLayout osLayout (computeOsDuration b numRuns) numRuns s

/-- The capacity that `os_clock_initialize` computes. -/
def osMaxRuns : ℕ :=
  let maxRuns := thresholdNruns
  let maxRuns := if maxRuns < signalNruns then signalNruns else maxRuns
  if maxRuns < affineNruns then affineNruns else maxRuns

/-- `os_clock_initialize`. How often it measures depends on what it measures. -/
def osClockInitialize (thresholdMeasurements signalMeasurements : ℕ) :
    Except StorageFailure ClockStorage := do
  let s ← allocateStorage osLayout.entrySize osMaxRuns
  let s ← forRangeE 0 thresholdMeasurements s fun s _ => osClockMeasure b thresholdNruns s
  forRangeE 0 signalMeasurements s fun s _ => osClockMeasure b signalNruns s

/-- `os_clock_finalize`. -/
def osClockFinalize (s : ClockStorage) : Except StorageFailure Unit :=
  liberateStorage s (wrapSize ((s.numDurations + 1) * osLayout.entrySize))

/-- `compute_x86_duration`. -/
def computeX86Duration (numRuns : ℕ) (s : ClockStorage) (run : ℕ) :
    Except StorageFailure Unit := do
  assertion b.assertions (decide (run < numRuns)) .runOutOfRange
  assertion b.assertions (decide (numRuns < s.numDurations)) .tooManyRuns
  accessRun x86Layout numRuns s run

/-- `x86_clock_measure`. -/
def x86ClockMeasure (numRuns : ℕ) (s : ClockStorage) : Except StorageFailure ClockStorage :=
  measureWithLayout x86Layout (computeX86Duration b numRuns) numRuns s

/-- `x86_clock_initialize`. -/
def x86ClockInitialize : Except StorageFailure ClockStorage := do
  let s ← allocateStorage x86Layout.entrySize affineNruns
  let s ← x86ClockMeasure b affineNruns s
  x86ClockMeasure b affineNruns s

/-- `x86_clock_finalize`. -/
def x86ClockFinalize (s : ClockStorage) : Except StorageFailure Unit :=
  liberateStorage s (storageSize x86Layout.entrySize s.numDurations)

/-! ## One call -/

/-- The buffer has exactly the size that its number of durations asks for. -/
structure ClockStorage.Sized (L : ClockLayout) (s : ClockStorage) : Prop where
  size : s.size = 2 * s.numDurations * L.entrySize
  fits : s.size < 2 ^ 64
  capacity : affineNruns ≤ s.numDurations

section

variable {b} {L : ClockLayout} {s s' : ClockStorage} {numRuns run : ℕ}
  {computeDuration : ClockStorage → ℕ → Except StorageFailure Unit}

theorem storageSize_of_fits {entrySize n : ℕ} (h : 2 * n * entrySize < 2 ^ 64) :
    storageSize entrySize n = 2 * n * entrySize :=
  Nat.mod_eq_of_lt h

namespace ClockStorage.Sized

theorem storageSize_eq (h : s.Sized L) : storageSize L.entrySize s.numDurations = s.size := by
  rw [storageSize_of_fits (h.size ▸ h.fits), h.size]

/-- The buffer is liberated with the size that it was allocated with. -/
theorem liberateStorage (h : s.Sized L) :
    liberateStorage s (storageSize L.entrySize s.numDurations) = .ok () :=
  ensure_of_true _ (beq_iff_eq.mpr h.storageSize_eq.symm)

end ClockStorage.Sized

theorem reserveDurations_of_le (h : numRuns ≤ s.numDurations) :
    reserveDurations L.entrySize numRuns s = .ok s :=
  if_neg (not_lt.mpr h)

theorem reserveDurations_of_lt (hs : s.Sized L) (h : s.numDurations < numRuns) :
    reserveDurations L.entrySize numRuns s = allocateStorage L.entrySize numRuns := by
  rw [reserveDurations, if_pos h, hs.liberateStorage, ok_bind]

theorem allocateStorage_of_pos {entrySize n : ℕ} (h : 0 < storageSize entrySize n) :
    allocateStorage entrySize n = .ok ⟨storageSize entrySize n, n⟩ := by
  rw [allocateStorage, ensure_of_true _ (decide_eq_true h), ok_bind]
  rfl

theorem accessRun_eq_ok :
    accessRun L numRuns s run = .ok () ↔
      (L.startIndex numRuns run + 1) * L.entrySize ≤ s.size ∧
        (L.endIndex numRuns run + 1) * L.entrySize ≤ s.size := by
  simp [accessRun, accessEntry, bind_eq_ok, ensure_eq_ok]

/-- The accesses of a measurement stay inside the buffer exactly when it is large enough for the
runs. -/
theorem accessRun_forall :
    (∀ run < numRuns, accessRun L numRuns s run = .ok ()) ↔ 2 * numRuns * L.entrySize ≤ s.size := by
  constructor
  · intro h
    cases numRuns with
    | zero => simp
    | succ n =>
        have hlast := (accessRun_eq_ok.mp (h n n.lt_succ_self)).2
        rwa [L.endIndex_last] at hlast
  · intro h run hrun
    have hentry : ∀ index < 2 * numRuns, (index + 1) * L.entrySize ≤ s.size := fun index hindex =>
      (Nat.mul_le_mul_right _ hindex).trans h
    exact accessRun_eq_ok.mpr ⟨hentry _ (L.startIndex_lt hrun), hentry _ (L.endIndex_lt hrun)⟩

/-- When a measurement returns, it has room for its runs. -/
theorem measureWithLayout_eq_ok :
    measureWithLayout L computeDuration numRuns s = .ok s' ↔
      reserveDurations L.entrySize numRuns s = .ok s' ∧ 2 * numRuns * L.entrySize ≤ s'.size ∧
        ∀ run < numRuns, computeDuration s' run = .ok () := by
  simp only [measureWithLayout, computeDurations, bind_eq_ok, pure_eq_ok]
  constructor
  · rintro ⟨t, hreserve, _, haccess, _, hcompute, rfl⟩
    exact ⟨hreserve, accessRun_forall.mp (forRangeE_checks.mp haccess),
      forRangeE_checks.mp hcompute⟩
  · rintro ⟨hreserve, hroom, hcompute⟩
    exact ⟨s', hreserve, (), forRangeE_checks.mpr (accessRun_forall.mpr hroom), (),
      forRangeE_checks.mpr hcompute, rfl⟩

/-- A measurement that returns has left storage of the right size. -/
theorem ClockStorage.Sized.measure (hs : s.Sized L)
    (h : measureWithLayout L computeDuration numRuns s = .ok s') : s'.Sized L ∧
    numRuns ≤ s'.numDurations := by
  obtain ⟨hreserve, hroom, -⟩ := measureWithLayout_eq_ok.mp h
  rcases Nat.lt_or_ge s.numDurations numRuns with hlt | hge
  · rw [reserveDurations_of_lt hs hlt, allocateStorage, bind_eq_ok] at hreserve
    obtain ⟨-, -, hreserve⟩ := hreserve
    obtain rfl := pure_eq_ok.mp hreserve
    have hwrapped : storageSize L.entrySize numRuns < 2 ^ 64 := Nat.mod_lt _ (by decide)
    have heq : storageSize L.entrySize numRuns = 2 * numRuns * L.entrySize :=
      storageSize_of_fits (lt_of_le_of_lt hroom hwrapped)
    exact ⟨⟨heq, hwrapped, hs.capacity.trans hlt.le⟩, le_rfl⟩
  · rw [reserveDurations_of_le hge] at hreserve
    obtain rfl := Except.ok.inj hreserve
    exact ⟨hs, hge⟩

/-- A check of the accesses or of an assertion does not ask for memory. -/
abbrev IsViolation (failure : StorageFailure) : Prop := failure ≠ .emptyAllocation

theorem failsWith_accessRun : FailsWith IsViolation (accessRun L numRuns s run) := by
  simp [accessRun, accessEntry]

/-- A measurement that does not return asked for no memory, or violates the storage. -/
theorem measureWithLayout_eq_emptyAllocation (hs : s.Sized L)
    (hcompute : ∀ s run, FailsWith IsViolation (computeDuration s run)) :
    measureWithLayout L computeDuration numRuns s = .error .emptyAllocation ↔
      s.numDurations < numRuns ∧ storageSize L.entrySize numRuns = 0 := by
  constructor
  · intro h
    obtain hreserve | ⟨t, -, h⟩ := bind_eq_error.mp h
    · rcases Nat.lt_or_ge s.numDurations numRuns with hlt | hge
      · rw [reserveDurations_of_lt hs hlt] at hreserve
        have hpos := mt allocateStorage_of_pos (by rw [hreserve]; simp)
        exact ⟨hlt, Nat.eq_zero_of_not_pos hpos⟩
      · rw [reserveDurations_of_le hge] at hreserve
        cases hreserve
    have hviolation : FailsWith IsViolation (forRangeE 0 numRuns () (fun _ run =>
        accessRun L numRuns t run) >>= fun _ =>
          computeDurations (computeDuration t) numRuns >>= fun _ => pure t) := by
      refine failsWith_bind.mpr ⟨failsWith_forRangeE fun _ _ => failsWith_accessRun, fun _ _ =>
        failsWith_bind.mpr ⟨failsWith_forRangeE fun _ _ => hcompute _ _, fun _ _ =>
          failsWith_pure t⟩⟩
    exact absurd rfl (hviolation _ h)
  · rintro ⟨hlt, hzero⟩
    rw [measureWithLayout, reserveDurations_of_lt hs hlt, allocateStorage, hzero]
    rfl

/-! ### The clock of the system -/

theorem computeOsDuration_eq_ok (hroom : 2 * numRuns * 16 ≤ s.size)
    (hcapacity : numRuns ≤ s.numDurations) (hrun : run < numRuns) :
    computeOsDuration b numRuns s run = .ok () := by
  rw [computeOsDuration, assertion_of_true _ _ (decide_eq_true (hrun.trans_le hcapacity)), ok_bind]
  exact accessRun_forall.mpr hroom run hrun

theorem failsWith_computeOsDuration :
    FailsWith IsViolation (computeOsDuration b numRuns s run) := by
  simp [computeOsDuration, failsWith_accessRun]

/-- A measurement that finds enough room leaves the storage as it is. -/
theorem osClockMeasure_of_le (hs : s.Sized osLayout) (hle : numRuns ≤ s.numDurations) :
    osClockMeasure b numRuns s = .ok s := by
  have hroom : 2 * numRuns * 16 ≤ s.size := by
    have hsize : s.size = 2 * s.numDurations * 16 := hs.size
    omega
  exact measureWithLayout_eq_ok.mpr ⟨reserveDurations_of_le hle, hroom, fun run hrun =>
    computeOsDuration_eq_ok hroom hle hrun⟩

/-- A measurement with the clock of the system returns when the size of its timestamps does not
wrap. -/
theorem osClockMeasure_exists_ok (hs : s.Sized osLayout) :
    (∃ s', osClockMeasure b numRuns s = .ok s') ↔ 2 * numRuns * 16 < 2 ^ 64 := by
  constructor
  · rintro ⟨s', h⟩
    obtain ⟨hs', hle⟩ := hs.measure h
    have hsize : s'.size = 2 * s'.numDurations * 16 := hs'.size
    have hfits := hs'.fits
    omega
  · intro hfits
    rcases Nat.lt_or_ge s.numDurations numRuns with hlt | hge
    · have hsize : storageSize osLayout.entrySize numRuns = 2 * numRuns * 16 :=
        storageSize_of_fits hfits
      refine ⟨⟨2 * numRuns * 16, numRuns⟩, measureWithLayout_eq_ok.mpr ⟨?_, le_rfl, fun run hrun =>
        computeOsDuration_eq_ok le_rfl le_rfl hrun⟩⟩
      rw [reserveDurations_of_lt hs hlt, allocateStorage_of_pos (by omega), hsize]
    · exact ⟨s, osClockMeasure_of_le hs hge⟩

/-- The storage of a fresh clock. -/
theorem allocateStorage_sized {n : ℕ} (hfits : 2 * n * L.entrySize < 2 ^ 64)
    (hpos : 0 < 2 * n * L.entrySize) (hcapacity : affineNruns ≤ n) :
    ∃ s, allocateStorage L.entrySize n = .ok s ∧ s.Sized L ∧ s.numDurations = n := by
  have hsize := storageSize_of_fits hfits
  refine ⟨_, allocateStorage_of_pos (hsize ▸ hpos), ⟨hsize, ?_, hcapacity⟩, rfl⟩
  rwa [hsize]

/-- The calibration of the clock of the system keeps to the storage. -/
theorem osClockInitialize_exists_ok (thresholdMeasurements signalMeasurements : ℕ) :
    ∃ s, osClockInitialize b thresholdMeasurements signalMeasurements = .ok s ∧
    s.Sized osLayout := by
  have hround : ∀ s : ClockStorage, s.Sized osLayout →
      Ends (·.Sized osLayout) (fun _ => False) (osClockMeasure b thresholdNruns s) := by
    intro s hs
    obtain ⟨s', h⟩ := (osClockMeasure_exists_ok (b := b) hs).mpr
      (by decide : 2 * thresholdNruns * 16 < 2 ^ 64)
    rw [h]
    exact (hs.measure h).1
  obtain ⟨s, hallocate, hs, -⟩ := allocateStorage_sized (L := osLayout) (n := osMaxRuns)
    (by decide) (by decide) (by decide)
  refine Ends.exists_ok ?_
  rw [osClockInitialize, hallocate, ok_bind]
  refine ends_bind (ends_forRangeE_induction 0 _ s _ (fun _ => (·.Sized osLayout)) hs
    fun _ t _ _ ht => hround t ht) fun t ht => ?_
  exact ends_forRangeE_induction 0 _ t _ (fun _ => (·.Sized osLayout)) ht
    fun _ t _ _ ht => hround t ht

/-- The clock of the system is finalized with a size that its buffer never has. -/
theorem osClockFinalize_eq (hs : s.Sized osLayout) :
    osClockFinalize s = .error .wrongLiberationSize := by
  have hsize : s.size = 2 * s.numDurations * 16 := hs.size
  have hfits := hs.fits
  have hcapacity : 65536 ≤ s.numDurations := hs.capacity
  have hwrong : s.size ≠ wrapSize ((s.numDurations + 1) * 16) := by
    rw [wrapSize, Nat.mod_eq_of_lt (by omega)]
    omega
  exact ensure_eq_error.mpr ⟨beq_eq_false_iff_ne.mpr hwrong, rfl⟩

/-! ### The TSC clock -/

theorem computeX86Duration_eq_ok (hroom : 2 * numRuns * 8 ≤ s.size) (hrun : run < numRuns) :
    computeX86Duration b numRuns s run = .ok () ↔
      (b.assertions = true → numRuns < s.numDurations) := by
  have haccess : accessRun x86Layout numRuns s run = .ok () :=
    accessRun_forall.mpr hroom run hrun
  simp [computeX86Duration, bind_eq_ok, assertion_eq_ok, hrun, haccess]

theorem failsWith_computeX86Duration :
    FailsWith IsViolation (computeX86Duration b numRuns s run) := by
  simp [computeX86Duration, failsWith_accessRun]

/-- With its assertions, a measurement with the TSC clock returns when it needs less than the room
there is. -/
theorem x86ClockMeasure_exists_ok (hs : s.Sized x86Layout) :
    (∃ s', x86ClockMeasure ⟨true⟩ numRuns s = .ok s') ↔ numRuns < s.numDurations := by
  have hcapacity : 65536 ≤ s.numDurations := hs.capacity
  have hsize : s.size = 2 * s.numDurations * 8 := hs.size
  constructor
  · rintro ⟨s', h⟩
    obtain ⟨hreserve, hroom, hcompute⟩ := measureWithLayout_eq_ok.mp h
    rcases Nat.lt_or_ge s.numDurations numRuns with hlt | hge
    · have hless := (computeX86Duration_eq_ok hroom (by omega)).mp (hcompute 0 (by omega)) rfl
      rw [reserveDurations_of_lt hs hlt, allocateStorage, bind_eq_ok] at hreserve
      obtain ⟨-, -, hreserve⟩ := hreserve
      obtain rfl := pure_eq_ok.mp hreserve
      exact absurd hless (lt_irrefl numRuns)
    · rw [reserveDurations_of_le hge] at hreserve
      obtain rfl := Except.ok.inj hreserve
      rcases Nat.eq_zero_or_pos numRuns with rfl | hpos
      · omega
      · exact (computeX86Duration_eq_ok hroom hpos).mp (hcompute 0 hpos) rfl
  · intro hlt
    have hroom : 2 * numRuns * 8 ≤ s.size := by omega
    exact ⟨s, measureWithLayout_eq_ok.mpr ⟨reserveDurations_of_le hlt.le, hroom, fun run hrun =>
      (computeX86Duration_eq_ok hroom hrun).mpr fun _ => hlt⟩⟩

theorem x86ClockInitialize_sized (h : x86ClockInitialize b = .ok s) : s.Sized x86Layout := by
  obtain ⟨t, hallocate, ht, -⟩ := allocateStorage_sized (L := x86Layout) (n := affineNruns)
    (by decide) (by decide) le_rfl
  rw [x86ClockInitialize, hallocate, ok_bind, bind_eq_ok] at h
  obtain ⟨u, hfirst, hsecond⟩ := h
  exact ((ht.measure hfirst).1.measure hsecond).1

/-- The calibration of the TSC clock measures as many runs as there is room for, which an assertion
excludes. -/
theorem x86ClockInitialize_fails :
    ∃ failure, x86ClockInitialize ⟨true⟩ = .error failure ∧ failure ≠ .emptyAllocation := by
  obtain ⟨s, hallocate, hs, hcapacity⟩ := allocateStorage_sized (L := x86Layout) (n := affineNruns)
    (by decide) (by decide) le_rfl
  have hfails : ¬ ∃ s', x86ClockMeasure ⟨true⟩ affineNruns s = .ok s' :=
    (x86ClockMeasure_exists_ok hs).not.mpr (by omega)
  cases h : x86ClockMeasure ⟨true⟩ affineNruns s with
  | ok s' => exact absurd ⟨s', h⟩ hfails
  | error failure =>
      refine ⟨failure, ?_, ?_⟩
      · rw [x86ClockInitialize, hallocate, ok_bind, h]
        rfl
      · rintro rfl
        obtain ⟨hlt, -⟩ := (measureWithLayout_eq_emptyAllocation hs
          fun _ _ => failsWith_computeX86Duration).mp h
        omega

theorem x86ClockFinalize_eq (hs : s.Sized x86Layout) : x86ClockFinalize s = .ok () :=
  hs.liberateStorage

end

/-! ## The two clocks as machines -/

/-- The two clocks. -/
inductive ClockKind where
  | os
  | x86
deriving DecidableEq, Repr

/-- The calls that a clock receives. -/
inductive ClockCall where
  | clockInitialize (thresholdMeasurements signalMeasurements : ℕ)
  | clockMeasure (numRuns : ℕ)
  | clockFinalize
deriving DecidableEq, Repr

namespace ClockKind

/-- The layout of a clock. -/
def layout : ClockKind → ClockLayout
  | os => osLayout
  | x86 => x86Layout

/-- The storage of a clock has room for two entries per duration. -/
def HasRoom (kind : ClockKind) (s : ClockStorage) : Prop :=
  2 * s.numDurations * kind.layout.entrySize ≤ s.size

/-- The initialization of a clock. -/
def clockInitialize (kind : ClockKind) (thresholdMeasurements signalMeasurements : ℕ) :
    Except StorageFailure ClockStorage :=
  match kind with
  | os => osClockInitialize b thresholdMeasurements signalMeasurements
  | x86 => x86ClockInitialize b

/-- A measurement with a clock. -/
def clockMeasure (kind : ClockKind) (numRuns : ℕ) (s : ClockStorage) :
    Except StorageFailure ClockStorage :=
  match kind with
  | os => osClockMeasure b numRuns s
  | x86 => x86ClockMeasure b numRuns s

/-- The finalization of a clock. -/
def clockFinalize (kind : ClockKind) (s : ClockStorage) : Except StorageFailure Unit :=
  match kind with
  | os => osClockFinalize s
  | x86 => x86ClockFinalize s

/-- The outcome of a call, none if the clock is not in the state for it. The clock has no storage
before its initialization and after its finalization. -/
def apply (kind : ClockKind) :
    Option ClockStorage → ClockCall → Option (Except StorageFailure (Option ClockStorage))
  | none, .clockInitialize threshold signal =>
      some (some <$> kind.clockInitialize b threshold signal)
  | some s, .clockMeasure numRuns => some (some <$> kind.clockMeasure b numRuns s)
  | some s, .clockFinalize => some ((fun _ => none) <$> kind.clockFinalize s)
  | _, _ => none

/-- The machine of a clock. -/
def machine (kind : ClockKind) : Machine (Option ClockStorage) ClockCall where
  step s call := (kind.apply b s call).bind Except.toOption

/-- The call keeps to the storage: all its checks hold and it leaves a clock that has room, unless
no memory was asked for, which ends the process. -/
def Safe (kind : ClockKind) (outcome : Except StorageFailure (Option ClockStorage)) : Prop :=
  Ends (fun st => ∀ s ∈ st, kind.HasRoom s) (· = .emptyAllocation) outcome

/-- The measurement asks for more room than there is, and for none at all. -/
def AsksForNothing (kind : ClockKind) (numRuns : ℕ) (s : ClockStorage) : Prop :=
  s.numDurations < numRuns ∧ storageSize kind.layout.entrySize numRuns = 0

/-- The calls that keep to the storage. -/
def CallOk (kind : ClockKind) (st : Option ClockStorage) : ClockCall → Prop
  | .clockInitialize _ _ => kind = os
  | .clockMeasure numRuns =>
      match kind with
      | os => 2 * numRuns * 16 < 2 ^ 64 ∨ ∀ s ∈ st, os.AsksForNothing numRuns s
      | x86 => ∀ s ∈ st, numRuns < s.numDurations ∨ x86.AsksForNothing numRuns s
  | .clockFinalize => kind = x86

variable {b} {kind : ClockKind} {st st' : Option ClockStorage} {s s' : ClockStorage} {numRuns : ℕ}

theorem hasRoom_of_sized (h : s.Sized kind.layout) : kind.HasRoom s := h.size.ge

theorem clockInitialize_sized {threshold signal : ℕ}
    (h : kind.clockInitialize b threshold signal = .ok s) : s.Sized kind.layout := by
  cases kind with
  | os =>
      obtain ⟨t, hok, ht⟩ := osClockInitialize_exists_ok (b := b) threshold signal
      obtain rfl := Except.ok.inj (hok.symm.trans h)
      exact ht
  | x86 => exact x86ClockInitialize_sized h

theorem clockMeasure_sized (hs : s.Sized kind.layout) (h : kind.clockMeasure b numRuns s = .ok s') :
    s'.Sized kind.layout := by
  cases kind with
  | os => exact (hs.measure h).1
  | x86 => exact (hs.measure h).1

theorem apply_clockInitialize {threshold signal : ℕ} :
    kind.apply b none (.clockInitialize threshold signal) =
      some (some <$> kind.clockInitialize b threshold signal) := rfl

theorem step_of_apply {call : ClockCall} (h : kind.apply b st call = some (.ok st')) :
    (kind.machine b).step st call = some st' :=
  Option.bind_eq_some_iff.mpr ⟨_, h, rfl⟩

/-- What a call leaves behind. -/
theorem apply_sized {call : ClockCall} (hst : ∀ s ∈ st, s.Sized kind.layout)
    (h : kind.apply b st call = some (.ok st')) : ∀ s ∈ st', s.Sized kind.layout := by
  cases st with
  | none =>
      cases call with
      | clockInitialize threshold signal =>
          obtain ⟨s, hok, rfl⟩ := map_eq_ok.mp (Option.some.inj h)
          rintro _ ⟨⟩
          exact clockInitialize_sized hok
      | clockMeasure => cases h
      | clockFinalize => cases h
  | some s =>
      cases call with
      | clockInitialize => cases h
      | clockMeasure numRuns =>
          obtain ⟨s', hok, rfl⟩ := map_eq_ok.mp (Option.some.inj h)
          rintro _ ⟨⟩
          exact clockMeasure_sized (hst s rfl) hok
      | clockFinalize =>
          obtain ⟨_, -, rfl⟩ := map_eq_ok.mp (Option.some.inj h)
          rintro _ ⟨⟩

/-- A clock has storage of the right size throughout. -/
theorem run_sized {calls : List ClockCall} (h : (kind.machine b).run none calls = some st) :
    ∀ s ∈ st, s.Sized kind.layout := by
  refine Machine.invariant_of_run (I := fun st => ∀ s ∈ st, s.Sized kind.layout) ?_ (by simp) h
  intro st call st' hst hstep
  obtain ⟨outcome, happly, hok⟩ := Option.bind_eq_some_iff.mp hstep
  cases outcome with
  | ok t =>
      obtain rfl := Option.some.inj hok
      exact apply_sized hst happly
  | error failure => cases hok

/-! ### Which calls are safe -/

theorem safe_initialize_iff {threshold signal : ℕ} :
    kind.Safe (some <$> kind.clockInitialize ⟨true⟩ threshold signal) ↔ kind = os := by
  cases kind with
  | os =>
      obtain ⟨s, hok, hs⟩ := osClockInitialize_exists_ok (b := ⟨true⟩) threshold signal
      rw [clockInitialize, hok]
      refine iff_of_true ?_ rfl
      rintro _ ⟨⟩
      exact hasRoom_of_sized hs
  | x86 =>
      obtain ⟨failure, hfails, hviolation⟩ := x86ClockInitialize_fails
      rw [clockInitialize, hfails]
      exact iff_of_false hviolation (by decide)

/-- A measurement is safe when it returns or asks for nothing. -/
theorem safe_measure_iff (hs : s.Sized kind.layout) :
    kind.Safe (some <$> kind.clockMeasure ⟨true⟩ numRuns s) ↔
      (∃ s', kind.clockMeasure ⟨true⟩ numRuns s = .ok s') ∨ kind.AsksForNothing numRuns s := by
  have hempty : kind.clockMeasure ⟨true⟩ numRuns s = .error .emptyAllocation ↔
      kind.AsksForNothing numRuns s := by
    cases kind with
    | os => exact measureWithLayout_eq_emptyAllocation hs fun _ _ => failsWith_computeOsDuration
    | x86 => exact measureWithLayout_eq_emptyAllocation hs fun _ _ => failsWith_computeX86Duration
  rw [← hempty]
  cases h : kind.clockMeasure ⟨true⟩ numRuns s with
  | ok s' =>
      refine iff_of_true ?_ (.inl ⟨s', rfl⟩)
      rintro _ ⟨⟩
      exact hasRoom_of_sized (clockMeasure_sized hs h)
  | error failure =>
      exact ⟨fun hsafe => .inr (congrArg Except.error hsafe),
        Or.rec (fun ⟨_, hok⟩ => nomatch hok) Except.error.inj⟩

theorem safe_finalize_iff (hs : s.Sized kind.layout) :
    kind.Safe ((fun _ => none) <$> kind.clockFinalize s) ↔ kind = x86 := by
  cases kind with
  | os =>
      rw [clockFinalize, osClockFinalize_eq hs]
      exact iff_of_false (fun h : StorageFailure.wrongLiberationSize
        = .emptyAllocation => nomatch h)
        (by decide)
  | x86 =>
      rw [clockFinalize, x86ClockFinalize_eq hs]
      exact iff_of_true (fun _ h => nomatch h) rfl

theorem safe_iff_callOk {call : ClockCall} {outcome : Except StorageFailure (Option ClockStorage)}
    (hst : ∀ s ∈ st, s.Sized kind.layout) (h : kind.apply ⟨true⟩ st call = some outcome) :
    kind.Safe outcome ↔ kind.CallOk st call := by
  cases st with
  | none =>
      cases call with
      | clockInitialize threshold signal =>
          obtain rfl := Option.some.inj h
          exact safe_initialize_iff
      | clockMeasure => cases h
      | clockFinalize => cases h
  | some s =>
      have hs := hst s rfl
      cases call with
      | clockInitialize => cases h
      | clockMeasure numRuns =>
          obtain rfl := Option.some.inj h
          rw [safe_measure_iff hs]
          cases kind with
          | os =>
              have hok : (∃ s', osClockMeasure ⟨true⟩ numRuns s = .ok s') ↔
                2 * numRuns * 16 < 2 ^ 64 :=
                osClockMeasure_exists_ok hs
              simp [clockMeasure, hok, CallOk]
          | x86 =>
              have hok : (∃ s', x86ClockMeasure ⟨true⟩ numRuns s = .ok s') ↔
                numRuns < s.numDurations :=
                x86ClockMeasure_exists_ok hs
              simp [clockMeasure, hok, CallOk]
      | clockFinalize =>
          obtain rfl := Option.some.inj h
          exact safe_finalize_iff hs

end ClockKind

/-- In every run of either clock, in builds with and without assertions: the clock reached has room
for exactly two timestamps per duration, and the next call keeps to the storage exactly when it is a
measurement with the clock of the system that does not overflow a size, a measurement with the TSC
clock of fewer runs than it has room for, the initialization of the clock of the system or the
finalization of the TSC clock. -/
theorem clockStorage_safe_iff (kind : ClockKind) {calls : List ClockCall} {st : Option ClockStorage}
    (hrun : (kind.machine b).run none calls = some st) :
    (∀ s ∈ st, s.size = 2 * s.numDurations * kind.layout.entrySize) ∧
      ∀ call outcome, kind.apply ⟨true⟩ st call = some outcome →
        (kind.Safe outcome ↔ kind.CallOk st call) :=
  ⟨fun s hs => (ClockKind.run_sized hrun s hs).size,
    fun _ _ => ClockKind.safe_iff_callOk (ClockKind.run_sized hrun)⟩

/-- The storage of the system's clock after its calibration. -/
def calibratedStorage : ClockStorage where
  size := 2097152
  numDurations := 65536

theorem calibratedStorage_sized : calibratedStorage.Sized osLayout where
  size := by decide
  fits := by decide
  capacity := by decide

/-- The clock of the system is initialized, and measures once for that. -/
theorem run_clockInitialize :
    (ClockKind.os.machine ⟨true⟩).run none [.clockInitialize 1 0]
      = some (some calibratedStorage) := by
  have hallocate : allocateStorage osLayout.entrySize osMaxRuns = .ok calibratedStorage := rfl
  have hmeasure : osClockMeasure ⟨true⟩ thresholdNruns calibratedStorage = .ok calibratedStorage :=
    osClockMeasure_of_le calibratedStorage_sized (by decide)
  have hok : osClockInitialize ⟨true⟩ 1 0 = .ok calibratedStorage := by
    rw [osClockInitialize, hallocate, ok_bind, forRangeE, List.range'_one,
      List.foldlM_cons, hmeasure]
    rfl
  refine (Machine.run_cons_eq_some _).mpr ⟨_, ClockKind.step_of_apply ?_, Machine.run_nil _ _⟩
  rw [ClockKind.apply_clockInitialize, ClockKind.clockInitialize, hok]
  rfl

/-- The system's clock is liberated with 65537 entries in place of 131072, and the calibration of
the TSC clock measures 65536 runs where an assertion wants fewer than that. -/
theorem clockStorage_violations :
    (ClockKind.os.machine ⟨true⟩).run none [.clockInitialize 1 0] = some (some calibratedStorage) ∧
      ¬ ClockKind.os.Safe ((fun _ => none) <$> osClockFinalize calibratedStorage) ∧
      ¬ ClockKind.x86.Safe (some <$> x86ClockInitialize ⟨true⟩) := by
  refine ⟨run_clockInitialize, ?_, ?_⟩
  · exact (@ClockKind.safe_finalize_iff .os _ calibratedStorage_sized).not.mpr (by decide)
  · exact (@ClockKind.safe_initialize_iff .x86 0 0).not.mpr
      (by decide)

theorem clockStorage_safe_iff_calibrated :
    (∀ s ∈ some calibratedStorage, s.size = 2 * s.numDurations * ClockKind.os.layout.entrySize) ∧
      ∀ call outcome, ClockKind.os.apply ⟨true⟩ (some calibratedStorage) call = some outcome →
        (ClockKind.os.Safe outcome ↔ ClockKind.os.CallOk (some calibratedStorage) call) :=
  clockStorage_safe_iff ⟨true⟩ .os run_clockInitialize

end Udipe

import Udipe.Benchmark.DistributionPool
import Udipe.Lib.Machine

/-!
# The calibration of the clocks

Reference: `benchmark.c`, `benchmark/distribution.c`, `benchmark/outlier_filter.c`,
`benchmark/statistics.c`.

`os_clock_initialize` and `x86_clock_initialize` in a row, with the functions that they call. Each
function is the code of its operations on distributions. Where a condition is about measured values,
both outcomes are possible, and a loop over values or resamples has any number of rounds. The code
of a `do` or `while` loop is a block, so that `continue` and `break` are jumps.
-/

namespace Udipe

open Typestate

/-- The conditions of the calibration. -/
inductive CalibrationQuestion where
  | isSet (f : CalibrationFlag)
  /-- `dist->num_bins == dist->capacity`. -/
  | binsAreFull
  /-- `num_deleted_bins > 0`. -/
  | rejectsSome
  /-- `changes_stats.low_tail_bound.low <= 0.0`. -/
  | changeIsUnclear
  /-- `changes_stats.mean.low < fmax(..)`. -/
  | snrIsTooLow
  /-- `changes_diff_stats.mean.low > clock_resolution || ..`. -/
  | slopeChanged
  /-- `slope_estimate_dispersion < best_slope_estimate_dispersion`. -/
  | slopeIsBetter
deriving DecidableEq, Repr

/-- The functions and loops of the calibration. -/
inductive CalibrationLabel where
  | benchmarkClockInitialize
  | osClockInitialize
  | findThreshold
  | optimizeSnr
  | locateAffine
  | osClockReturn
  | x86ClockInitialize
deriving DecidableEq, Repr

/-- The code of the calibration. -/
abbrev CalibrationCode : Type := Code DistributionInstr CalibrationQuestion CalibrationLabel

open Code DistributionInstr DistributionVar CalibrationFlag CalibrationQuestion CalibrationLabel

/-! ## Operations on distributions -/

/-- `distribution_insert`, once or more often. An empty builder has room, and
`distribution_create_bin` moves a full one to storage of twice the capacity. -/
def distributionInsertCode (dst : DistributionVar) (next : CalibrationCode) : CalibrationCode :=
  block [insert dst] <|
  iterate
    (ask binsAreFull
      (block [allocate newDist, insert newDist, free dst, move dst newDist, forget [newDist]] stop)
      (block [insert dst] stop))
    next

/-- `dst = distribution_sub(&empty_builder, &minuend, &subtrahend)`. -/
def distributionSubCode (dst emptyBuilder minuend subtrahend : DistributionVar)
    (next : CalibrationCode) :
    CalibrationCode :=
  block [ensureEmpty emptyBuilder, use minuend, use subtrahend] <|
  distributionInsertCode emptyBuilder <|
  block [build dst emptyBuilder] next

/-- `dst = distribution_scaled_div(&empty_builder, &num, factor, &denom)`. -/
def distributionScaledDivCode (dst emptyBuilder num denom : DistributionVar)
    (next : CalibrationCode) :
    CalibrationCode :=
  block [ensureEmpty emptyBuilder, use num, use denom] <|
  distributionInsertCode emptyBuilder <|
  block [build dst emptyBuilder] next

/-- `dst = distribution_scale(&empty_builder, factor, &src)`, for a factor other than zero. Storage
that is too small is replaced. -/
def distributionScaleCode (dst emptyBuilder src : DistributionVar) (next : CalibrationCode) :
    CalibrationCode :=
  block [ensureEmpty emptyBuilder, use src] <|
  optionally (block [free emptyBuilder, allocate emptyBuilder] stop) <|
  block [insert emptyBuilder, build dst emptyBuilder] next

/-- `compute_scores`. -/
def computeScoresCode (next : CalibrationCode) : CalibrationCode :=
  let rest := distributionInsertCode lastScores <|
    block [build lastScores lastScores, assign scoresAreBuilt true] next
  ask (isSet scoresAreBuilt) (block [reset lastScores lastScores] rest) rest

/-- `reject_bins`. -/
def rejectBinsCode (next : CalibrationCode) : CalibrationCode :=
  let rest := ask rejectsSome
    (distributionInsertCode lastRejections <|
      block [build lastRejections lastRejections, assign rejectionsAreBuilt true] next)
    next
  ask (isSet rejectionsAreBuilt) (block [reset lastRejections lastRejections] rest) rest

/-- `outlier_filter_apply`. -/
def outlierFilterApplyCode (target : DistributionVar) (next : CalibrationCode) : CalibrationCode :=
  block [ensureFilled target] <|
  computeScoresCode <|
  block [use lastScores] <|
  rejectBinsCode next

/-- The log of the filter's reports in `compute_duration_distribution`. -/
def logReports : CalibrationCode :=
  block [use lastScores] <|
  ask (isSet rejectionsAreBuilt) (block [use lastRejections] stop) stop

/-- `compute_duration_distribution`, which is what `os_clock_measure` and `x86_clock_measure` do
with distributions: `dst = os_clock_measure(.., &empty_builder)`. -/
def clockMeasureCode (dst emptyBuilder : DistributionVar) (next : CalibrationCode) :
    CalibrationCode :=
  block [ensureEmpty emptyBuilder] <|
  distributionInsertCode emptyBuilder <|
  outlierFilterApplyCode emptyBuilder <|
  optionally logReports <|
  block [build dst emptyBuilder, use dst] next

/-- `analyzer_apply(analyzer, &dist)`. -/
def analyzerApplyCode (dist : DistributionVar) (next : CalibrationCode) : CalibrationCode :=
  block [use dist] <|
  iterate
    (block [ensureEmpty resampleBuilder, use dist] <|
      distributionInsertCode resampleBuilder <|
      block [build resample resampleBuilder, use resample, reset resampleBuilder resample,
        forget [resample]] stop)
    next

/-- `x86_duration(&xclock, &tmp_builder, &ticks, analyzer)`. -/
def x86DurationCode (tmpBuilder ticks : DistributionVar) (next : CalibrationCode) :
    CalibrationCode :=
  distributionScaledDivCode tmpDurations tmpBuilder ticks frequencies <|
  analyzerApplyCode tmpDurations <|
  block [reset tmpBuilder tmpDurations, forget [tmpDurations]] next

/-! ## The calibration -/

/-- The local variables of `x86_clock_initialize`. -/
def x86Locals : List DistributionVar := [builder, baseTicks, doubleTicks, changeTicks]

/-- The end of a round of the loop that locates the affine region. -/
def leaveAffineRound (l : CalibrationLabel) : CalibrationCode :=
  block [forget [builder, prevChanges, predictedChanges, changesDiff]] (goto l)

/-- The code of the calibration. -/
def calibrationBlock : CalibrationLabel → CalibrationCode
  | benchmarkClockInitialize =>
      block [allocate lastScores, allocate lastRejections, assign scoresAreBuilt false,
        assign rejectionsAreBuilt false, allocate resampleBuilder] <|
      goto osClockInitialize
  | osClockInitialize =>
      block [request builder] <|
      clockMeasureCode prevDurations builder <|
      block [forget [builder], use prevDurations] <|
      goto findThreshold
  | findThreshold =>
      block [request builder] <|
      clockMeasureCode currDurations builder <|
      optionally (block [use currDurations, use prevDurations, use currDurations] stop) <|
      block [request builder] <|
      distributionSubCode currChanges builder currDurations prevDurations <|
      block [recycle prevDurations] <|
      analyzerApplyCode currChanges <|
      ask changeIsUnclear
        (block [move prevDurations currDurations, forget [currDurations], recycle currChanges,
          forget [builder]] <| goto findThreshold)
        (block [forget [builder]] <| goto optimizeSnr)
  | optimizeSnr =>
      ask snrIsTooLow
        (block [move prevDurations currDurations, request builder] <|
          clockMeasureCode currDurations builder <|
          block [reset builder currChanges] <|
          distributionSubCode currChanges builder currDurations prevDurations <|
          block [recycle prevDurations] <|
          analyzerApplyCode currChanges <|
          block [forget [builder]] <| goto optimizeSnr)
        (block [assign inAffineRange false] <| goto locateAffine)
  | locateAffine =>
      block [move prevDurations currDurations, forget [currDurations],
        move prevChanges currChanges, forget [currChanges], request builder] <|
      clockMeasureCode currDurations builder <|
      block [request builder] <|
      distributionSubCode currChanges builder currDurations prevDurations <|
      block [recycle prevDurations] <|
      analyzerApplyCode currChanges <|
      block [request builder] <|
      distributionScaleCode predictedChanges builder prevChanges <|
      block [reset builder prevChanges] <|
      distributionSubCode changesDiff builder currChanges predictedChanges <|
      block [recycle predictedChanges] <|
      analyzerApplyCode changesDiff <|
      block [recycle changesDiff] <|
      ask slopeChanged
        (ask (isSet inAffineRange) (leaveAffineRound osClockReturn) (leaveAffineRound locateAffine))
        (ask (isSet inAffineRange)
          (ask slopeIsBetter
            (block [recycle bestEmptyChanges, clone bestEmptyChanges currChanges] <|
              leaveAffineRound locateAffine)
            (leaveAffineRound locateAffine))
          (block [assign inAffineRange true, clone bestEmptyChanges currChanges] <|
            leaveAffineRound locateAffine))
  | osClockReturn =>
      block [recycle currDurations, recycle currChanges,
        forget [prevDurations, currDurations, currChanges]] <|
      goto x86ClockInitialize
  | x86ClockInitialize =>
      block [request builder] <|
      clockMeasureCode baseTicks builder <|
      block [request builder] <|
      clockMeasureCode doubleTicks builder <|
      block [request builder] <|
      distributionSubCode changeTicks builder doubleTicks baseTicks <|
      block [recycle baseTicks, recycle doubleTicks] <|
      analyzerApplyCode changeTicks <|
      block [request builder] <|
      distributionScaledDivCode frequencies builder changeTicks bestEmptyChanges <|
      analyzerApplyCode frequencies <|
      block [request builder] <|
      x86DurationCode builder changeTicks <|
      block [recycle changeTicks] <|
      last (forget x86Locals)

/-- The calibration as a program. Its memory answers the questions about flags. -/
def calibrationProgram :
    Program DistributionInstr CalibrationQuestion CalibrationLabel OwnershipFailure
      DistributionMemory ℕ where
  block := calibrationBlock
  exec := fun i address m => i.exec address m
  answer := fun q m =>
    match q with
    | isSet f => some (m.flag f)
    | _ => none

/-- A point of a calibration. -/
abbrev CalibrationState : Type :=
  Config DistributionInstr CalibrationQuestion CalibrationLabel DistributionMemory

/-- `sizeof(distribution_builder_t)`. -/
def distributionBuilderSize : ℕ := 24

/-- `distribution_pool_initialize`, with nothing allocated yet. -/
def distributionPoolInitialize (pageSize : ℕ) : Option DistributionMemory :=
  let capacity := pageSize / distributionBuilderSize
  if capacity ≠ 0 then
    some {
      held := fun _ => none
      stage := fun _ => none
      length := 0
      capacity := capacity
      flag := fun _ => false }
  else none

/-- The calibrations. A choice is the outcome of a condition and the address that `malloc`
returns. -/
def calibration : Machine CalibrationState (Choice ℕ) where
  step s choice := (calibrationProgram.step s choice).bind Except.toOption

/-! ## What is owned at each label -/

/-- The variables, for a comparison of two tables. -/
def DistributionVar.all : List DistributionVar :=
  [lastScores, lastRejections, resampleBuilder, bestEmptyChanges, frequencies, builder, newDist,
    resample, prevDurations, currDurations, currChanges, prevChanges, predictedChanges, changesDiff,
    baseTicks, doubleTicks, changeTicks, tmpDurations]

/-- The flags, for a comparison of two tables. -/
def CalibrationFlag.all : List CalibrationFlag :=
    [scoresAreBuilt, rejectionsAreBuilt, inAffineRange]

theorem DistributionVar.mem_all (v : DistributionVar) : v ∈ DistributionVar.all := by
  cases v <;> decide

theorem CalibrationFlag.mem_all (f : CalibrationFlag) : f ∈ CalibrationFlag.all := by
  cases f <;> decide

instance : DecidableEq StageTable := fun t t' =>
  decidable_of_iff
    ((∀ v ∈ DistributionVar.all, t.stage v = t'.stage v) ∧ ∀ f ∈ CalibrationFlag.all, t.flag f
      = t'.flag f)
    ⟨fun ⟨hstage, hflag⟩ => by
      obtain ⟨stage, flag⟩ := t
      obtain ⟨stage', flag'⟩ := t'
      rw [StageTable.mk.injEq]
      exact ⟨funext fun v => hstage v v.mem_all, funext fun f => hflag f f.mem_all⟩,
    fun h => ⟨fun _ _ => h ▸ rfl, fun _ _ => h ▸ rfl⟩⟩

/-- The table of a list of owners and a list of flags. -/
def stageTable (owned : List (DistributionVar × StorageStage)) (flags : List CalibrationFlag) :
    StageTable where
  stage := fun v => (owned.find? fun entry => entry.1 = v).map Prod.snd
  flag := fun f => f ∈ flags

/-- What the filter and the analyzer own between measurements, when the report of the filter is at
`stage`. -/
def reportTable (stage : StorageStage) (owned : List (DistributionVar × StorageStage))
    (flags : List CalibrationFlag) : StageTable :=
  stageTable
    ((lastScores, .built) :: (lastRejections, stage) :: (resampleBuilder, .empty) :: owned)
    (scoresAreBuilt :: flags)

/-- What is owned between measurements: nothing has been rejected so far, or something has. A report
is stale when the last measurement rejected nothing and an earlier one something. -/
def reportTables (stale : Bool) (owned : List (DistributionVar × StorageStage))
    (flags : List CalibrationFlag) : List StageTable :=
  [reportTable .empty owned flags, reportTable .built owned (rejectionsAreBuilt :: flags)] ++
    if stale then [reportTable .empty owned (rejectionsAreBuilt :: flags)] else []

/-- What is owned at each label, with stale reports or without. -/
def tablesAt (stale : Bool) : CalibrationLabel → List StageTable
  | benchmarkClockInitialize => [stageTable [] []]
  | osClockInitialize =>
      [stageTable [(lastScores, .empty), (lastRejections, .empty), (resampleBuilder, .empty)] []]
  | findThreshold => reportTables stale [(prevDurations, .built)] []
  | optimizeSnr => reportTables stale [(currDurations, .built), (currChanges, .built)] []
  | locateAffine =>
      reportTables stale [(currDurations, .built), (currChanges, .built)] [] ++
        reportTables stale [(currDurations, .built), (currChanges, .built), (bestEmptyChanges, .built)]
          [inAffineRange]
  | osClockReturn =>
      reportTables stale [(currDurations, .built), (currChanges, .built), (bestEmptyChanges, .built)]
        [inAffineRange]
  | x86ClockInitialize => reportTables stale [(bestEmptyChanges, .built)] [inAffineRange]

/-- The operation takes the report of the filter for a distribution. -/
def DistributionInstr.readsReport : DistributionInstr → Bool
  | use lastRejections => true
  | reset lastRejections lastRejections => true
  | _ => false

/-- The analysis of the calibration. Unless reports may be `stale`, a measurement that rejects nothing
after one that did is left out; if they may, reading one is where the calibration fails. And
`x86_clock_initialize` returns with a builder in a local variable. -/
def calibrationAnalysis (stale : Bool) :
    Analysis DistributionInstr CalibrationQuestion CalibrationLabel StageTable where
  transfer := DistributionInstr.transfer
  fails := fun i t =>
    stale && i.readsReport && t.flag rejectionsAreBuilt &&
      decide (t.stage lastRejections = some .empty)
  admits := fun q answer t =>
    match q with
    | isSet f => t.flag f == answer
    | rejectsSome => stale || answer || !t.flag rejectionsAreBuilt
    | _ => true
  expects := fun l t => decide (t ∈ tablesAt stale l)
  final := fun i t => decide (i = forget x86Locals) && decide (t.stage builder = some .empty)

/-- The calibration is accepted. -/
theorem calibrationBlock_accepted (stale : Bool) (l : CalibrationLabel) :
    ∀ t ∈ tablesAt stale l,
      (calibrationAnalysis stale).check (calibrationBlock l) t (fun _ => false) = true := by
  cases stale <;> cases l <;> decide +kernel

/-- A measurement rejects something, or nothing has been rejected before. -/
def freshReport (s : CalibrationState) (choice : Choice ℕ) : Bool :=
  match s.code with
  | ask rejectsSome _ _ => choice.answer || !s.memory.flag rejectionsAreBuilt
  | _ => true

/-- A report that has been reset is not a distribution. -/
theorem DistributionInstr.exec_readsReport {i : DistributionInstr} {m : DistributionMemory}
    (hreads : i.readsReport = true) (hstage : m.stageOf lastRejections = some .empty)
    (address : ℕ) : i.exec address m = some (.error .notADistribution) := by
  have hne : m.stageOf lastRejections ≠ some .built := by
    rw [hstage]
    decide
  unfold readsReport at hreads
  split at hreads
  · exact if_pos hne
  · exact if_pos hne
  · cases hreads

theorem calibrationAnalysis_fails {stale : Bool} {i : DistributionInstr} {t : StageTable} :
    (calibrationAnalysis stale).fails i t = true ↔
      stale = true ∧ i.readsReport = true ∧ t.flag rejectionsAreBuilt = true ∧
        t.stage lastRejections = some .empty := by
  simp [calibrationAnalysis, and_assoc]

theorem calibrationAnalysis_sound (stale : Bool) :
    (calibrationAnalysis stale).Sound calibrationProgram DistributionMemory.Has
      (fun s choice => stale = true ∨ freshReport s choice = true) where
  exec := DistributionInstr.exec_has
  fails := by
    intro i address m t outcome hm hfails hexec
    obtain ⟨-, hreads, -, hstage⟩ := calibrationAnalysis_fails.mp hfails
    have herror : calibrationProgram.exec i address m = some (.error .notADistribution) :=
      DistributionInstr.exec_readsReport hreads ((hm.stages _).trans hstage) address
    exact ⟨_, Option.some.inj (hexec.symm.trans herror)⟩
  answer := by
    intro q yes no m t choice hm hcond hanswer
    cases q with
    | isSet f =>
        have hflag : m.flag f = choice.answer := by
          by_contra hne
          exact hanswer (congrArg some (Bool.eq_not_of_ne hne))
        exact beq_iff_eq.mpr (hm.flags ▸ hflag)
    | rejectsSome =>
        rw [freshReport, hm.flags] at hcond
        obtain rfl | hfresh := hcond
        · rfl
        · have hanswer : (choice.answer || !t.flag rejectionsAreBuilt) = true := hfresh
          simp only [calibrationAnalysis, Bool.or_assoc]
          rw [hanswer, Bool.or_true]
    | binsAreFull => rfl
    | changeIsUnclear => rfl
    | snrIsTooLow => rfl
    | slopeChanged => rfl
    | slopeIsBetter => rfl
  blocks := fun l t h => calibrationBlock_accepted stale l t (of_decide_eq_true h)

/-! ## Runs -/

variable {s s' : CalibrationState} {choice : Choice ℕ} {stale : Bool} {pageSize : ℕ}

/-- Every allocation has one owner and what is done next does not fail. -/
def OwnershipHolds (s : CalibrationState) : Prop :=
  s.memory.Lawful ∧ ∀ choice outcome,
    calibrationProgram.step s choice = some outcome → ∃ s', outcome = .ok s'

/-- What is done next takes the report of the filter for a distribution. It has been reset, since the
last measurement rejected nothing, and `last_rejections.is_built` is still set. -/
def ReadsStaleReport (s : CalibrationState) : Prop :=
  ∃ i next, s.code = instr i next ∧ i.readsReport = true ∧
    s.memory.flag rejectionsAreBuilt = true ∧ s.memory.stageOf lastRejections = some .empty

/-- An accepted point of the calibration, or its end with a leak. -/
def CalibrationInvariant (stale : Bool) (s : CalibrationState) : Prop :=
  (calibrationAnalysis stale).Accepts DistributionMemory.Has s ∨
    (s.code = stop ∧ ¬ s.memory.Lawful)

theorem step_eq_some : calibration.step s choice = some s' ↔
    calibrationProgram.step s choice = some (.ok s') := by
  rw [calibration, Option.bind_eq_some_iff]
  constructor
  · rintro ⟨outcome, hstep, hok⟩
    cases outcome with
    | ok t => rw [hstep, Option.some.inj hok]
    | error failure => cases hok
  · exact fun h => ⟨_, h, rfl⟩

/-- The return of `x86_clock_initialize` loses a builder. -/
theorem x86Return_leaks {t : StageTable} {i : DistributionInstr} (hcode : s.code = last i)
    (hm : s.memory.Has t) (hfinal : (calibrationAnalysis stale).final i t = true)
    (hstep : calibrationProgram.step s choice = some (.ok s')) :
    s'.code = stop ∧ ¬ s'.memory.Lawful := by
  obtain ⟨hinstr, hbuilder⟩ := (Bool.and_eq_true _ _).mp hfinal
  obtain rfl := of_decide_eq_true hinstr
  obtain ⟨code, m⟩ := s
  obtain rfl : code = last (forget x86Locals) := hcode
  obtain rfl : (⟨stop, x86Locals.foldl DistributionMemory.clear m⟩ : CalibrationState) = s' :=
    Except.ok.inj (Option.some.inj hstep)
  refine ⟨rfl, hm.forget_leaks (v := builder) (by decide) ?_⟩
  rw [of_decide_eq_true hbuilder]
  simp

theorem CalibrationInvariant.step (h : CalibrationInvariant stale s)
    (hfresh : stale = true ∨ freshReport s choice = true)
    (hstep : calibration.step s choice = some s') : CalibrationInvariant stale s' := by
  rw [step_eq_some] at hstep
  obtain haccepts | ⟨hstop, -⟩ := h
  · obtain ⟨t, hok, hnext⟩ | ⟨i, next, t, failure, -, -, -, herror⟩ | ⟨i, t, hcode, hm, hfinal⟩ :=
      (calibrationAnalysis_sound stale).step haccepts hfresh hstep
    · obtain rfl := Except.ok.inj hok
      exact .inl hnext
    · cases herror
    · exact .inr (x86Return_leaks hcode hm hfinal hstep)
  · rw [Program.step, hstop] at hstep
    cases hstep

/-- Each allocation has one owner before the end, and not at the end. -/
theorem CalibrationInvariant.lawful_iff (h : CalibrationInvariant stale s) :
    s.memory.Lawful ↔ s.code ≠ stop := by
  obtain haccepts | ⟨hstop, hleak⟩ := h
  · refine iff_of_true ?_ haccepts.code_ne_stop
    obtain ⟨t, hm, -⟩ := haccepts
    exact hm.lawful
  · exact iff_of_false hleak (not_not.mpr hstop)

/-- The read of a stale report fails. -/
theorem ReadsStaleReport.fails (h : ReadsStaleReport s) (choice : Choice ℕ) :
    calibrationProgram.step s choice = some (.error .notADistribution) := by
  obtain ⟨i, next, hcode, hreads, -, hstage⟩ := h
  have hexec : calibrationProgram.exec i choice.offer s.memory = some (.error .notADistribution) :=
    DistributionInstr.exec_readsReport hreads hstage choice.offer
  rw [Program.step, hcode]
  dsimp only
  rw [hexec]
  rfl

/-- Nothing else fails. -/
theorem CalibrationInvariant.holds_iff (h : CalibrationInvariant true s) :
    OwnershipHolds s ↔ s.code ≠ stop ∧ ¬ ReadsStaleReport s := by
  constructor
  · rintro ⟨hlawful, hsteps⟩
    refine ⟨h.lawful_iff.mp hlawful, fun hreads => ?_⟩
    obtain ⟨s', hok⟩ := hsteps ⟨true, 0⟩ _ (hreads.fails _)
    cases hok
  · rintro ⟨hstop, hreads⟩
    refine ⟨h.lawful_iff.mpr hstop, fun choice outcome hstep => ?_⟩
    have haccepts := h.resolve_right fun hend => hstop hend.1
    obtain ⟨s', rfl, -⟩ | ⟨i, next, t, failure, hcode, hm, hfails, rfl⟩ | ⟨i, t, hcode, -, hfinal⟩ :=
      (calibrationAnalysis_sound true).step haccepts (.inl rfl) hstep
    · exact ⟨s', rfl⟩
    · obtain ⟨-, hreport, hflag, hstage⟩ := calibrationAnalysis_fails.mp hfails
      exact absurd ⟨i, next, hcode, hreport, hm.flags ▸ hflag, (hm.stages _).trans hstage⟩ hreads
    · obtain ⟨hinstr, -⟩ := (Bool.and_eq_true _ _).mp hfinal
      obtain rfl := of_decide_eq_true hinstr
      obtain ⟨code, m⟩ := s
      obtain rfl : code = last (forget x86Locals) := hcode
      exact ⟨_, (Option.some.inj hstep).symm⟩

/-- Where every measurement leaves a fresh report, no stale one is read. -/
theorem CalibrationInvariant.not_readsStaleReport (h : CalibrationInvariant false s) :
    ¬ ReadsStaleReport s := by
  rintro ⟨i, next, hcode, hreads, -, hstage⟩
  obtain ⟨t, hm, hcheck⟩ | ⟨hstop, -⟩ := h
  · rw [hcode] at hcheck
    obtain hfails | ⟨t', htransfer, -⟩ := Analysis.check_instr.mp hcheck
    · exact Bool.false_ne_true (calibrationAnalysis_fails.mp hfails).1
    · obtain ⟨m', hok, -⟩ := DistributionInstr.exec_has hm htransfer
        (DistributionInstr.exec_readsReport hreads hstage 0)
      cases hok
  · rw [hstop] at hcode
    cases hcode

theorem distributionPoolInitialize_invariant {m : DistributionMemory}
    (h : distributionPoolInitialize pageSize = some m) :
    CalibrationInvariant stale ⟨goto benchmarkClockInitialize, m⟩ := by
  obtain ⟨hcapacity, hm⟩ := Option.ite_none_right_eq_some.mp h
  obtain rfl := Option.some.inj hm
  have hstart : (calibrationAnalysis stale).check (goto benchmarkClockInitialize) (stageTable [] [])
      (fun _ => false) = true := by cases stale <;> decide
  refine .inl ⟨stageTable [] [], ⟨⟨⟨?_, ?_⟩, ?_, ?_, ?_⟩, fun _ => rfl, rfl⟩, hstart⟩
  · rintro _ _ _ ⟨⟩
  · rintro _ _ ⟨⟩
  · rintro _ _ ⟨⟩
  · exact fun i => iff_of_true rfl (Nat.zero_le i)
  · exact ⟨Nat.pos_of_ne_zero hcapacity, Nat.zero_le _⟩

/-- The calibration reaches a point that is accepted, or its end. -/
theorem calibration_invariant {m : DistributionMemory} {choices : List (Choice ℕ)}
    (hinit : distributionPoolInitialize pageSize = some m)
    (hfresh : calibration.Along (fun s choice _ => stale = true ∨ freshReport s choice = true)
      ⟨goto benchmarkClockInitialize, m⟩ choices)
    (hrun : calibration.run ⟨goto benchmarkClockInitialize, m⟩ choices = some s) :
    CalibrationInvariant stale s :=
  Machine.invariant_of_along (fun _ _ _ h hfresh hstep => h.step hfresh hstep)
    (distributionPoolInitialize_invariant hinit) hfresh hrun

/-- The builder of a request is empty and nobody else's. -/
theorem CalibrationInvariant.request {dst : DistributionVar} {next : CalibrationCode}
    (h : CalibrationInvariant stale s) (hcode : s.code = instr (request dst) next)
    (hstep : calibration.step s choice = some s') :
    ∃ r, s'.memory.held (.var dst) = some r ∧ s'.memory.stage r = some .empty ∧
      (∀ v, s.memory.held (.var v) ≠ some r) ∧ ∀ o, s'.memory.held o = some r → o = .var dst := by
  rw [step_eq_some] at hstep
  obtain ⟨t, hm, hcheck⟩ | ⟨hstop, -⟩ := h
  · rw [hcode] at hcheck
    obtain hfails | ⟨t', htransfer, -⟩ := Analysis.check_instr.mp hcheck
    · exact absurd (calibrationAnalysis_fails.mp hfails).2.1 Bool.false_ne_true
    · obtain ⟨hdst, -⟩ := StageTable.acquire_eq_some.mp htransfer
      rw [Program.step, hcode] at hstep
      obtain ⟨outcome, hexec, hok⟩ := Option.map_eq_some_iff.mp hstep
      cases outcome with
      | ok m' =>
          obtain rfl := Except.ok.inj hok
          exact hm.request_exclusive hdst hexec
      | error failure => cases hok
  · rw [hstop] at hcode
    cases hcode

/-- In every run, each allocation has exactly one owner up to the return of `x86_clock_initialize`, and
never after it, and a request gives an empty builder that is not owned elsewhere. Up to the return, the
next operation uses what its arguments own unless it reads a stale report, which is not done in a run
in which no measurement rejects nothing after one that did. -/
theorem calibration_ownership_iff {m : DistributionMemory} {choices : List (Choice ℕ)}
    (hinit : distributionPoolInitialize pageSize = some m)
    (hrun : calibration.run ⟨goto benchmarkClockInitialize, m⟩ choices = some s) :
    (OwnershipHolds s ↔ s.code ≠ stop ∧ ¬ ReadsStaleReport s) ∧
      (s.memory.Lawful ↔ s.code ≠ stop) ∧
      (calibration.Along (fun s choice _ => freshReport s choice = true)
          ⟨goto benchmarkClockInitialize, m⟩ choices →
        ¬ ReadsStaleReport s) ∧
      ∀ dst next choice s', s.code = instr (request dst) next →
        calibration.step s choice = some s' →
          ∃ r, s'.memory.held (.var dst) = some r ∧ s'.memory.stage r = some .empty ∧
            (∀ v, s.memory.held (.var v) ≠ some r) ∧
              ∀ o, s'.memory.held o = some r → o = .var dst := by
  have hany : CalibrationInvariant true s :=
    calibration_invariant hinit ((Machine.along_true _ _).mono fun _ _ _ _ => .inl rfl) hrun
  refine ⟨hany.holds_iff, hany.lawful_iff, fun hfresh => ?_, fun _ _ _ _ hcode hstep =>
    hany.request hcode hstep⟩
  have hinvariant : CalibrationInvariant false s :=
    calibration_invariant hinit (hfresh.mono fun _ _ _ h => .inr h) hrun
  exact hinvariant.not_readsStaleReport

/-- The pool of a system with pages of 4096 bytes. -/
def freshPool : DistributionMemory where
  held := fun _ => none
  stage := fun _ => none
  length := 0
  capacity := 170
  flag := fun _ => false

/-- A calibration that enters the affine region in the first round and leaves it in the second. -/
def shortCalibration : List (Choice ℕ) :=
  (List.range 237).map fun k => ⟨decide (k ∈ [31, 69, 123, 162, 163, 175, 192]), k⟩

/-- Storage with an allocation that no variable and no slot has is not in order. -/
theorem not_lawful_of_unowned {m : DistributionMemory} {r : ℕ} (hstage : m.stage r ≠ none)
    (hvars : ∀ v ∈ DistributionVar.all, m.held (.var v) ≠ some r)
    (hslots : ∀ i < m.length, m.held (.slot i) ≠ some r) : ¬ m.Lawful := by
  intro hlawful
  obtain ⟨stage, hsome⟩ := Option.ne_none_iff_exists'.mp hstage
  obtain ⟨o, ho⟩ := hlawful.covered r stage hsome
  cases o with
  | var v => exact hvars v v.mem_all ho
  | slot i =>
      refine hslots i ?_ ho
      by_contra hge
      rw [(hlawful.slots i).mpr (not_lt.mp hge)] at ho
      cases ho

/-- The builder that `x86_duration` has given back is lost when `x86_clock_initialize` returns. -/
theorem x86ClockInitialize_leaks :
    distributionPoolInitialize 4096 = some freshPool ∧
      ∃ s, calibration.run ⟨goto benchmarkClockInitialize, freshPool⟩ shortCalibration = some s ∧
        s.code = stop ∧ ¬ s.memory.Lawful := by
  have hend : (calibration.run ⟨goto benchmarkClockInitialize, freshPool⟩ shortCalibration).map
      (fun s => decide (s.code = stop ∧ s.memory.stage 26 ≠ none ∧
        (∀ v ∈ DistributionVar.all, s.memory.held (.var v) ≠ some 26) ∧
          ∀ i < s.memory.length, s.memory.held (.slot i) ≠ some 26)) = some true := by
    decide +kernel
  obtain ⟨s, hrun, hs⟩ := Option.map_eq_some_iff.mp hend
  obtain ⟨hstop, hstage, hvars, hslots⟩ := of_decide_eq_true hs
  exact ⟨rfl, s, hrun, hstop, not_lawful_of_unowned hstage hvars hslots⟩

/-- The short calibration has a fresh report at each step. -/
theorem calibration_ownership_iff_short :
    ∃ s, calibration.run ⟨goto benchmarkClockInitialize, freshPool⟩ shortCalibration = some s ∧
      (OwnershipHolds s ↔ s.code ≠ stop) := by
  have hfresh : calibration.Along (fun s choice _ => freshReport s choice = true)
      ⟨goto benchmarkClockInitialize, freshPool⟩ shortCalibration := by decide +kernel
  have hsome : (calibration.run ⟨goto benchmarkClockInitialize, freshPool⟩
    shortCalibration).isSome := by
    decide +kernel
  obtain ⟨s, hrun⟩ := Option.isSome_iff_exists.mp hsome
  have hpool : distributionPoolInitialize 4096 = some freshPool := rfl
  obtain ⟨hholds, -, hreads, -⟩ := calibration_ownership_iff hpool hrun
  exact ⟨s, hrun, hholds.trans (and_iff_left (hreads hfresh))⟩

end Udipe

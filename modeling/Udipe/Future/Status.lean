import Udipe.Lib.Checked
import Udipe.Lib.PackedCounter
import Udipe.Future.Kinds

/-!
# The status word

Reference: `future/status.h`, `future/status_ops.h`, `future/status_ops.c`.

`FutureStatus` is the bit field, `asWord` and `ofWord` the two directions of the union with a 32-bit
integer. They are inverse to each other, so comparing words is comparing fields, and the atomic
operations of the model act on the fields. The exceptions are the two shortcuts that add and subtract
one on the whole word: `fetchAdd` and `fetchSub` are defined through the word.
-/

namespace Udipe

open Checked

/-- `future_status_t`. -/
@[ext] structure FutureStatus where
  downstreamCount : BitVec 16
  downstreamCountOverflow : Bool
  available : Bool
  state : FutureState
  outcome : FutureOutcome
  type : FutureType
  notifyAddress : Bool
  notifyEventOrLazyLock : Bool
  reserved : BitVec 2
deriving DecidableEq, Repr

/-- The build configuration: `assertions` is false when `NDEBUG` is defined. -/
structure Build where
  assertions : Bool
deriving DecidableEq, Repr

/-- Why the process stopped: the check, assertion or fatal error that was reached. -/
inductive Failure where
  /-- A check of `future_status_debug_check`. -/
  | statusCheck
  /-- The `switch` of `future_wait`, `udipe_cancel` or `future_finish` met an impossible value. -/
  | invalidStatus
  /-- `exit_with_error("Not implemented yet!")` and its variants. -/
  | notImplemented
  /-- `assert(timeout != UDIPE_DURATION_DEFAULT)`. -/
  | defaultTimeout
  /-- `assert(status->state != STATE_RESULT)` in `prepare_downstream_count_inc`. -/
  | countAfterResult
  /-- `ensure(!status->downstream_count_overflow)`. -/
  | countOverflowed
  /-- More than `MAX_DOWNSTREAM_COUNT` downstreams. -/
  | tooManyDownstreams
  /-- A decrement of a count that is zero. -/
  | countUnderflow
  /-- An assertion on entry of `future_wait_by_adress`. -/
  | addressWaitMisuse
  /-- `ADDRESS_WAIT_UNLOCKED` from an eager future. -/
  | eagerUnlocked
  /-- `assert(latest_status.outcome == OUTCOME_UNKNOWN)` after taking `lazy_lock`. -/
  | lockedWithOutcome
  /-- `inpoll_wait` got the answer zero from `epoll_pwait2`. -/
  | epollTimedOut
  /-- `assert(timeout < UDIPE_DURATION_MAX)` after `inpoll_wait` returned zero. -/
  | infinitePollTimedOut
  /-- The latch was reported but the join is not in its canceled final status. -/
  | latchWithoutCancel
  /-- `ensure_ge(upstream_set->remaining, 1)`. -/
  | noneRemaining
  /-- `assert(outcome == OUTCOME_UNKNOWN)` when a failed upstream is met. -/
  | secondFailedUpstream
  /-- `assert(latest_status.notify_event_or_lazy_lock)` before releasing `lazy_lock`. -/
  | lockNotHeld
  /-- `ensure_eq(latest_status.state, STATE_RESULT)` after a reverted increment. -/
  | revertedWithoutResult
  /-- `assert(latest_status.downstream_count == 0)` in `future_finish`. -/
  | finishedInUse
  /-- `assert(latest_status.available)` in `future_finish`. -/
  | finishedTwice
  /-- `assert(latest_status.state == STATE_RESULT)` after the wait of `future_finish`. -/
  | finishedWithoutResult
  /-- `assert(status.type == type)` in `udipe_cancel`. -/
  | typeChanged
  /-- An assertion of `future_upstream_detach` on the collective upstream. -/
  | badUpstreamSet
  /-- An assertion of `future_liberate` on the final status. -/
  | liberatedInUse
  /-- A `udipe_custom_` function met a status its worker should not see. -/
  | customMisuse
deriving DecidableEq, Repr

namespace FutureStatus

/-- `MAX_DOWNSTREAM_COUNT`. -/
def maxDownstreamCount : BitVec 16 := BitVec.allOnes 16

/-- The fields above `downstream_count_overflow`. -/
def flags (s : FutureStatus) : BitVec 15 :=
  s.reserved ++ BitVec.ofBool s.notifyEventOrLazyLock ++ BitVec.ofBool s.notifyAddress ++
    s.type.code ++ s.outcome.code ++ s.state.code ++ BitVec.ofBool s.available

/-- The fields above `downstream_count`, as the upper half-word. -/
def upperHalf (s : FutureStatus) : BitVec 16 :=
  s.flags ++ BitVec.ofBool s.downstreamCountOverflow

/-- `future_status_word_t.as_word`. -/
def asWord (s : FutureStatus) : BitVec 32 :=
  s.upperHalf ++ s.downstreamCount

/-- `future_status_word_t.as_bitfield`. -/
def ofWord (w : BitVec 32) : FutureStatus where
  downstreamCount := w.extractLsb' 0 16
  downstreamCountOverflow := w.getLsbD 16
  available := w.getLsbD 17
  state := .ofCode (w.extractLsb' 18 3)
  outcome := .ofCode (w.extractLsb' 21 3)
  type := .ofCode (w.extractLsb' 24 4)
  notifyAddress := w.getLsbD 28
  notifyEventOrLazyLock := w.getLsbD 29
  reserved := w.extractLsb' 30 2

/-- Reading the three codes back from the word. -/
private theorem extractLsb'_asWord (s : FutureStatus) :
    s.asWord.extractLsb' 18 3 = s.state.code ∧ s.asWord.extractLsb' 21 3 = s.outcome.code ∧
      s.asWord.extractLsb' 24 4 = s.type.code := by
  refine ⟨?_, ?_, ?_⟩ <;>
  · ext i hi
    simp only [asWord, upperHalf, flags, BitVec.getElem_extractLsb', BitVec.getLsbD_append]
    grind

@[simp] theorem ofWord_asWord (s : FutureStatus) : ofWord s.asWord = s := by
  obtain ⟨hstate, houtcome, htype⟩ := extractLsb'_asWord s
  ext i hi
  case state => rw [ofWord, hstate, FutureState.ofCode_code]
  case outcome => rw [ofWord, houtcome, FutureOutcome.ofCode_code]
  case type => rw [ofWord, htype, FutureType.ofCode_code]
  all_goals
    simp only [ofWord, asWord, upperHalf, flags, BitVec.getElem_extractLsb', BitVec.getLsbD_append]
    grind

@[simp] theorem asWord_ofWord (w : BitVec 32) : asWord (ofWord w) = w := by
  simp only [asWord, ofWord, upperHalf, flags, FutureState.code_ofCode, FutureOutcome.code_ofCode,
    FutureType.code_ofCode]
  ext i hi
  simp only [BitVec.getElem_append]
  simp only [← BitVec.getLsbD_eq_getElem, BitVec.getLsbD_extractLsb', BitVec.getLsbD_ofBool]
  by_cases hlow : i < 21 <;> grind

/-- Two status words are equal exactly when their fields are. -/
theorem asWord_inj {s t : FutureStatus} : s.asWord = t.asWord ↔ s = t :=
  ⟨fun h => by rw [← ofWord_asWord s, h, ofWord_asWord], fun h => by rw [h]⟩

/-- `future_status_eq`. -/
def statusEq (s t : FutureStatus) : Bool := s.asWord == t.asWord

@[simp] theorem statusEq_iff {s t : FutureStatus} : statusEq s t = true ↔ s = t := by
  rw [statusEq, beq_iff_eq, asWord_inj]

/-- The word after `atomic_fetch_add(&status_word, 1)`. -/
def fetchAdd (s : FutureStatus) : FutureStatus := ofWord (s.asWord + 1)

/-- The word after `atomic_fetch_sub(&status_word, 1)`. -/
def fetchSub (s : FutureStatus) : FutureStatus := ofWord (s.asWord - 1)

/-- Below the maximum, adding one to the word increments `downstream_count` and nothing else. -/
theorem fetchAdd_of_ne {s : FutureStatus} (h : s.downstreamCount ≠ maxDownstreamCount) :
    s.fetchAdd = { s with downstreamCount := s.downstreamCount + 1 } := by
  have hword : s.asWord + 1 = { s with downstreamCount := s.downstreamCount + 1 : FutureStatus }.asWord :=
    BitVec.append_add_one s.upperHalf (by omega) h
  rw [fetchAdd, hword, ofWord_asWord]

/-- At the maximum, adding one to the word resets `downstream_count` and sets its overflow flag. -/
theorem fetchAdd_of_max {s : FutureStatus} (ho : s.downstreamCountOverflow = false)
    (h : s.downstreamCount = maxDownstreamCount) :
    s.fetchAdd = { s with downstreamCount := 0, downstreamCountOverflow := true } := by
  have hassoc : ∀ (o : BitVec 1) (c : BitVec 16),
      (s.flags ++ o ++ c : BitVec 32) = (s.flags ++ (o ++ c) : BitVec 32) :=
    fun o c => BitVec.append_assoc
  have hcarry : (BitVec.ofBool false ++ maxDownstreamCount : BitVec 17) + 1 =
      BitVec.ofBool true ++ 0#16 := by decide
  have hword : s.asWord + 1 =
      { s with downstreamCount := 0, downstreamCountOverflow := true : FutureStatus }.asWord := by
    rw [asWord, upperHalf, ho, h, hassoc]
    exact (BitVec.append_add_one s.flags (by omega) (by decide)).trans
      ((congrArg (s.flags ++ ·) hcarry).trans (hassoc _ _).symm)
  rw [fetchAdd, hword, ofWord_asWord]

/-- Above zero, subtracting one from the word decrements `downstream_count` and nothing else. -/
theorem fetchSub_of_ne {s : FutureStatus} (h : s.downstreamCount ≠ 0) :
    s.fetchSub = { s with downstreamCount := s.downstreamCount - 1 } := by
  have hword : s.asWord - 1 = { s with downstreamCount := s.downstreamCount - 1 : FutureStatus }.asWord :=
    BitVec.append_sub_one s.upperHalf (by omega) h
  rw [fetchSub, hword, ofWord_asWord]

/-! ## The consistency check -/

/-- The `switch` over the state in `future_status_debug_check`. -/
def stateCheck (s : FutureStatus) (isAllocated : Bool) : Bool :=
  match s.state with
  | .uninitialized => !isAllocated
  | .waiting => isAllocated && s.type.hasDependencies
  | .processing => isAllocated && s.type.hasProcessing
  | .canceling => isAllocated && s.type.usesWorkerThread
  | .result => isAllocated
  | _ => false

/-- `could_be_locked`. -/
def couldBeLocked (s : FutureStatus) : Bool :=
  match s.state with
  | .waiting | .processing | .result => s.type.usesLazyLock
  | _ => false

/-- The `switch` over the outcome in `future_status_debug_check`. -/
def outcomeCheck (s : FutureStatus) : Bool :=
  match s.outcome with
  | .unknown => !s.state.hasOutcome
  | .success => s.state.hasOutcome && s.state == .result
  | .failureDependency => s.state.hasOutcome && s.type.hasDependencies
  | .failureInternal => s.state.hasOutcome && s.type.hasProcessing
  | .failureCanceled => s.state.hasOutcome
  | _ => false

/-- The checks of the two notification flags. -/
def flagCheck (s : FutureStatus) (isAllocated : Bool) : Bool :=
  if isAllocated then
    if s.type.usesLazyLock then !s.notifyEventOrLazyLock || s.couldBeLocked
    else s.type.usesWorkerThread || !s.notifyEventOrLazyLock
  else
    !s.notifyAddress && !s.notifyEventOrLazyLock

/-- `future_status_debug_check`: the conjunction of its assertions. -/
def debugCheck (s : FutureStatus) (isAllocated : Bool) : Bool :=
  (isAllocated || !s.available) && !s.downstreamCountOverflow &&
    (s.downstreamCount == 0 || s.available) &&
    decide (s.downstreamCount.toNat ≤ maxDownstreamCount.toNat) &&
    (isAllocated != (s.type == .invalid)) && s.type.known && s.stateCheck isAllocated &&
    s.outcomeCheck && s.flagCheck isAllocated && s.reserved == 0

/-- `future_status_debug_check(status, true)`, which does nothing when assertions are compiled out. -/
def check (b : Build) (s : FutureStatus) : Except Failure Unit :=
  assertion b.assertions (s.debugCheck true) .statusCheck

end FutureStatus

/-- `downstream_count_policy_t`. -/
inductive DownstreamCountPolicy where
  | cycle
  | keep
deriving DecidableEq, Repr

open FutureStatus in
/-- `prepare_downstream_count_inc`. -/
def prepareDownstreamCountInc (b : Build) (status : FutureStatus)
    (policy : DownstreamCountPolicy) : Except Failure FutureStatus := do
  status.check b
  assertion b.assertions (status.state != .result) .countAfterResult
  ensure (!status.downstreamCountOverflow) .countOverflowed
  match policy with
  | .cycle =>
      ensure (decide (status.downstreamCount.toNat < maxDownstreamCount.toNat)) .tooManyDownstreams
      pure { status with downstreamCount := status.downstreamCount + 1 }
  | .keep => pure status

/-- `prepare_downstream_count_dec`. -/
def prepareDownstreamCountDec (b : Build) (status : FutureStatus)
    (policy : DownstreamCountPolicy) : Except Failure FutureStatus := do
  status.check b
  ensure (!status.downstreamCountOverflow) .countOverflowed
  match policy with
  | .cycle =>
      ensure (decide (1 ≤ status.downstreamCount.toNat)) .countUnderflow
      pure { status with downstreamCount := status.downstreamCount - 1 }
  | .keep => pure status

end Udipe

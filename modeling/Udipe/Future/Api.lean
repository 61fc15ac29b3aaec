import Udipe.Future.Wait

/-!
# Canceling, finishing and completing a future

Reference: `future.c`, `future/allocator.c`.

The points of `udipe_cancel` and `future_finish` between two accesses to shared state, and the three
functions that the worker thread of a custom future calls.
-/

namespace Udipe

open Checked Function

variable {Tid P : Type} {n : ℕ}

/-! ## `udipe_cancel` -/

def cancelLoadStep (sh : Shared Tid P n) (finish : Bool) : ClientResult Tid P n :=
  pure (sh, .cancelCas finish sh.word.type sh.word)

/-- The notifications after the cancelation took effect. -/
def afterCancel (finish : Bool) (type : FutureType) (status : FutureStatus) :
    Except Failure (Pc P n) :=
  if status.downstreamCount = 0 then
    pure (.cancelReturn finish true status)
  else
    match type with
    | .networkConnect | .networkDisconnect | .networkSend | .networkRecv => .error .notImplemented
    | .custom => pure (.cancelReturn finish true status)
    | .join | .unordered | .timerRepeat => pure (.cancelLatch finish status)
    | .timerOnce => pure (.cancelTimer finish status)
    | _ => .error .invalidStatus

def cancelCasStep (b : Build) (o : Oracle Tid n) (sh : Shared Tid P n) (finish : Bool)
    (type : FutureType) (status : FutureStatus) : ClientResult Tid P n := do
  status.check b
  match status.outcome with
  | .unknown =>
      assertion b.assertions (status.state == .waiting || status.state == .processing)
        .invalidStatus
      let desired := { status with
        outcome := .failureCanceled
        state := if type.usesWorkerThread then .canceling else .result }
      desired.check b
      match ← compareExchangeWeak b o sh.word status desired with
      | .swapped => stored { sh with word := desired } (afterCancel finish type desired)
      | .failed actual =>
          assertion b.assertions (actual.type == type) .typeChanged
          pure (sh, .cancelCas finish type actual)
  | .success | .failureDependency | .failureInternal | .failureCanceled =>
      pure (sh, .cancelReturn finish false status)
  | _ => .error .invalidStatus

def cancelLatchStep (sh : Shared Tid P n) (finish : Bool) (status : FutureStatus) :
    ClientResult Tid P n :=
  pure ({ sh with latch := true },
    if status.notifyAddress then .cancelWake finish status else .cancelReturn finish true status)

def cancelWakeStep (sh : Shared Tid P n) (finish : Bool) (status : FutureStatus) :
    ClientResult Tid P n :=
  pure (wakeByAddressAll sh, .cancelReturn finish true status)

/-- The timer is set to a time in the past. -/
def cancelTimerStep (sh : Shared Tid P n) (finish : Bool) (status : FutureStatus) :
    ClientResult Tid P n :=
  pure ({ sh with timerReady := true }, .cancelReturn finish true status)

/-- The label `finish`. -/
def cancelReturnStep (t : Tid) (sh : Shared Tid P n) (finish canceled : Bool)
    (status : FutureStatus) : ClientResult Tid P n :=
  if finish then pure (sh, .finishCas (.cancel canceled) status)
  else pure ({ sh with log := .canceled t canceled :: sh.log }, .idle)

/-! ## `udipe_finish` and `future_finish` -/

def finishLoadStep (sh : Shared Tid P n) : ClientResult Tid P n :=
  pure (sh, .finishCas .finish sh.word)

def finishCasStep (b : Build) (o : Oracle Tid n) (sh : Shared Tid P n) (f : FinishCaller)
    (latest : FutureStatus) : ClientResult Tid P n := do
  latest.check b
  assertion b.assertions (latest.downstreamCount == 0) .finishedInUse
  assertion b.assertions latest.available .finishedTwice
  let desired := { latest with available := false }
  desired.check b
  match ← compareExchangeWeak b o sh.word latest desired with
  | .swapped =>
      pure ({ sh with word := desired },
        if desired.state = .result then .finishCollect f desired
        else .waitLoad { caller := .finish f, timeout := durationMax })
  | .failed actual =>
      actual.check b
      pure (sh, .finishCas f actual)

/-- The result of a future whose final status is `latest`. -/
def collectResult (b : Build) (latest : FutureStatus) (payload : P) :
    Except Failure (Result P) :=
  match latest.outcome with
  | .success | .failureInternal =>
      match latest.type with
      | .networkConnect | .networkDisconnect | .networkSend | .networkRecv | .custom
      | .unordered | .timerRepeat => pure (.typed latest.type (some payload))
      | .join | .timerOnce => do
          assertion b.assertions (latest.outcome != .failureInternal) .invalidStatus
          pure (.typed latest.type none)
      | _ => .error .invalidStatus
  | .failureDependency => pure .failureDependency
  | .failureCanceled => pure .failureCanceled
  | _ => .error .invalidStatus

def finishCollectStep (b : Build) (sh : Shared Tid P n) (f : FinishCaller)
    (latest : FutureStatus) : ClientResult Tid P n :=
  match f with
  | .finish => do
      let result ← collectResult b latest sh.payload
      pure (sh, .finishUpstream f (some result))
  | .cancel _ => pure (sh, .finishUpstream f none)

/-- `future_upstream_detach` up to its loop. -/
def finishUpstreamStep (b : Build) (sh : Shared Tid P n) (f : FinishCaller)
    (result : Option (Result P)) : ClientResult Tid P n :=
  match sh.word.type with
  | .networkConnect | .networkDisconnect | .networkSend | .networkRecv => .error .notImplemented
  | .join | .unordered => do
      assertion b.assertions (decide (1 ≤ n)) .badUpstreamSet
      assertion b.assertions (decide (sh.remaining ≤ n)) .badUpstreamSet
      pure (sh, .finishDetach f result 0)
  | .custom | .timerOnce | .timerRepeat => pure (sh, .finishLiberate f result)
  | _ => .error .invalidStatus

/-- One round of the loop of `future_upstream_detach`, or what follows it. -/
def finishDetachStep (b : Build) (sh : Shared Tid P n) (f : FinishCaller)
    (result : Option (Result P)) (index : ℕ) : ClientResult Tid P n :=
  if h : index < n then
    let i : Fin n := ⟨index, h⟩
    let preOp := sh.upstream i
    stored { sh with
        upstream := update sh.upstream i preOp.fetchSub
        detached := update sh.detached i (sh.detached i + 1) } do
      let _ ← decremented b preOp
      pure (.finishDetach f result (index + 1))
  else
    pure ({ sh with remaining := 0 }, .finishLiberate f result)

/-- The answer of `udipe_finish` or `udipe_cancel`. -/
def finishResponse (t : Tid) (f : FinishCaller) (result : Option (Result P)) :
    List (Response Tid P) :=
  match f with
  | .finish => result.toList.map (.finished t)
  | .cancel canceled => [.canceled t canceled]

/-- `future_liberate` after the upstreams were detached: the status word is reset to zero, and its
last value checked. -/
def finishLiberateStep (b : Build) (t : Tid) (sh : Shared Tid P n) (f : FinishCaller)
    (result : Option (Result P)) : ClientResult Tid P n :=
  let finalStatus := sh.word
  let sh' := { sh with word := .ofWord 0, liberated := true }
  match assertion b.assertions
      (finalStatus.downstreamCount == 0 && !finalStatus.downstreamCountOverflow &&
        !finalStatus.available && finalStatus.type != .invalid && finalStatus.reserved == 0)
      .liberatedInUse with
  | .ok _ => pure ({ sh' with log := finishResponse t f result ++ sh.log }, .idle)
  | .error e => pure ({ sh' with aborted := some e }, .idle)

/-! ## The worker of a custom future -/

/-- `future_custom_check_canceled`. -/
def futureCustomCheckCanceled (b : Build) (status : FutureStatus) : Except Failure Bool := do
  status.check b
  ensure (status.type == .custom) .customMisuse
  assertion b.assertions
    ((status.outcome == .unknown && status.state == .processing) ||
      (status.outcome == .failureCanceled && status.state == .canceling)) .customMisuse
  match status.state with
  | .processing => pure false
  | .canceling => pure true
  | _ => .error .customMisuse

/-- A call of the worker. -/
inductive WorkerCall (P : Type) where
  | canceled
  | acknowledgeCancel
  | trySetResult (successful : Bool) (payload : P)
deriving DecidableEq, Repr

/-- How a worker ends: the answer of `udipe_custom_try_set_result`, or `none` after
`udipe_custom_acknowledge_cancel`. -/
abbrev WorkerReturn := Option Bool

/-- Where the worker thread is. -/
inductive WorkerPc (P : Type) where
  /-- No worker thread. -/
  | absent
  /-- Between calls; `sawCanceled` when `udipe_custom_canceled` returned true. -/
  | running (sawCanceled : Bool)
  /-- `udipe_custom_canceled`. -/
  | canceledLoad (sawCanceled : Bool)
  /-- `udipe_custom_try_set_result`: the initial load. -/
  | setLoad (successful : Bool) (payload : P)
  /-- Checking for cancelation, then writing the payload. -/
  | setCheck (successful : Bool) (payload : P) (payloadSet : Bool) (status : FutureStatus)
  /-- Marking the future as finished. -/
  | setCas (successful : Bool) (payload : P) (status : FutureStatus)
  /-- `udipe_custom_acknowledge_cancel`: the initial load. -/
  | ackLoad (ret : WorkerReturn)
  /-- Marking the future as fully canceled. -/
  | ackCas (ret : WorkerReturn) (status : FutureStatus)
  /-- `future_notify_eager_outcome`: the futex notification. -/
  | notifyAddress (ret : WorkerReturn) (status : FutureStatus)
  /-- The event notification. -/
  | notifyEvent (ret : WorkerReturn) (status : FutureStatus)
  | done (ret : WorkerReturn)
deriving DecidableEq, Repr

/-- The start of `future_notify_eager_outcome`. -/
def futureNotifyEagerOutcome (ret : WorkerReturn) (status : FutureStatus) : WorkerPc P :=
  if status.downstreamCount ≠ 0 then .notifyAddress ret status else .done ret

/-- One step of the worker inside a call. -/
def workerStep (b : Build) (o : Oracle Tid n) (sh : Shared Tid P n) :
    WorkerPc P → Except Failure (Shared Tid P n × WorkerPc P)
  | .canceledLoad sawCanceled => do
      let canceled ← futureCustomCheckCanceled b sh.word
      pure (sh, .running (sawCanceled || canceled))
  | .setLoad successful payload => pure (sh, .setCheck successful payload false sh.word)
  | .setCheck successful payload payloadSet status => do
      if ← futureCustomCheckCanceled b status then
        pure (sh, .ackLoad (some false))
      else if payloadSet then
        pure (sh, .setCas successful payload status)
      else
        pure ({ sh with payload := payload }, .setCas successful payload status)
  | .setCas successful payload status => do
      let desired := { status with state := .result, outcome := .success }
      match ← compareExchangeWeak b o sh.word status desired with
      | .swapped =>
          pure ({ sh with word := desired }, futureNotifyEagerOutcome (some true) desired)
      | .failed actual => pure (sh, .setCheck successful payload true actual)
  | .ackLoad ret => pure (sh, .ackCas ret sh.word)
  | .ackCas ret status => do
      ensure (← futureCustomCheckCanceled b status) .customMisuse
      let desired := { status with state := .result }
      match ← compareExchangeWeak b o sh.word status desired with
      | .swapped => pure ({ sh with word := desired }, futureNotifyEagerOutcome ret desired)
      | .failed actual => pure (sh, .ackCas ret actual)
  | .notifyAddress ret status =>
      pure (if status.notifyAddress then wakeByAddressAll sh else sh, .notifyEvent ret status)
  | .notifyEvent ret status =>
      pure (if status.notifyEventOrLazyLock then { sh with event := true } else sh, .done ret)
  | pc => pure (sh, pc)

end Udipe

import Udipe.Future.Calls
import Mathlib.Logic.Function.Basic

/-!
# Waiting for a future

Reference: `future/wait.c`, `future/status_ops.h`, `address_wait.c`, `inpoll.c`.

One definition for each point of `future_wait` and its backends between two accesses to shared state.
A step makes the access, runs the local code that follows and gives the next point. `.error` is a
check that fails before the access; a check that fails after it is recorded in `aborted`.
-/

namespace Udipe

open Checked Function

variable {Tid P : Type} {n : ℕ}

/-- The result of one step of a client thread. -/
abbrev ClientResult (Tid P : Type) (n : ℕ) := Except Failure (Shared Tid P n × Pc P n)

/-- Continue after a store with checks that may end the process. -/
def stored (sh : Shared Tid P n) (rest : Except Failure (Pc P n)) : ClientResult Tid P n :=
  match rest with
  | .ok pc => .ok (sh, pc)
  | .error f => .ok ({ sh with aborted := some f }, .idle)

/-! ## Atomic operations -/

/-- What a compare-exchange did. -/
inductive Exchange where
  | swapped
  /-- The status word that was read instead. -/
  | failed (actual : FutureStatus)
deriving DecidableEq, Repr

/-- `future_status_compare_exchange_weak`. The caller stores `desired` when the answer is `swapped`. -/
def compareExchangeWeak (b : Build) (o : Oracle Tid n) (word expected desired : FutureStatus) :
    Except Failure Exchange := do
  expected.check b
  desired.check b
  if FutureStatus.statusEq word expected && !o.spurious then
    pure .swapped
  else
    word.check b
    pure (.failed word)

/-- The checks of `future_downstream_count_dec`, which returns the decremented status. -/
def decremented (b : Build) (preOp : FutureStatus) : Except Failure FutureStatus := do
  preOp.check b
  assertion b.assertions (decide (1 ≤ preOp.downstreamCount.toNat)) .countUnderflow
  let result := { preOp with downstreamCount := preOp.downstreamCount - 1 }
  result.check b
  pure result

/-- `wake_by_address_all`. -/
def wakeByAddressAll (sh : Shared Tid P n) : Shared Tid P n :=
  { sh with asleep := fun _ => false }

/-- `wake_by_address_single`: `wakee` is the thread it wakes, if any sleeps. -/
def wakeByAddressSingle [DecidableEq Tid] (sh : Shared Tid P n) (wakee : Option Tid) :
    Shared Tid P n :=
  match wakee with
  | some u => { sh with asleep := update sh.asleep u false }
  | none => sh

/-! ## `future_wait` -/

/-- `future_wait` after its load: dispatch on state and type. -/
def futureWait (b : Build) (w : WaitCall) (status : FutureStatus) : Except Failure (Pc P n) := do
  assertion b.assertions (w.timeout != durationDefault) .defaultTimeout
  status.check b
  match status.state with
  | .result => pure (.waitReturn w status)
  | .waiting | .processing | .canceling =>
      match status.type with
      | .networkConnect | .networkDisconnect | .networkSend | .networkRecv | .custom =>
          if w.timeout = durationMin then pure (.waitReturn w status)
          else pure (.eagerRegister w status)
      | .join => pure (.joinRegister w status false)
      | .timerOnce =>
          match w.policy with
          | .cycle => pure (.timerInc w status)
          | .keep => pure (.timerPoll w status)
      | .unordered | .timerRepeat => .error .notImplemented
      | _ => .error .invalidStatus
  | _ => .error .invalidStatus

def waitLoadStep (b : Build) (sh : Shared Tid P n) (w : WaitCall) : ClientResult Tid P n := do
  let pc ← futureWait b w sh.word
  pure (sh, pc)

/-! ## `future_wait_eager` -/

def eagerRegisterStep (b : Build) (o : Oracle Tid n) (sh : Shared Tid P n) (w : WaitCall)
    (latest : FutureStatus) : ClientResult Tid P n := do
  let counted ← prepareDownstreamCountInc b latest w.policy
  let desired := { counted with notifyAddress := true }
  if FutureStatus.statusEq desired latest then
    pure (sh, .addressEnter w latest)
  else
    desired.check b
    match ← compareExchangeWeak b o sh.word latest desired with
    | .swapped => pure ({ sh with word := desired }, .addressEnter w desired)
    | .failed actual =>
        actual.check b
        if actual.state = .result then pure (sh, .waitReturn w actual)
        else pure (sh, .eagerRegister w actual)

/-! ## `future_wait_by_adress` -/

/-- `address_wait_outcome_t`. -/
inductive AddressWaitOutcome where
  | success
  | timeout
  | unlocked
deriving DecidableEq, Repr

/-- "Assessing final status...". -/
def addressWaitOutcome (latest : FutureStatus) : AddressWaitOutcome :=
  if latest.state = .result then .success
  else if latest.type.usesLazyLock && !latest.notifyEventOrLazyLock then .unlocked
  else .timeout

/-- The `switch` over the outcome in `future_wait_eager` and `future_wait_join`. -/
def afterAddressWait (w : WaitCall) (latest : FutureStatus) (woken : Bool) :
    Except Failure (Pc P n) :=
  match addressWaitOutcome latest with
  | .success | .timeout =>
      match w.policy with
      | .cycle => pure (.countDec w latest)
      | .keep => pure (.waitReturn w latest)
  | .unlocked =>
      match latest.type with
      | .join => pure (.joinRegister w latest woken)
      | _ => .error .eagerUnlocked

def addressEnterStep (b : Build) (sh : Shared Tid P n) (w : WaitCall) (latest : FutureStatus) :
    ClientResult Tid P n := do
  assertion b.assertions (latest.state != .result) .addressWaitMisuse
  assertion b.assertions (w.timeout != durationDefault) .addressWaitMisuse
  assertion b.assertions (!latest.type.usesLazyLock || latest.notifyEventOrLazyLock)
    .addressWaitMisuse
  assertion b.assertions latest.notifyAddress .addressWaitMisuse
  pure (sh, .addressWait w latest)

/-- `future_status_wait` up to the point where it returns or falls asleep. With a minimal timeout it
only compares. -/
def addressWaitStep [DecidableEq Tid] (b : Build) (t : Tid) (sh : Shared Tid P n) (w : WaitCall)
    (latest : FutureStatus) : ClientResult Tid P n := do
  latest.check b
  if FutureStatus.statusEq sh.word latest then
    if w.timeout = durationMin then pure (sh, .addressMeasure w latest)
    else pure ({ sh with asleep := update sh.asleep t true }, .addressBlocked w latest)
  else
    pure (sh, .addressReload w latest false)

/-- The end of a futex wait: by a wake call, by a spurious wakeup, or by a timeout or a signal. -/
def addressBlockedStep [DecidableEq Tid] (t : Tid) (o : Oracle Tid n) (sh : Shared Tid P n)
    (w : WaitCall) (latest : FutureStatus) : ClientResult Tid P n :=
  if sh.asleep t then
    let sh' := { sh with asleep := update sh.asleep t false }
    if o.spurious then pure (sh', .addressReload w latest false)
    else pure (sh', .addressMeasure w latest)
  else
    pure (sh, .addressReload w latest true)

def addressReloadStep (b : Build) (sh : Shared Tid P n) (w : WaitCall) (woken : Bool) :
    ClientResult Tid P n := do
  let latest := sh.word
  latest.check b
  if latest.state = .result ∨ (latest.type.usesLazyLock && !latest.notifyEventOrLazyLock) then
    let pc ← afterAddressWait w latest woken
    pure (sh, pc)
  else
    pure (sh, .addressMeasure w latest)

def addressMeasureStep (o : Oracle Tid n) (sh : Shared Tid P n) (w : WaitCall)
    (latest : FutureStatus) : ClientResult Tid P n :=
  if w.timeout ≤ o.elapsed then do
    let pc ← afterAddressWait { w with timeout := durationMin } latest false
    pure (sh, pc)
  else
    pure (sh, .addressWait (w.spend o.elapsed) latest)

/-- `future_downstream_count_dec` at the end of the wait. -/
def countDecStep (b : Build) (sh : Shared Tid P n) (w : WaitCall) : ClientResult Tid P n :=
  stored { sh with word := sh.word.fetchSub } do
    let latest ← decremented b sh.word
    pure (.waitReturn w latest)

/-! ## `future_wait_join` -/

def joinRegisterStep (b : Build) (o : Oracle Tid n) (sh : Shared Tid P n) (w : WaitCall)
    (latest : FutureStatus) (woken : Bool) : ClientResult Tid P n := do
  let counted ← prepareDownstreamCountInc b latest w.policy
  let previouslyLocked := latest.notifyEventOrLazyLock
  let desired :=
    if previouslyLocked then { counted with notifyAddress := true }
    else { counted with notifyEventOrLazyLock := true }
  let registered (latest : FutureStatus) : Pc P n :=
    if previouslyLocked then .addressEnter w latest else .joinPoll w latest w.timeout
  if FutureStatus.statusEq desired latest then
    pure (sh, registered latest)
  else
    desired.check b
    match ← compareExchangeWeak b o sh.word latest desired with
    | .swapped => pure ({ sh with word := desired }, registered desired)
    | .failed actual =>
        actual.check b
        if actual.state = .result then pure (sh, .waitReturn w actual)
        else pure (sh, .joinRegister w actual woken)

/-- `inpoll_wait`. The assertion on `latest`, which stays as it was when `lazy_lock` was taken, is
the one that precedes the polling loop. -/
def joinPollStep (b : Build) (o : Oracle Tid n) (sh : Shared Tid P n) (w : WaitCall)
    (latest : FutureStatus) (pollTimeout : ℕ) : ClientResult Tid P n := do
  assertion b.assertions (latest.outcome == .unknown) .lockedWithOutcome
  match o.poll with
  | .ready ids => pure (sh, .joinBatch w latest .unknown ids)
  | .timedOut => .error .epollTimedOut
  | .interrupted =>
      if pollTimeout ≤ o.elapsed then
        assertion b.assertions (decide (w.timeout < durationMax)) .infinitePollTimedOut
        pure (sh, .joinMeasure w latest true)
      else
        pure (sh, .joinPoll w latest (pollTimeout - o.elapsed))

/-- The outcome of the join after it saw `upstream`, an upstream in `STATE_RESULT`. -/
def integrateUpstream (b : Build) (outcome upstream : FutureOutcome) :
    Except Failure FutureOutcome :=
  match upstream with
  | .success => pure outcome
  | .failureCanceled | .failureInternal | .failureDependency => do
      assertion b.assertions (outcome == .unknown) .secondFailedUpstream
      pure .failureDependency
  | _ => .error .invalidStatus

/-- One round of the loop over the identifiers, or what follows it. `future_wait` on the upstream with
a minimal timeout is a read of the upstream's status word here. `remaining` and the inpoll are only
accessed under `lazy_lock`. -/
def joinBatchStep (b : Build) (sh : Shared Tid P n) (w : WaitCall) (latest : FutureStatus)
    (outcome : FutureOutcome) (ids : List (InpollId n)) : ClientResult Tid P n :=
  match ids with
  | [] =>
      if outcome ≠ .unknown then pure (sh, .joinRelease w latest outcome)
      else if sh.remaining = 0 then pure (sh, .joinRelease w latest .success)
      else pure (sh, .joinMeasure w latest false)
  | .latch :: _ => do
      ensure (sh.word.state == .result) .latchWithoutCancel
      ensure (sh.word.outcome == .failureCanceled) .latchWithoutCancel
      pure (sh, .joinRelease w sh.word sh.word.outcome)
  | .upstream i :: rest => do
      let upstreamStatus := sh.upstream i
      upstreamStatus.check b
      if upstreamStatus.state ≠ .result then
        pure (sh, .joinBatch w latest outcome rest)
      else
        ensure (decide (1 ≤ sh.remaining)) .noneRemaining
        let outcome' ← integrateUpstream b outcome upstreamStatus.outcome
        pure ({ sh with
            remaining := sh.remaining - 1
            attached := update sh.attached i false },
          .joinBatch w latest outcome' rest)

/-- Measuring the time while the outcome is unknown. -/
def joinMeasureStep (o : Oracle Tid n) (sh : Shared Tid P n) (w : WaitCall)
    (latest : FutureStatus) (inpollTimedOut : Bool) : ClientResult Tid P n :=
  let timedOut := decide (w.timeout ≤ o.elapsed)
  let w' := if timedOut then w else w.spend o.elapsed
  if inpollTimedOut || timedOut then pure (sh, .joinRelease w' latest .unknown)
  else pure (sh, .joinPoll w' latest w'.timeout)

/-- The notifications after `lazy_lock` was released. -/
def afterRelease (w : WaitCall) (latest : FutureStatus) (outcome : FutureOutcome) : Pc P n :=
  if latest.downstreamCount = 0 ∨ outcome = .failureCanceled then .waitReturn w latest
  else if outcome ≠ .unknown then
    if latest.notifyAddress then .joinWakeAll w latest else .joinSignal w latest
  else if latest.notifyAddress then .joinWakeOne w latest
  else .waitReturn w latest

def joinReleaseStep (b : Build) (o : Oracle Tid n) (sh : Shared Tid P n) (w : WaitCall)
    (latest : FutureStatus) (outcome : FutureOutcome) : ClientResult Tid P n := do
  let counted ← prepareDownstreamCountDec b latest w.policy
  let published :=
    if outcome ≠ .unknown then { counted with state := .result, outcome := outcome } else counted
  assertion b.assertions latest.notifyEventOrLazyLock .lockNotHeld
  let desired := { published with notifyEventOrLazyLock := false }
  desired.check b
  match ← compareExchangeWeak b o sh.word latest desired with
  | .swapped => pure ({ sh with word := desired }, afterRelease w desired outcome)
  | .failed actual =>
      actual.check b
      pure (sh, .joinRelease w actual outcome)

/-! ## `future_wait_timer_once` -/

/-- `future_downstream_count_try_inc`. When the count is at its maximum the word is stored before the
process exits. -/
def timerIncStep (b : Build) (sh : Shared Tid P n) (w : WaitCall) (latest : FutureStatus) :
    ClientResult Tid P n := do
  latest.check b
  let preOp := sh.word
  stored { sh with word := preOp.fetchAdd } do
    preOp.check b
    ensure (!(preOp.downstreamCountOverflow ||
      preOp.downstreamCount == FutureStatus.maxDownstreamCount)) .tooManyDownstreams
    if preOp.state = .result then
      pure (.timerRevert w)
    else
      let latest' := { preOp with downstreamCount := preOp.downstreamCount + 1 }
      latest'.check b
      pure (.timerPoll w latest')

def timerRevertStep (b : Build) (sh : Shared Tid P n) (w : WaitCall) : ClientResult Tid P n :=
  stored { sh with word := sh.word.fetchSub } do
    let latest ← decremented b sh.word
    assertion b.assertions (latest.state == .result) .revertedWithoutResult
    latest.check b
    ensure (latest.state == .result) .revertedWithoutResult
    pure (.waitReturn w latest)

/-- `ppoll` on the timer. -/
def timerPollStep (o : Oracle Tid n) (sh : Shared Tid P n) (w : WaitCall)
    (latest : FutureStatus) : ClientResult Tid P n :=
  match o.poll with
  | .ready _ => pure (sh, .timerPublish w latest)
  | .timedOut => pure (sh, .waitReturn w latest)
  | .interrupted =>
      if w.timeout ≤ o.elapsed then pure (sh, .waitReturn w latest)
      else pure (sh, .timerPoll (w.spend o.elapsed) latest)

def timerPublishStep (b : Build) (o : Oracle Tid n) (sh : Shared Tid P n) (w : WaitCall)
    (latest : FutureStatus) : ClientResult Tid P n := do
  let counted ← prepareDownstreamCountDec b latest w.policy
  let desired := { counted with
    state := .result
    outcome := if counted.outcome = .unknown then .success else counted.outcome }
  if FutureStatus.statusEq desired latest then
    pure (sh, .waitReturn w latest)
  else
    desired.check b
    match ← compareExchangeWeak b o sh.word latest desired with
    | .swapped => pure ({ sh with word := desired }, .waitReturn w desired)
    | .failed actual =>
        actual.check b
        pure (sh, .timerPublish w actual)

/-! ## Back to the caller -/

/-- `future_wait` returns `latest` to `udipe_wait`, to the lock holder of a downstream future or to
`future_finish`. -/
def waitReturnStep (b : Build) (t : Tid) (sh : Shared Tid P n) (w : WaitCall)
    (latest : FutureStatus) : ClientResult Tid P n :=
  match w.caller with
  | .wait => pure ({ sh with log := .waited t (latest.state == .result) :: sh.log }, .idle)
  | .upstreamPoll => pure ({ sh with log := .polled t latest :: sh.log }, .idle)
  | .finish f => do
      latest.check b
      assertion b.assertions (latest.state == .result) .finishedWithoutResult
      pure (sh, .finishCollect f latest)

end Udipe

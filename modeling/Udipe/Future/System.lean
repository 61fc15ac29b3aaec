import Udipe.Future.Api
import Udipe.Lib.Machine
import Mathlib.Data.Fintype.Basic

/-!
# A future as a machine

Reference: `future.h` (the lifetime rules of `udipe_finish`, `udipe_cancel` and `udipe_custom_*`).

An `Event` is one step of one party: a client thread starts a call or makes one access, the worker
starts a call or makes one access, or something outside happens (the timer expires, an upstream
changes, a downstream future detaches). The guards are the documented lifetime rules and the
documented behaviour of the kernel. A run is a list of events, so every interleaving is a run.
-/

namespace Udipe

open Checked Function

/-- A public call on the future, or the poll made for a downstream future. -/
inductive Call where
  | wait (timeout : ℕ)
  | cancel (finish : Bool)
  | finish
  | upstreamPoll
deriving DecidableEq, Repr

/-- One step of one party. -/
inductive Event (Tid P : Type) (n : ℕ) where
  | call (t : Tid) (c : Call)
  | client (t : Tid) (o : Oracle Tid n)
  | workerCall (c : WorkerCall P)
  | worker (o : Oracle Tid n)
  | timerExpires
  | upstreamChanges (i : Fin n) (status : FutureStatus)
  | downstreamDetaches
deriving DecidableEq

/-- The shared state and where each party is. `given` is history: the arguments of
`udipe_custom_try_set_result`. -/
structure State (Tid P : Type) (n : ℕ) where
  shared : Shared Tid P n
  pc : Tid → Pc P n
  worker : WorkerPc P
  given : Option (Bool × P)

variable {Tid P : Type} {n : ℕ}

/-- One step of client thread `t` inside a call. -/
def clientStep [DecidableEq Tid] (b : Build) (t : Tid) (o : Oracle Tid n) (sh : Shared Tid P n) :
    Pc P n → ClientResult Tid P n
  | .idle => pure (sh, .idle)
  | .waitLoad w => waitLoadStep b sh w
  | .eagerRegister w latest => eagerRegisterStep b o sh w latest
  | .addressEnter w latest => addressEnterStep b sh w latest
  | .addressWait w latest => addressWaitStep b t sh w latest
  | .addressBlocked w latest => addressBlockedStep t o sh w latest
  | .addressReload w _ woken => addressReloadStep b sh w woken
  | .addressMeasure w latest => addressMeasureStep o sh w latest
  | .countDec w _ => countDecStep b sh w
  | .joinRegister w latest woken => joinRegisterStep b o sh w latest woken
  | .joinPoll w latest pollTimeout => joinPollStep b o sh w latest pollTimeout
  | .joinBatch w latest outcome ids => joinBatchStep b sh w latest outcome ids
  | .joinMeasure w latest inpollTimedOut => joinMeasureStep o sh w latest inpollTimedOut
  | .joinRelease w latest outcome => joinReleaseStep b o sh w latest outcome
  | .joinWakeAll w latest => pure (wakeByAddressAll sh, .joinSignal w latest)
  | .joinSignal w latest => pure ({ sh with latch := true }, .waitReturn w latest)
  | .joinWakeOne w latest => pure (wakeByAddressSingle sh o.wakee, .waitReturn w latest)
  | .timerInc w latest => timerIncStep b sh w latest
  | .timerRevert w => timerRevertStep b sh w
  | .timerPoll w latest => timerPollStep o sh w latest
  | .timerPublish w latest => timerPublishStep b o sh w latest
  | .waitReturn w latest => waitReturnStep b t sh w latest
  | .cancelLoad finish => cancelLoadStep sh finish
  | .cancelCas finish type status => cancelCasStep b o sh finish type status
  | .cancelLatch finish status => cancelLatchStep sh finish status
  | .cancelWake finish status => cancelWakeStep sh finish status
  | .cancelTimer finish status => cancelTimerStep sh finish status
  | .cancelReturn finish canceled status => cancelReturnStep t sh finish canceled status
  | .finishLoad => finishLoadStep sh
  | .finishCas f latest => finishCasStep b o sh f latest
  | .finishCollect f latest => finishCollectStep b sh f latest
  | .finishUpstream f result => finishUpstreamStep b sh f result
  | .finishDetach f result index => finishDetachStep b sh f result index
  | .finishLiberate f result => finishLiberateStep b t sh f result

/-- The first point of a call. `UDIPE_DURATION_DEFAULT` means `UDIPE_DURATION_MAX` to `udipe_wait`. -/
def Call.start : Call → Pc P n
  | .wait timeout =>
      .waitLoad { caller := .wait
                  timeout := if timeout = durationDefault then durationMax else timeout }
  | .cancel andFinish => .cancelLoad andFinish
  | .finish => .finishLoad
  | .upstreamPoll => .waitLoad { caller := .upstreamPoll, timeout := durationMin }

/-- The call destroys the future. -/
def Call.destroys : Call → Bool
  | .cancel andFinish => andFinish
  | .finish => true
  | .wait _ | .upstreamPoll => false

/-- The lock holder of a downstream future is polling. -/
def Pc.isPoll (pc : Pc P n) : Bool :=
  (pc.waitCall?.map WaitCall.caller) == some .upstreamPoll

section

variable [DecidableEq Tid] [Fintype Tid]

/-- The lifetime rules: no call after a destroying one has started; a destroying call starts when
all others have returned and no downstream future is attached; only a downstream future polls. -/
def Call.allowed (c : Call) (s : State Tid P n) : Bool :=
  s.shared.finisher.isNone &&
    match c with
    | .wait timeout => decide (timeout ≤ durationMax)
    | .upstreamPoll => decide (1 ≤ s.shared.downstreams)
    | .cancel false => true
    | .cancel true | .finish =>
        decide (s.shared.downstreams = 0) && decide (∀ u, (s.pc u).isIdle = true)

omit [Fintype Tid] in
/-- What the kernel may answer to the thread at `pc`: a poll reports at least one and at most
`MAX_JOIN_INPOLL_IDENTIFIERS` distinct descriptors, all attached and readable; without a timeout it
does not time out. -/
def Oracle.pollAllowed (o : Oracle Tid n) (sh : Shared Tid P n) (pc : Pc P n) : Bool :=
  match pc, o.poll with
  | .joinPoll _ _ _, .ready ids =>
      !ids.isEmpty && decide (ids.length ≤ maxJoinInpollIdentifiers) && decide ids.Nodup &&
        ids.all fun id =>
          match id with
          | .latch => sh.latch
          | .upstream i => sh.attached i
  | .joinPoll _ _ pollTimeout, .timedOut => decide (pollTimeout < durationMax)
  | .timerPoll _ _, .ready _ => sh.timerReady
  | .timerPoll w _, .timedOut => decide (w.timeout < durationMax)
  | _, _ => true

/-- A single wake ends the sleep of a sleeping thread, if there is one. -/
def Oracle.wakeAllowed (o : Oracle Tid n) (sh : Shared Tid P n) (pc : Pc P n) : Bool :=
  match pc, o.wakee with
  | .joinWakeOne _ _, some u => sh.asleep u
  | .joinWakeOne _ _, none => decide (∀ u, sh.asleep u = false)
  | _, _ => true

/-- Until it is detached, an upstream stays a valid allocated future that counts this one, and a final
status stays final. -/
def upstreamAllowed (sh : Shared Tid P n) (i : Fin n) (status : FutureStatus) : Bool :=
  sh.detached i != 0 ||
    (status.debugCheck true && decide (1 ≤ status.downstreamCount.toNat) &&
      ((sh.upstream i).state != .result ||
        (status.state == .result && status.outcome == (sh.upstream i).outcome)))

/-- One step of one party; `none` when the event cannot happen. -/
def step (b : Build) (s : State Tid P n) (e : Event Tid P n) : Option (State Tid P n) :=
  if s.shared.aborted.isSome then none else
  match e with
  | .call t c =>
      if (s.pc t).isIdle && c.allowed s then
        some { s with
          shared := { s.shared with
            finisher := if c.destroys then some t else s.shared.finisher }
          pc := update s.pc t c.start }
      else none
  | .client t o =>
      if !(s.pc t).isIdle && o.pollAllowed s.shared (s.pc t) && o.wakeAllowed s.shared (s.pc t) then
        match clientStep b t o s.shared (s.pc t) with
        | .ok (sh, pc) => some { s with shared := sh, pc := update s.pc t pc }
        | .error f => some { s with shared := { s.shared with aborted := some f } }
      else none
  | .workerCall c =>
      match s.worker, c with
      | .running sawCanceled, .canceled => some { s with worker := .canceledLoad sawCanceled }
      | .running true, .acknowledgeCancel => some { s with worker := .ackLoad none }
      | .running _, .trySetResult successful payload =>
          some { s with worker := .setLoad successful payload, given := some (successful, payload) }
      | _, _ => none
  | .worker o =>
      match s.worker with
      | .absent | .running _ | .done _ => none
      | pc =>
          match workerStep b o s.shared pc with
          | .ok (sh, pc) => some { s with shared := sh, worker := pc }
          | .error f => some { s with shared := { s.shared with aborted := some f } }
  | .timerExpires => some { s with shared := { s.shared with timerReady := true } }
  | .upstreamChanges i status =>
      if upstreamAllowed s.shared i status then
        some { s with shared := { s.shared with upstream := update s.shared.upstream i status } }
      else none
  | .downstreamDetaches =>
      if 1 ≤ s.shared.downstreams ∧
          (2 ≤ s.shared.downstreams ∨ ∀ u, (s.pc u).isPoll = false) then
        let sh := { s.shared with
          word := s.shared.word.fetchSub
          downstreams := s.shared.downstreams - 1 }
        match decremented b s.shared.word with
        | .ok _ => some { s with shared := sh }
        | .error f => some { s with shared := { sh with aborted := some f } }
      else none

/-- The machine of one future. -/
def future (b : Build) : Machine (State Tid P n) (Event Tid P n) where
  step := step b

end

/-- Nothing unexpected happens and no time passes. -/
def Oracle.calm (Tid : Type) (n : ℕ) : Oracle Tid n where
  spurious := false
  elapsed := 0
  poll := .interrupted
  wakee := none

/-! ## Initial states -/

/-- The status of a future that is ready for use: well-formed, available, of a type that is implemented,
not locked, and unresolved if a worker is to complete it. -/
def FutureStatus.startable (status : FutureStatus) : Bool :=
  status.debugCheck true && status.available &&
    match status.type with
    | .custom => status.state == .processing
    | .join => !status.notifyEventOrLazyLock
    | .timerOnce => true
    | _ => false

/-- The status that `udipe_start_custom` stores. -/
def FutureStatus.startCustom : FutureStatus where
  downstreamCount := 0
  downstreamCountOverflow := false
  available := true
  state := .processing
  outcome := .unknown
  type := .custom
  notifyAddress := false
  notifyEventOrLazyLock := false
  reserved := 0

/-- An upstream that counts its downstream future. -/
def FutureStatus.counted : FutureStatus := { FutureStatus.startCustom with downstreamCount := 1 }

/-- A timer that has not expired. -/
def FutureStatus.startTimerOnce : FutureStatus :=
  { FutureStatus.startCustom with type := .timerOnce }

/-- A join that waits for its upstreams. -/
def FutureStatus.startJoin : FutureStatus :=
  { FutureStatus.startCustom with type := .join, state := .waiting }

/-- A future that was given `status`, before any call on it. Its downstream futures are counted, its
upstreams attached to the inpoll, and a worker thread runs if the type has one. -/
def State.start (status : FutureStatus) (payload : P) (upstream : Fin n → FutureStatus) :
    State Tid P n where
  shared :=
    { word := status
      asleep := fun _ => false
      payload := payload
      event := false
      timerReady := false
      latch := false
      upstream := upstream
      attached := fun _ => true
      remaining := n
      detached := fun _ => 0
      downstreams := status.downstreamCount.toNat
      finisher := none
      liberated := false
      aborted := none
      log := [] }
  pc := fun _ => .idle
  worker := if status.type.usesWorkerThread then .running false else .absent
  given := none

end Udipe

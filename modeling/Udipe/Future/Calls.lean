import Udipe.Future.Status

/-!
# The shared state of a future and the calls in progress on it

Reference: `future.h`, `future/status_sync.h`, `future/collective_upstream.h`, `future/wait.h`.

One future is shared by client threads, by the worker thread of a custom future and by the kernel.
`Shared` is what they share. A `Pc` says how far a client thread is in its call, with the local
variables that are live there; there is one constructor between any two accesses to shared state.
-/

namespace Udipe

/-- `UDIPE_DURATION_DEFAULT`. -/
def durationDefault : ℕ := 0

/-- `UDIPE_DURATION_MIN`. -/
def durationMin : ℕ := 1

/-- `UDIPE_DURATION_MAX`. -/
def durationMax : ℕ := 2 ^ 64 - 1

/-- `MAX_JOIN_INPOLL_IDENTIFIERS`. -/
def maxJoinInpollIdentifiers : ℕ := 4

/-- Who called `future_finish`: `udipe_finish`, or `udipe_cancel` with this `canceled`. -/
inductive FinishCaller where
  | finish
  | cancel (canceled : Bool)
deriving DecidableEq, Repr

/-- Who called `future_wait`. -/
inductive WaitCaller where
  /-- `udipe_wait`. -/
  | wait
  /-- `future_finish`. -/
  | finish (caller : FinishCaller)
  /-- The `lazy_lock` holder of a downstream future, polling its upstreams. -/
  | upstreamPoll
deriving DecidableEq, Repr

/-- The arguments of `future_wait`, with `timeout` as updated during the wait. -/
structure WaitCall where
  caller : WaitCaller
  timeout : ℕ
deriving DecidableEq, Repr

/-- `count_policy` as passed by each caller. -/
def WaitCall.policy (w : WaitCall) : DownstreamCountPolicy :=
  match w.caller with
  | .wait => .cycle
  | .finish _ | .upstreamPoll => .keep

/-- `timeout -= elapsed_time`. -/
def WaitCall.spend (w : WaitCall) (elapsed : ℕ) : WaitCall :=
  { w with timeout := w.timeout - elapsed }

@[simp] theorem WaitCall.caller_spend (w : WaitCall) (elapsed : ℕ) :
    (w.spend elapsed).caller = w.caller := rfl

@[simp] theorem WaitCall.policy_spend (w : WaitCall) (elapsed : ℕ) :
    (w.spend elapsed).policy = w.policy := rfl

/-- `udipe_result_t`: the result type of a future type, with the payload read from `specific`, or one
of the two failures. -/
inductive Result (P : Type) where
  | typed (type : FutureType) (payload : Option P)
  | failureDependency
  | failureCanceled
deriving DecidableEq, Repr

/-- What a call returned to thread `t`. -/
inductive Response (Tid P : Type) where
  | waited (t : Tid) (ready : Bool)
  | polled (t : Tid) (status : FutureStatus)
  | canceled (t : Tid) (canceled : Bool)
  | finished (t : Tid) (result : Result P)
deriving DecidableEq, Repr

/-- An identifier reported by the inpoll of a join with `n` upstreams. -/
inductive InpollId (n : ℕ) where
  /-- `INPOLL_LATCH_ID`. -/
  | latch
  | upstream (i : Fin n)
deriving DecidableEq, Repr

/-- What `epoll_pwait2` and `ppoll` answer. -/
inductive PollAnswer (n : ℕ) where
  /-- Some descriptors are readable. `ppoll` has one descriptor and reports no identifier. -/
  | ready (ids : List (InpollId n))
  /-- The kernel timeout elapsed. -/
  | timedOut
  /-- `EINTR`. -/
  | interrupted
deriving DecidableEq, Repr

/-- What is left open by the code at one step: the kernel's, the clock's and the hardware's choice. -/
structure Oracle (Tid : Type) (n : ℕ) where
  /-- A weak compare-exchange fails, or a futex wait returns, for no reason. -/
  spurious : Bool
  /-- What `stopwatch_measure` returns. -/
  elapsed : ℕ
  poll : PollAnswer n
  /-- The thread chosen by `wake_by_address_single`. -/
  wakee : Option Tid
deriving DecidableEq, Repr

/-- The state shared by everyone who uses the future.

`downstreams`, `finisher`, `detached`, `liberated` and `log` are history: no step of the code reads
them. -/
structure Shared (Tid P : Type) (n : ℕ) where
  /-- `status_word`. -/
  word : FutureStatus
  /-- The threads that sleep in a futex wait on `status_word`. -/
  asleep : Tid → Bool
  /-- `specific.custom_payload`, or the payload of the other types in `specific`. -/
  payload : P
  /-- `status_sync.event` is signaled. -/
  event : Bool
  /-- `status_sync.timer_once` is readable. -/
  timerReady : Bool
  /-- `specific.join.inpoll_latch` is signaled. -/
  latch : Bool
  /-- The status words of the futures in `specific.join.upstream.array`. -/
  upstream : Fin n → FutureStatus
  /-- The upstreams in the interest list of `status_sync.latched_inpoll`. -/
  attached : Fin n → Bool
  /-- `specific.join.upstream.remaining`. -/
  remaining : ℕ
  /-- How often `future_upstream_detach` decremented each upstream's `downstream_count`. -/
  detached : Fin n → ℕ
  /-- The downstream futures attached to this one. -/
  downstreams : ℕ
  /-- The thread that destroys the future, by `udipe_finish` or `udipe_cancel(future, true)`. -/
  finisher : Option Tid
  liberated : Bool
  /-- The process has ended. -/
  aborted : Option Failure
  /-- What the calls returned, latest first. -/
  log : List (Response Tid P)

/-- Where a client thread is in its call. -/
inductive Pc (P : Type) (n : ℕ) where
  | idle
  /-- `future_wait`: the initial load. -/
  | waitLoad (w : WaitCall)
  /-- `future_wait_eager`: the registration loop. -/
  | eagerRegister (w : WaitCall) (latest : FutureStatus)
  /-- `future_wait_by_adress`: the assertions on entry. -/
  | addressEnter (w : WaitCall) (latest : FutureStatus)
  /-- Entering `future_status_wait`. -/
  | addressWait (w : WaitCall) (latest : FutureStatus)
  /-- In the futex wait. -/
  | addressBlocked (w : WaitCall) (latest : FutureStatus)
  /-- After a successful wait; `woken` when a wake call ended it. -/
  | addressReload (w : WaitCall) (latest : FutureStatus) (woken : Bool)
  /-- Measuring the time after a wait that led nowhere. -/
  | addressMeasure (w : WaitCall) (latest : FutureStatus)
  /-- `future_downstream_count_dec` after `future_wait_by_adress`. -/
  | countDec (w : WaitCall) (latest : FutureStatus)
  /-- `future_wait_join`: the registration loop; `woken` as in `addressReload`. -/
  | joinRegister (w : WaitCall) (latest : FutureStatus) (woken : Bool)
  /-- In `inpoll_wait`, whose own copy of the timeout is `pollTimeout`. -/
  | joinPoll (w : WaitCall) (latest : FutureStatus) (pollTimeout : ℕ)
  /-- In the loop over the reported identifiers. -/
  | joinBatch (w : WaitCall) (latest : FutureStatus) (outcome : FutureOutcome)
      (ids : List (InpollId n))
  /-- Measuring the time after a batch or a timeout of `inpoll_wait`. -/
  | joinMeasure (w : WaitCall) (latest : FutureStatus) (inpollTimedOut : Bool)
  /-- The loop that publishes the outcome, if known, and releases `lazy_lock`. -/
  | joinRelease (w : WaitCall) (latest : FutureStatus) (outcome : FutureOutcome)
  /-- `wake_by_address_all`, then the latch. -/
  | joinWakeAll (w : WaitCall) (latest : FutureStatus)
  /-- `event_signal(inpoll_latch)`. -/
  | joinSignal (w : WaitCall) (latest : FutureStatus)
  /-- `wake_by_address_single`. -/
  | joinWakeOne (w : WaitCall) (latest : FutureStatus)
  /-- `future_downstream_count_try_inc`. -/
  | timerInc (w : WaitCall) (latest : FutureStatus)
  /-- Reverting the increment. -/
  | timerRevert (w : WaitCall)
  /-- In `ppoll`. -/
  | timerPoll (w : WaitCall) (latest : FutureStatus)
  /-- The loop that publishes the readiness of the timer. -/
  | timerPublish (w : WaitCall) (latest : FutureStatus)
  /-- `future_wait` is about to return `latest`. -/
  | waitReturn (w : WaitCall) (latest : FutureStatus)
  /-- `udipe_cancel`: the initial load. -/
  | cancelLoad (finish : Bool)
  /-- The loop that marks the future as canceled. -/
  | cancelCas (finish : Bool) (type : FutureType) (status : FutureStatus)
  /-- `event_signal(inpoll_latch)`. -/
  | cancelLatch (finish : Bool) (status : FutureStatus)
  /-- `wake_by_address_all`. -/
  | cancelWake (finish : Bool) (status : FutureStatus)
  /-- Turning back the clock of a timer. -/
  | cancelTimer (finish : Bool) (status : FutureStatus)
  /-- The label `finish` of `udipe_cancel`. -/
  | cancelReturn (finish : Bool) (canceled : Bool) (status : FutureStatus)
  /-- `udipe_finish`: the initial load. -/
  | finishLoad
  /-- `future_finish`: the loop that marks the future as unavailable. -/
  | finishCas (caller : FinishCaller) (latest : FutureStatus)
  /-- Collecting the result. -/
  | finishCollect (caller : FinishCaller) (latest : FutureStatus)
  /-- `future_upstream_detach`: reading the type. -/
  | finishUpstream (caller : FinishCaller) (result : Option (Result P))
  /-- The loop of `future_upstream_detach`. -/
  | finishDetach (caller : FinishCaller) (result : Option (Result P)) (index : ℕ)
  /-- The rest of `future_liberate`. -/
  | finishLiberate (caller : FinishCaller) (result : Option (Result P))
deriving DecidableEq, Repr

/-- Not in a call. -/
def Pc.isIdle {P : Type} {n : ℕ} : Pc P n → Bool
  | .idle => true
  | _ => false

@[simp] theorem Pc.isIdle_iff {P : Type} {n : ℕ} {pc : Pc P n} : pc.isIdle = true ↔ pc = .idle := by
  cases pc <;> simp [isIdle]

/-- The `future_wait` call the thread is in. -/
def Pc.waitCall? {P : Type} {n : ℕ} : Pc P n → Option WaitCall
  | waitLoad w | eagerRegister w _ | addressEnter w _ | addressWait w _ | addressBlocked w _
  | addressReload w _ _ | addressMeasure w _ | countDec w _ | joinRegister w _ _ | joinPoll w _ _
  | joinBatch w _ _ _ | joinMeasure w _ _ | joinRelease w _ _ | joinWakeAll w _ | joinSignal w _
  | joinWakeOne w _ | timerInc w _ | timerRevert w | timerPoll w _ | timerPublish w _
  | waitReturn w _ => some w
  | _ => none

end Udipe

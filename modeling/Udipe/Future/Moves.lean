import Udipe.Future.System

/-!
# What one step can do

`ClientStep` and `WorkerStep` list every way in which a client or the worker can move, `Step` every
event of the machine. Each case carries the guards under which it happens and the state it leaves, so
the proofs about runs split into these cases and never unfold the code again. `step_cases` is the link
to the executable definitions.
-/

namespace Udipe

open Checked Function

/-! ## The words that are stored -/

/-- What the policy adds to `downstream_count`. -/
def DownstreamCountPolicy.delta : DownstreamCountPolicy → BitVec 16
  | .cycle => 1
  | .keep => 0

namespace FutureStatus

/-- The effect of `prepare_downstream_count_inc`. -/
def inc (p : DownstreamCountPolicy) (s : FutureStatus) : FutureStatus :=
  { s with downstreamCount := s.downstreamCount + p.delta }

/-- The effect of `prepare_downstream_count_dec`. -/
def dec (p : DownstreamCountPolicy) (s : FutureStatus) : FutureStatus :=
  { s with downstreamCount := s.downstreamCount - p.delta }

/-- Registered as an address waiter. -/
def registered (p : DownstreamCountPolicy) (s : FutureStatus) : FutureStatus :=
  { s.inc p with notifyAddress := true }

/-- Registered as the holder of `lazy_lock`. -/
def locked (p : DownstreamCountPolicy) (s : FutureStatus) : FutureStatus :=
  { s.inc p with notifyEventOrLazyLock := true }

/-- After `lazy_lock` is released, with the outcome published if it is known. -/
def released (p : DownstreamCountPolicy) (outcome : FutureOutcome) (s : FutureStatus) :
    FutureStatus :=
  { s.dec p with
    state := if outcome = .unknown then s.state else .result
    outcome := if outcome = .unknown then s.outcome else outcome
    notifyEventOrLazyLock := false }

/-- After a timer was seen ready. -/
def published (p : DownstreamCountPolicy) (s : FutureStatus) : FutureStatus :=
  { s.dec p with
    state := .result
    outcome := if s.outcome = .unknown then .success else s.outcome }

/-- After a cancelation. -/
def canceledAs (type : FutureType) (s : FutureStatus) : FutureStatus :=
  { s with
    outcome := .failureCanceled
    state := if type.usesWorkerThread then .canceling else .result }

/-- After the start of `future_finish`. -/
def unavailable (s : FutureStatus) : FutureStatus := { s with available := false }

/-- After `udipe_custom_try_set_result`. -/
def succeeded (s : FutureStatus) : FutureStatus := { s with state := .result, outcome := .success }

/-- After `udipe_custom_acknowledge_cancel`. -/
def acknowledged (s : FutureStatus) : FutureStatus := { s with state := .result }

end FutureStatus

/-- What `prepare_downstream_count_inc` checks. -/
theorem prepareDownstreamCountInc_eq_ok {b : Build} {s r : FutureStatus}
    {p : DownstreamCountPolicy} (h : prepareDownstreamCountInc b s p = .ok r) :
    r = s.inc p ∧ (b.assertions = true → s.state ≠ .result) ∧
      s.downstreamCountOverflow = false ∧
      (p = .cycle → s.downstreamCount ≠ FutureStatus.maxDownstreamCount) := by
  simp only [prepareDownstreamCountInc, bind_eq_ok, FutureStatus.check, assertion_eq_ok,
    ensure_eq_ok] at h
  obtain ⟨-, -, -, hstate, -, hoverflow, h⟩ := h
  refine ⟨?_, by simpa using hstate, by simpa using hoverflow, ?_⟩
  · cases p with
    | cycle =>
        simp only [bind_eq_ok, pure_eq_ok] at h
        obtain ⟨-, -, rfl⟩ := h
        rfl
    | keep =>
        rw [← pure_eq_ok.mp h]
        simp [FutureStatus.inc, DownstreamCountPolicy.delta]
  · rintro rfl hmax
    simp only [bind_eq_ok, ensure_eq_ok, hmax] at h
    simp at h

/-- What `prepare_downstream_count_dec` checks. -/
theorem prepareDownstreamCountDec_eq_ok {b : Build} {s r : FutureStatus}
    {p : DownstreamCountPolicy} (h : prepareDownstreamCountDec b s p = .ok r) :
    r = s.dec p ∧ (p = .cycle → s.downstreamCount ≠ 0) := by
  simp only [prepareDownstreamCountDec, bind_eq_ok, FutureStatus.check, assertion_eq_ok,
    ensure_eq_ok] at h
  obtain ⟨-, -, -, -, h⟩ := h
  constructor
  · cases p with
    | cycle =>
        simp only [bind_eq_ok, pure_eq_ok] at h
        obtain ⟨-, -, rfl⟩ := h
        rfl
    | keep =>
        rw [← pure_eq_ok.mp h]
        simp [FutureStatus.dec, DownstreamCountPolicy.delta]
  · rintro rfl hzero
    simp only [bind_eq_ok, ensure_eq_ok, hzero] at h
    simp at h

variable {Tid P : Type} {n : ℕ}

/-- A compare-exchange swaps only the expected word. -/
theorem compareExchangeWeak_swapped {b : Build} {o : Oracle Tid n} {word expected desired : FutureStatus}
    (h : compareExchangeWeak b o word expected desired = .ok .swapped) :
    word = expected ∧ o.spurious = false := by
  simp only [compareExchangeWeak, bind_eq_ok] at h
  obtain ⟨-, -, -, -, h⟩ := h
  split at h
  · simp_all
  · simp [map_eq_ok] at h

/-- A compare-exchange that fails reads the word. -/
theorem compareExchangeWeak_failed {b : Build} {o : Oracle Tid n}
    {word expected desired actual : FutureStatus}
    (h : compareExchangeWeak b o word expected desired = .ok (.failed actual)) : actual = word := by
  simp only [compareExchangeWeak, bind_eq_ok] at h
  obtain ⟨-, -, -, -, h⟩ := h
  split at h
  · simp [pure_eq_ok] at h
  · simp only [bind_eq_ok, pure_eq_ok] at h
    obtain ⟨-, -, h⟩ := h
    simpa using h.symm

/-- A compare-exchange fails because the word is another one, or for no reason. -/
theorem compareExchangeWeak_failed_cause {b : Build} {o : Oracle Tid n}
    {word expected desired actual : FutureStatus}
    (h : compareExchangeWeak b o word expected desired = .ok (.failed actual)) :
    word ≠ expected ∨ o.spurious = true := by
  simp only [compareExchangeWeak, bind_eq_ok] at h
  obtain ⟨-, -, -, -, h⟩ := h
  split at h
  · simp [pure_eq_ok] at h
  · rename_i hne
    by_contra hboth
    simp_all

/-- `future_downstream_count_dec` returns the decremented status. -/
theorem decremented_eq_ok {b : Build} {s r : FutureStatus} (h : decremented b s = .ok r) :
    r = s.dec .cycle := by
  simp only [decremented, bind_eq_ok, pure_eq_ok] at h
  obtain ⟨-, -, -, -, -, -, rfl⟩ := h
  rfl

/-! ## Clients -/

/-- Where a waiter goes when `future_wait_by_adress` succeeded or timed out. -/
def countedReturn (w : WaitCall) (latest : FutureStatus) : Pc P n :=
  match w.policy with
  | .cycle => .countDec w latest
  | .keep => .waitReturn w latest

/-- The result that `future_finish` collects for its caller. -/
def Collects (b : Build) (payload : P) (f : FinishCaller) (latest : FutureStatus) :
    Option (Result P) → Prop
  | some r => f = .finish ∧ collectResult b latest payload = .ok r
  | none => ∃ canceled, f = .cancel canceled

/-- `f` can be what the checks around a fetch-and-add from `s` to `s'` report. -/
def FetchFailure (b : Build) (s s' : FutureStatus) (f : Failure) : Prop :=
  f ≠ .finishedInUse ∧ (f = .statusCheck →
    b.assertions = true ∧ (s.debugCheck true = false ∨ s'.debugCheck true = false))

/-- The moves of a client that leave the shared state as it is. -/
inductive LocalMove (b : Build) (t : Tid) (o : Oracle Tid n) (sh : Shared Tid P n) :
    Pc P n → Pc P n → Prop
  | waitReady {w} (hs : sh.word.state = .result) :
      LocalMove b t o sh (.waitLoad w) (.waitReturn w sh.word)
  | waitNow {w} (hs : sh.word.state ≠ .result) (hty : sh.word.type.usesWorkerThread = true)
      (hw : w.timeout = durationMin) :
      LocalMove b t o sh (.waitLoad w) (.waitReturn w sh.word)
  | waitEager {w} (hs : sh.word.state ≠ .result) (hty : sh.word.type.usesWorkerThread = true) :
      LocalMove b t o sh (.waitLoad w) (.eagerRegister w sh.word)
  | waitJoin {w} (hs : sh.word.state ≠ .result) (hty : sh.word.type = .join) :
      LocalMove b t o sh (.waitLoad w) (.joinRegister w sh.word false)
  | waitTimerInc {w} (hs : sh.word.state ≠ .result) (hty : sh.word.type = .timerOnce)
      (hp : w.policy = .cycle) : LocalMove b t o sh (.waitLoad w) (.timerInc w sh.word)
  | waitTimerPoll {w} (hs : sh.word.state ≠ .result) (hty : sh.word.type = .timerOnce)
      (hp : w.policy = .keep) : LocalMove b t o sh (.waitLoad w) (.timerPoll w sh.word)
  | eagerKnown {w latest} (hl : latest.registered w.policy = latest) :
      LocalMove b t o sh (.eagerRegister w latest) (.addressEnter w latest)
  | eagerReady {w latest} (hs : sh.word.state = .result) :
      LocalMove b t o sh (.eagerRegister w latest) (.waitReturn w sh.word)
  | eagerRetry {w latest} (hs : sh.word.state ≠ .result) :
      LocalMove b t o sh (.eagerRegister w latest) (.eagerRegister w sh.word)
  | addressEnter {w latest} : LocalMove b t o sh (.addressEnter w latest) (.addressWait w latest)
  | addressEqual {w} (hw : w.timeout = durationMin) :
      LocalMove b t o sh (.addressWait w sh.word) (.addressMeasure w sh.word)
  | addressChanged {w latest} (hne : sh.word ≠ latest) :
      LocalMove b t o sh (.addressWait w latest) (.addressReload w latest false)
  | addressWoken {w latest} (ha : sh.asleep t = false) :
      LocalMove b t o sh (.addressBlocked w latest) (.addressReload w latest true)
  | reloadReady {w latest woken} (hs : sh.word.state = .result) :
      LocalMove b t o sh (.addressReload w latest woken) (countedReturn w sh.word)
  | reloadUnlocked {w latest woken} (hs : sh.word.state ≠ .result) (hty : sh.word.type = .join)
      (hlock : sh.word.notifyEventOrLazyLock = false) :
      LocalMove b t o sh (.addressReload w latest woken) (.joinRegister w sh.word woken)
  | reloadAgain {w latest woken} (hs : sh.word.state ≠ .result)
      (hlock : sh.word.type.usesLazyLock = true → sh.word.notifyEventOrLazyLock = true) :
      LocalMove b t o sh (.addressReload w latest woken) (.addressMeasure w sh.word)
  | measureAgain {w latest} (he : o.elapsed < w.timeout) :
      LocalMove b t o sh (.addressMeasure w latest) (.addressWait (w.spend o.elapsed) latest)
  | measureDone {w latest} (he : w.timeout ≤ o.elapsed) :
      LocalMove b t o sh (.addressMeasure w latest)
        (countedReturn { w with timeout := durationMin } latest)
  | measureUnlocked {w latest} (he : w.timeout ≤ o.elapsed) (hty : latest.type = .join)
      (hlock : latest.notifyEventOrLazyLock = false) :
      LocalMove b t o sh (.addressMeasure w latest)
        (.joinRegister { w with timeout := durationMin } latest false)
  | joinKnown {w latest woken} (hlock : latest.notifyEventOrLazyLock = true)
      (hl : latest.registered w.policy = latest) :
      LocalMove b t o sh (.joinRegister w latest woken) (.addressEnter w latest)
  | joinReady {w latest woken} (hs : sh.word.state = .result) :
      LocalMove b t o sh (.joinRegister w latest woken) (.waitReturn w sh.word)
  | joinRetry {w latest woken} (hs : sh.word.state ≠ .result) :
      LocalMove b t o sh (.joinRegister w latest woken) (.joinRegister w sh.word woken)
  | pollReady {w latest pollTimeout ids} (ho : o.poll = .ready ids) :
      LocalMove b t o sh (.joinPoll w latest pollTimeout) (.joinBatch w latest .unknown ids)
  | pollInterrupted {w latest pollTimeout} (ho : o.poll = .interrupted) :
      LocalMove b t o sh (.joinPoll w latest pollTimeout)
        (.joinPoll w latest (pollTimeout - o.elapsed))
  | pollTimedOut {w latest pollTimeout} (ho : o.poll = .interrupted) :
      LocalMove b t o sh (.joinPoll w latest pollTimeout) (.joinMeasure w latest true)
  | batchKnown {w latest outcome} (hk : outcome ≠ .unknown) :
      LocalMove b t o sh (.joinBatch w latest outcome []) (.joinRelease w latest outcome)
  | batchComplete {w latest} (hr : sh.remaining = 0) :
      LocalMove b t o sh (.joinBatch w latest .unknown []) (.joinRelease w latest .success)
  | batchAgain {w latest} (hr : sh.remaining ≠ 0) :
      LocalMove b t o sh (.joinBatch w latest .unknown []) (.joinMeasure w latest false)
  | batchLatch {w latest outcome rest} (hs : sh.word.state = .result)
      (hk : sh.word.outcome = .failureCanceled) :
      LocalMove b t o sh (.joinBatch w latest outcome (.latch :: rest))
        (.joinRelease w sh.word .failureCanceled)
  | batchSkip {w latest outcome i rest} (hs : (sh.upstream i).state ≠ .result) :
      LocalMove b t o sh (.joinBatch w latest outcome (.upstream i :: rest))
        (.joinBatch w latest outcome rest)
  | measureRelease {w w' latest inpollTimedOut} (hw : w'.caller = w.caller) :
      LocalMove b t o sh (.joinMeasure w latest inpollTimedOut) (.joinRelease w' latest .unknown)
  | measurePoll {w w' latest} (hw : w'.caller = w.caller) :
      LocalMove b t o sh (.joinMeasure w latest false) (.joinPoll w' latest w'.timeout)
  | releaseRetry {w latest outcome} (hfail : sh.word ≠ latest ∨ o.spurious = true) :
      LocalMove b t o sh (.joinRelease w latest outcome) (.joinRelease w sh.word outcome)
  | timerReady {w latest ids} (ho : o.poll = .ready ids) :
      LocalMove b t o sh (.timerPoll w latest) (.timerPublish w latest)
  | timerTimedOut {w latest} (ho : o.poll = .timedOut) :
      LocalMove b t o sh (.timerPoll w latest) (.waitReturn w latest)
  | timerInterrupted {w latest} (ho : o.poll = .interrupted) (he : w.timeout ≤ o.elapsed) :
      LocalMove b t o sh (.timerPoll w latest) (.waitReturn w latest)
  | timerAgain {w latest} (ho : o.poll = .interrupted) (he : o.elapsed < w.timeout) :
      LocalMove b t o sh (.timerPoll w latest) (.timerPoll (w.spend o.elapsed) latest)
  | publishKnown {w latest} (hl : latest.published w.policy = latest) :
      LocalMove b t o sh (.timerPublish w latest) (.waitReturn w latest)
  | publishRetry {w latest} :
      LocalMove b t o sh (.timerPublish w latest) (.timerPublish w sh.word)
  | finishWaited {w latest f} (hw : w.caller = .finish f)
      (hs : b.assertions = true → latest.state = .result) :
      LocalMove b t o sh (.waitReturn w latest) (.finishCollect f latest)
  | cancelLoad {fin} :
      LocalMove b t o sh (.cancelLoad fin) (.cancelCas fin sh.word.type sh.word)
  | cancelKnown {fin type status} (hk : status.outcome ≠ .unknown) :
      LocalMove b t o sh (.cancelCas fin type status) (.cancelReturn fin false status)
  | cancelRetry {fin type status} :
      LocalMove b t o sh (.cancelCas fin type status) (.cancelCas fin type sh.word)
  | cancelFinish {canceled status} :
      LocalMove b t o sh (.cancelReturn true canceled status) (.finishCas (.cancel canceled) status)
  | finishLoad : LocalMove b t o sh .finishLoad (.finishCas .finish sh.word)
  | finishRetry {f latest} (hfail : sh.word ≠ latest ∨ o.spurious = true) :
      LocalMove b t o sh (.finishCas f latest) (.finishCas f sh.word)
  | finishCollect {f latest result} (hr : Collects b sh.payload f latest result) :
      LocalMove b t o sh (.finishCollect f latest) (.finishUpstream f result)
  | finishUpstreams {f result} (hty : sh.word.type = .join ∨ sh.word.type = .unordered) :
      LocalMove b t o sh (.finishUpstream f result) (.finishDetach f result 0)
  | finishAlone {f result} (hty : sh.word.type ≠ .join) :
      LocalMove b t o sh (.finishUpstream f result) (.finishLiberate f result)

/-- Every step of a client inside a call. The cases with `f : Failure` stored a word and then ended the
process. -/
inductive ClientStep [DecidableEq Tid] (b : Build) (t : Tid) (o : Oracle Tid n)
    (sh : Shared Tid P n) : Pc P n → Shared Tid P n → Pc P n → Prop
  | move {pc pc'} (h : LocalMove b t o sh pc pc') : ClientStep b t o sh pc sh pc'
  | eagerRegister {w} (ho : sh.word.downstreamCountOverflow = false)
      (hmax : w.policy = .cycle → sh.word.downstreamCount ≠ FutureStatus.maxDownstreamCount) :
      ClientStep b t o sh (.eagerRegister w sh.word)
        { sh with word := sh.word.registered w.policy }
        (.addressEnter w (sh.word.registered w.policy))
  | joinRegister {w woken} (ho : sh.word.downstreamCountOverflow = false)
      (hmax : w.policy = .cycle → sh.word.downstreamCount ≠ FutureStatus.maxDownstreamCount)
      (hlock : sh.word.notifyEventOrLazyLock = true) :
      ClientStep b t o sh (.joinRegister w sh.word woken)
        { sh with word := sh.word.registered w.policy }
        (.addressEnter w (sh.word.registered w.policy))
  | joinLock {w woken} (ho : sh.word.downstreamCountOverflow = false)
      (hmax : w.policy = .cycle → sh.word.downstreamCount ≠ FutureStatus.maxDownstreamCount)
      (hlock : sh.word.notifyEventOrLazyLock = false) :
      ClientStep b t o sh (.joinRegister w sh.word woken)
        { sh with word := sh.word.locked w.policy }
        (.joinPoll w (sh.word.locked w.policy) w.timeout)
  | sleep {w} (hw : w.timeout ≠ durationMin) :
      ClientStep b t o sh (.addressWait w sh.word)
        { sh with asleep := update sh.asleep t true } (.addressBlocked w sh.word)
  | wakeSpurious {w latest} (ha : sh.asleep t = true) :
      ClientStep b t o sh (.addressBlocked w latest)
        { sh with asleep := update sh.asleep t false } (.addressReload w latest false)
  | wakeTimeout {w latest} (ha : sh.asleep t = true) :
      ClientStep b t o sh (.addressBlocked w latest)
        { sh with asleep := update sh.asleep t false } (.addressMeasure w latest)
  | countDec {w latest} :
      ClientStep b t o sh (.countDec w latest)
        { sh with word := sh.word.fetchSub } (.waitReturn w (sh.word.dec .cycle))
  | countDecFails {w latest f} (hf : FetchFailure b sh.word (sh.word.dec .cycle) f) :
      ClientStep b t o sh (.countDec w latest)
        { sh with word := sh.word.fetchSub, aborted := some f } .idle
  | integrate {w latest outcome outcome' i rest} (hs : (sh.upstream i).state = .result)
      (hr : 1 ≤ sh.remaining)
      (hk : integrateUpstream b outcome (sh.upstream i).outcome = .ok outcome') :
      ClientStep b t o sh (.joinBatch w latest outcome (.upstream i :: rest))
        { sh with
          remaining := sh.remaining - 1
          attached := update sh.attached i false }
        (.joinBatch w latest outcome' rest)
  | release {w outcome} (ho : o.spurious = false)
      (hcount : w.policy = .cycle → sh.word.downstreamCount ≠ 0) :
      ClientStep b t o sh (.joinRelease w sh.word outcome)
        { sh with word := sh.word.released w.policy outcome }
        (afterRelease w (sh.word.released w.policy outcome) outcome)
  | wakeAll {w latest} :
      ClientStep b t o sh (.joinWakeAll w latest) (wakeByAddressAll sh) (.joinSignal w latest)
  | signal {w latest} :
      ClientStep b t o sh (.joinSignal w latest) { sh with latch := true } (.waitReturn w latest)
  | wakeOne {w latest} :
      ClientStep b t o sh (.joinWakeOne w latest) (wakeByAddressSingle sh o.wakee)
        (.waitReturn w latest)
  | timerInc {w latest} (ho : sh.word.downstreamCountOverflow = false)
      (hmax : sh.word.downstreamCount ≠ FutureStatus.maxDownstreamCount)
      (hs : sh.word.state ≠ .result) :
      ClientStep b t o sh (.timerInc w latest)
        { sh with word := sh.word.fetchAdd } (.timerPoll w (sh.word.inc .cycle))
  | timerIncReady {w latest} (ho : sh.word.downstreamCountOverflow = false)
      (hmax : sh.word.downstreamCount ≠ FutureStatus.maxDownstreamCount)
      (hs : sh.word.state = .result) :
      ClientStep b t o sh (.timerInc w latest)
        { sh with word := sh.word.fetchAdd } (.timerRevert w)
  | timerIncFails {w latest f} (hf : FetchFailure b sh.word (sh.word.inc .cycle) f) :
      ClientStep b t o sh (.timerInc w latest)
        { sh with word := sh.word.fetchAdd, aborted := some f } .idle
  | timerRevert {w} (hs : sh.word.state = .result) :
      ClientStep b t o sh (.timerRevert w)
        { sh with word := sh.word.fetchSub } (.waitReturn w (sh.word.dec .cycle))
  | timerRevertFails {w f} (hf : FetchFailure b sh.word (sh.word.dec .cycle) f) :
      ClientStep b t o sh (.timerRevert w)
        { sh with word := sh.word.fetchSub, aborted := some f } .idle
  | publish {w} (ho : o.spurious = false)
      (hcount : w.policy = .cycle → sh.word.downstreamCount ≠ 0) :
      ClientStep b t o sh (.timerPublish w sh.word)
        { sh with word := sh.word.published w.policy }
        (.waitReturn w (sh.word.published w.policy))
  | waited {w latest} (hw : w.caller = .wait) :
      ClientStep b t o sh (.waitReturn w latest)
        { sh with log := .waited t (latest.state == .result) :: sh.log } .idle
  | polled {w latest} (hw : w.caller = .upstreamPoll) :
      ClientStep b t o sh (.waitReturn w latest)
        { sh with log := .polled t latest :: sh.log } .idle
  | cancel {fin type pc'} (hk : sh.word.outcome = .unknown)
      (hpc : afterCancel fin type (sh.word.canceledAs type) = .ok pc') :
      ClientStep b t o sh (.cancelCas fin type sh.word)
        { sh with word := sh.word.canceledAs type } pc'
  | cancelFails {fin type f} (hk : sh.word.outcome = .unknown)
      (hpc : (afterCancel fin type (sh.word.canceledAs type) : Except Failure (Pc P n)) =
        .error f) :
      ClientStep b t o sh (.cancelCas fin type sh.word)
        { sh with word := sh.word.canceledAs type, aborted := some f } .idle
  | cancelLatch {fin status} :
      ClientStep b t o sh (.cancelLatch fin status) { sh with latch := true }
        (if status.notifyAddress then .cancelWake fin status else .cancelReturn fin true status)
  | cancelWake {fin status} :
      ClientStep b t o sh (.cancelWake fin status) (wakeByAddressAll sh)
        (.cancelReturn fin true status)
  | cancelTimer {fin status} :
      ClientStep b t o sh (.cancelTimer fin status) { sh with timerReady := true }
        (.cancelReturn fin true status)
  | canceled {canceled status} :
      ClientStep b t o sh (.cancelReturn false canceled status)
        { sh with log := .canceled t canceled :: sh.log } .idle
  | finish {f} (ho : o.spurious = false)
      (hcount : b.assertions = true → sh.word.downstreamCount = 0)
      (havailable : b.assertions = true → sh.word.available = true) :
      ClientStep b t o sh (.finishCas f sh.word) { sh with word := sh.word.unavailable }
        (if sh.word.state = .result then .finishCollect f sh.word.unavailable
          else .waitLoad { caller := .finish f, timeout := durationMax })
  | detach {f result} (i : Fin n) :
      ClientStep b t o sh (.finishDetach f result i)
        { sh with
          upstream := update sh.upstream i (sh.upstream i).fetchSub
          detached := update sh.detached i (sh.detached i + 1) }
        (.finishDetach f result (i + 1))
  | detachFails {f result e} (i : Fin n)
      (he : FetchFailure b (sh.upstream i) ((sh.upstream i).dec .cycle) e) :
      ClientStep b t o sh (.finishDetach f result i)
        { sh with
          upstream := update sh.upstream i (sh.upstream i).fetchSub
          detached := update sh.detached i (sh.detached i + 1)
          aborted := some e } .idle
  | detached {f result index} (hi : n ≤ index) :
      ClientStep b t o sh (.finishDetach f result index) { sh with remaining := 0 }
        (.finishLiberate f result)
  | liberate {f result} :
      ClientStep b t o sh (.finishLiberate f result)
        { sh with
          word := .ofWord 0
          liberated := true
          log := finishResponse t f result ++ sh.log } .idle
  | liberateFails {f result} :
      ClientStep b t o sh (.finishLiberate f result)
        { sh with word := .ofWord 0, liberated := true, aborted := some .liberatedInUse } .idle

/-! ## The worker and the machine -/

/-- Every step of the worker inside a call. -/
inductive WorkerStep (b : Build) (o : Oracle Tid n) (sh : Shared Tid P n) :
    WorkerPc P → Shared Tid P n → WorkerPc P → Prop
  | canceledLoad {saw} (hs : sh.word.state = .processing ∨ sh.word.state = .canceling) :
      WorkerStep b o sh (.canceledLoad saw) sh (.running (saw || decide (sh.word.state = .canceling)))
  | setLoad {successful payload} :
      WorkerStep b o sh (.setLoad successful payload) sh
        (.setCheck successful payload false sh.word)
  | setCanceled {successful payload payloadSet status} (hs : status.state = .canceling) :
      WorkerStep b o sh (.setCheck successful payload payloadSet status) sh (.ackLoad (some false))
  | setAgain {successful payload status} (hs : status.state = .processing) :
      WorkerStep b o sh (.setCheck successful payload true status) sh
        (.setCas successful payload status)
  | setPayload {successful payload status} (hs : status.state = .processing) :
      WorkerStep b o sh (.setCheck successful payload false status)
        { sh with payload := payload } (.setCas successful payload status)
  | set {successful payload} (ho : o.spurious = false) :
      WorkerStep b o sh (.setCas successful payload sh.word)
        { sh with word := sh.word.succeeded }
        (futureNotifyEagerOutcome (some true) sh.word.succeeded)
  | setRetry {successful payload status} (hfail : sh.word ≠ status ∨ o.spurious = true) :
      WorkerStep b o sh (.setCas successful payload status) sh
        (.setCheck successful payload true sh.word)
  | ackLoad {ret} : WorkerStep b o sh (.ackLoad ret) sh (.ackCas ret sh.word)
  | ack {ret} (ho : o.spurious = false) (hs : sh.word.state = .canceling) :
      WorkerStep b o sh (.ackCas ret sh.word) { sh with word := sh.word.acknowledged }
        (futureNotifyEagerOutcome ret sh.word.acknowledged)
  | ackRetry {ret status} (hfail : sh.word ≠ status ∨ o.spurious = true) :
      WorkerStep b o sh (.ackCas ret status) sh (.ackCas ret sh.word)
  | notifyAddress {ret status} :
      WorkerStep b o sh (.notifyAddress ret status)
        (if status.notifyAddress then wakeByAddressAll sh else sh) (.notifyEvent ret status)
  | notifyEvent {ret status} :
      WorkerStep b o sh (.notifyEvent ret status)
        (if status.notifyEventOrLazyLock then { sh with event := true } else sh) (.done ret)

/-- Every event of the machine. -/
inductive Step [DecidableEq Tid] [Fintype Tid] (b : Build) (s : State Tid P n) :
    Event Tid P n → State Tid P n → Prop
  | call {t c} (hidle : s.pc t = .idle) (hc : c.allowed s = true) :
      Step b s (.call t c)
        { s with
          shared := { s.shared with
            finisher := if c.destroys then some t else s.shared.finisher }
          pc := update s.pc t c.start }
  | client {t o pc sh' pc'} (hpc : s.pc t = pc) (hidle : pc ≠ .idle)
      (hpoll : o.pollAllowed s.shared pc = true) (hwake : o.wakeAllowed s.shared pc = true)
      (h : ClientStep b t o s.shared pc sh' pc') :
      Step b s (.client t o) { s with shared := sh', pc := update s.pc t pc' }
  | clientFails {t o f} (h : clientStep b t o s.shared (s.pc t) = .error f) :
      Step b s (.client t o) { s with shared := { s.shared with aborted := some f } }
  | workerCanceled {saw} (hw : s.worker = .running saw) :
      Step b s (.workerCall .canceled) { s with worker := .canceledLoad saw }
  | workerAcknowledge (hw : s.worker = .running true) :
      Step b s (.workerCall .acknowledgeCancel) { s with worker := .ackLoad none }
  | workerSet {saw successful payload} (hw : s.worker = .running saw) :
      Step b s (.workerCall (.trySetResult successful payload))
        { s with worker := .setLoad successful payload, given := some (successful, payload) }
  | worker {o pc sh' pc'} (hw : s.worker = pc) (h : WorkerStep b o s.shared pc sh' pc') :
      Step b s (.worker o) { s with shared := sh', worker := pc' }
  | workerFails {o f} (h : workerStep b o s.shared s.worker = .error f) :
      Step b s (.worker o) { s with shared := { s.shared with aborted := some f } }
  | timerExpires : Step b s .timerExpires { s with shared := { s.shared with timerReady := true } }
  | upstreamChanges {i status} (h : upstreamAllowed s.shared i status = true) :
      Step b s (.upstreamChanges i status)
        { s with shared := { s.shared with upstream := update s.shared.upstream i status } }
  | downstreamDetaches (hd : 1 ≤ s.shared.downstreams)
      (hpoll : 2 ≤ s.shared.downstreams ∨ ∀ u, (s.pc u).isPoll = false) :
      Step b s .downstreamDetaches
        { s with shared := { s.shared with
            word := s.shared.word.fetchSub
            downstreams := s.shared.downstreams - 1 } }
  | downstreamFails {f} (hf : FetchFailure b s.shared.word (s.shared.word.dec .cycle) f)
      (hd : 1 ≤ s.shared.downstreams)
      (hpoll : 2 ≤ s.shared.downstreams ∨ ∀ u, (s.pc u).isPoll = false) :
      Step b s .downstreamDetaches
        { s with shared := { s.shared with
            word := s.shared.word.fetchSub
            downstreams := s.shared.downstreams - 1
            aborted := some f } }

end Udipe

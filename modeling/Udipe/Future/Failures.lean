import Udipe.Future.Count
import Udipe.Future.Inversion

/-!
# How a step can end the process

`Examines` lists the words that a client's step passes to `future_status_debug_check`.
`clientStep_failsWith` bounds the failures of a step by them, and singles out the assertion of
`future_finish` on `downstream_count`.
-/

namespace Udipe

open Checked Function

variable {Tid P : Type} {n : ℕ}

/-- The words that the thread at this point examines, the shared word and its own copy aside. -/
inductive Examines (b : Build) (sh : Shared Tid P n) : Pc P n → FutureStatus → Prop
  | word {pc} : Examines b sh pc sh.word
  | snapshot {pc : Pc P n} {l} (h : pc.snapshot? = some l) : Examines b sh pc l
  | upstream {w l outcome i rest} :
      Examines b sh (.joinBatch w l outcome (.upstream i :: rest)) (sh.upstream i)
  | eagerRegister {w l} : Examines b sh (.eagerRegister w l) (l.registered w.policy)
  | joinRegister {w l woken} (hlock : l.notifyEventOrLazyLock = true) :
      Examines b sh (.joinRegister w l woken) (l.registered w.policy)
  | joinLock {w l woken} (hlock : l.notifyEventOrLazyLock = false) :
      Examines b sh (.joinRegister w l woken) (l.locked w.policy)
  | release {w l outcome} (hcount : w.policy = .cycle → l.downstreamCount ≠ 0) :
      Examines b sh (.joinRelease w l outcome) (l.released w.policy outcome)
  | publish {w l} (hcount : w.policy = .cycle → l.downstreamCount ≠ 0) :
      Examines b sh (.timerPublish w l) (l.published w.policy)
  | cancel {fin type s} (hk : s.outcome = .unknown) :
      Examines b sh (.cancelCas fin type s) (s.canceledAs type)
  | finish {f l} (hcount : b.assertions = true → l.downstreamCount = 0) :
      Examines b sh (.finishCas f l) l.unavailable

section

variable {b : Build} {t : Tid} {o : Oracle Tid n} {sh : Shared Tid P n} {F : Failure → Prop}

/-- All failures but two are of no interest here. -/
abbrev OtherFailures (F : Failure → Prop) : Prop :=
  ∀ f, f ≠ .statusCheck → f ≠ .finishedInUse → F f

/-- A word whose check may fail only with `F`. -/
def CheckFails (b : Build) (F : Failure → Prop) (s : FutureStatus) : Prop :=
  b.assertions = true → s.debugCheck true = false → F .statusCheck

theorem failsWith_check_of {s : FutureStatus} (h : CheckFails b F s) : FailsWith F (s.check b) :=
  failsWith_check.mpr h

theorem failsWith_prepareInc (hF : OtherFailures F) {s : FutureStatus}
    {p : DownstreamCountPolicy} (hs : CheckFails b F s) :
    FailsWith F (prepareDownstreamCountInc b s p) := by
  cases p <;> simp [prepareDownstreamCountInc, failsWith_check_of hs, hF]

theorem failsWith_prepareDec (hF : OtherFailures F) {s : FutureStatus}
    {p : DownstreamCountPolicy} (hs : CheckFails b F s) :
    FailsWith F (prepareDownstreamCountDec b s p) := by
  cases p <;> simp [prepareDownstreamCountDec, failsWith_check_of hs, hF]

theorem failsWith_compareExchange {word expected desired : FutureStatus}
    (hword : CheckFails b F word) (hexpected : CheckFails b F expected)
    (hdesired : CheckFails b F desired) :
    FailsWith F (compareExchangeWeak b o word expected desired) := by
  simp [compareExchangeWeak, failsWith_check_of, hword, hexpected, hdesired]

/-- After a compare-exchange, the thread has either written or read the shared word. -/
theorem failsWith_exchange {word expected desired : FutureStatus} {Q : Exchange → Prop}
    (hword : CheckFails b F word) (hexpected : CheckFails b F expected)
    (hdesired : CheckFails b F desired) (hswapped : Q .swapped) (hfailed : Q (.failed word)) :
    FailsWith F (compareExchangeWeak b o word expected desired) ∧
      ∀ ex, compareExchangeWeak b o word expected desired = .ok ex → Q ex := by
  refine ⟨failsWith_compareExchange hword hexpected hdesired, fun ex hex => ?_⟩
  cases ex with
  | swapped => exact hswapped
  | failed actual =>
      obtain rfl := compareExchangeWeak_failed hex
      exact hfailed

theorem failsWith_afterAddressWait (hF : OtherFailures F) {w : WaitCall} {s : FutureStatus}
    {woken : Bool} : FailsWith F (afterAddressWait w s woken : Except Failure (Pc P n)) := by
  simp only [afterAddressWait]
  cases addressWaitOutcome s <;> cases w.policy <;> cases s.type <;> simp [hF]

/-- The failures of the registration loop of `future_wait_join`. -/
theorem joinRegisterStep_failsWith {w : WaitCall} {l : FutureStatus} {woken : Bool}
    (hprepare : FailsWith F (prepareDownstreamCountInc b l w.policy))
    (hchecks : ∀ s, Examines b sh (.joinRegister w l woken) s → CheckFails b F s) :
    FailsWith F (joinRegisterStep b o sh w l woken) := by
  have hword : CheckFails b F sh.word := hchecks _ .word
  have hl : CheckFails b F l := hchecks _ (.snapshot rfl)
  simp only [joinRegisterStep, failsWith_bind]
  refine ⟨hprepare, fun counted hcounted => ?_⟩
  obtain ⟨rfl, -⟩ := prepareDownstreamCountInc_eq_ok hcounted
  cases hlock : l.notifyEventOrLazyLock
  case' false => have hnew := hchecks _ (.joinLock hlock)
  case' true => have hnew := hchecks _ (.joinRegister hlock)
  all_goals
    simp only [if_true, Bool.false_eq_true, if_false, failsWith_ite, failsWith_bind,
      failsWith_pure]
    exact ⟨fun _ => trivial, fun _ => ⟨failsWith_check_of hnew, fun _ _ =>
      failsWith_exchange hword hl hnew (by simp) (by simp [failsWith_check_of hword])⟩⟩

/-- The failures of the loop that releases `lazy_lock`. -/
theorem joinReleaseStep_failsWith {w : WaitCall} {l : FutureStatus} {outcome : FutureOutcome}
    (hprepare : FailsWith F (prepareDownstreamCountDec b l w.policy))
    (hlock : b.assertions = true → l.notifyEventOrLazyLock = false → F .lockNotHeld)
    (hchecks : ∀ s, Examines b sh (.joinRelease w l outcome) s → CheckFails b F s) :
    FailsWith F (joinReleaseStep b o sh w l outcome) := by
  have hword : CheckFails b F sh.word := hchecks _ .word
  have hl : CheckFails b F l := hchecks _ (.snapshot rfl)
  simp only [joinReleaseStep, failsWith_bind, failsWith_assertion]
  refine ⟨hprepare, fun counted hcounted => ⟨hlock, fun _ _ => ?_⟩⟩
  obtain ⟨rfl, hcount⟩ := prepareDownstreamCountDec_eq_ok hcounted
  have hnew := hchecks _ (.release hcount)
  rw [FutureStatus.released_eq] at hnew
  exact ⟨failsWith_check_of hnew, fun _ _ =>
    failsWith_exchange hword hl hnew (by simp) (by simp [failsWith_check_of hword])⟩

/-- The failures of a client's step: those of its status checks, the assertion of `future_finish` on a
count that is not zero, and others. -/
theorem clientStep_failsWith [DecidableEq Tid] (hF : OtherFailures F) {pc : Pc P n}
    (hchecks : ∀ s, Examines b sh pc s → CheckFails b F s)
    (hfinish : ∀ f l, pc = .finishCas f l → l.downstreamCount ≠ 0 → F .finishedInUse) :
    FailsWith F (clientStep b t o sh pc) := by
  have hword : CheckFails b F sh.word := hchecks _ .word
  have hsnap : ∀ l, pc.snapshot? = some l → CheckFails b F l := fun l hl => hchecks l (.snapshot hl)
  cases pc
  case eagerRegister w l =>
    have hl := hsnap l rfl
    have hreg := hchecks _ .eagerRegister
    simp only [clientStep, eagerRegisterStep, failsWith_bind, failsWith_ite, failsWith_pure]
    refine ⟨failsWith_prepareInc hF hl, fun counted hcounted => ⟨fun _ => trivial, fun _ => ?_⟩⟩
    obtain ⟨rfl, -⟩ := prepareDownstreamCountInc_eq_ok hcounted
    exact ⟨failsWith_check_of hreg, fun _ _ =>
      failsWith_exchange hword hl hreg (by simp) (by simp [failsWith_check_of hword])⟩
  case joinRegister w l woken =>
    exact joinRegisterStep_failsWith (failsWith_prepareInc hF (hsnap l rfl)) hchecks
  case joinRelease w l outcome =>
    exact joinReleaseStep_failsWith (failsWith_prepareDec hF (hsnap l rfl))
      (fun _ _ => hF _ (by simp) (by simp)) hchecks
  case timerPublish w l =>
    have hl := hsnap l rfl
    simp only [clientStep, timerPublishStep, failsWith_bind, failsWith_ite]
    refine ⟨failsWith_prepareDec hF hl, fun counted hcounted =>
      ⟨fun _ => failsWith_pure _, fun _ => ?_⟩⟩
    obtain ⟨rfl, hcount⟩ := prepareDownstreamCountDec_eq_ok hcounted
    have hnew := hchecks _ (.publish hcount)
    exact ⟨failsWith_check_of hnew, fun _ _ =>
      failsWith_exchange hword hl hnew (by simp) (by simp [failsWith_check_of hword])⟩
  case cancelCas fin type s =>
    have hs := hsnap s rfl
    simp only [clientStep, cancelCasStep, failsWith_bind]
    refine ⟨failsWith_check_of hs, fun _ _ => ?_⟩
    cases hk : s.outcome
    case unknown =>
      have hnew := hchecks _ (.cancel hk)
      simp only [failsWith_bind, failsWith_assertion]
      exact ⟨fun _ _ => hF _ (by simp) (by simp), fun _ _ => ⟨failsWith_check_of hnew, fun _ _ =>
        failsWith_exchange hword hs hnew (by simp) (by simp [hF])⟩⟩
    all_goals simp [hF]
  case finishCas f l =>
    have hl := hsnap l rfl
    simp only [clientStep, finishCasStep, failsWith_bind, failsWith_assertion, assertion_eq_ok,
      beq_iff_eq]
    refine ⟨failsWith_check_of hl, fun _ _ =>
      ⟨fun _ hne => hfinish f l rfl (by simpa using hne), fun _ hcount =>
        ⟨fun _ _ => hF _ (by simp) (by simp), fun _ _ => ?_⟩⟩⟩
    have hnew := hchecks _ (.finish hcount)
    exact ⟨failsWith_check_of hnew, fun _ _ =>
      failsWith_exchange hword hl hnew (by simp) (by simp [failsWith_check_of hword])⟩
  case waitLoad w =>
    simp only [clientStep, waitLoadStep, futureWait, failsWith_bind, failsWith_assertion]
    refine ⟨⟨fun _ _ => hF _ (by simp) (by simp), fun _ _ =>
      ⟨failsWith_check_of hword, fun _ _ => ?_⟩⟩, fun _ _ => failsWith_pure _⟩
    cases sh.word.state <;> cases sh.word.type <;> cases w.policy <;> simp [hF]
  case joinBatch w l outcome ids =>
    rcases ids with _ | ⟨_ | i, rest⟩
    · simp [clientStep, joinBatchStep]
    · simp [clientStep, joinBatchStep, hF]
    · have hup := hchecks _ .upstream
      simp only [clientStep, joinBatchStep, failsWith_bind, failsWith_ite, failsWith_ensure]
      refine ⟨failsWith_check_of hup, fun _ _ => ⟨fun _ => failsWith_pure _, fun _ =>
        ⟨fun _ => hF _ (by simp) (by simp), fun _ _ => ⟨?_, fun _ _ => failsWith_pure _⟩⟩⟩⟩
      cases (sh.upstream i).outcome <;> simp [integrateUpstream, hF]
  case addressReload w l woken =>
    simp only [clientStep, addressReloadStep, failsWith_bind, failsWith_ite, failsWith_pure]
    exact ⟨failsWith_check_of hword, fun _ _ =>
      ⟨fun _ => ⟨failsWith_afterAddressWait hF, fun _ _ => trivial⟩, fun _ => trivial⟩⟩
  case addressMeasure w l =>
    simp only [clientStep, addressMeasureStep, failsWith_bind, failsWith_ite, failsWith_pure]
    exact ⟨fun _ => ⟨failsWith_afterAddressWait hF, fun _ _ => trivial⟩, fun _ => trivial⟩
  case joinPoll w l pollTimeout =>
    simp only [clientStep, joinPollStep, failsWith_bind, failsWith_assertion]
    refine ⟨fun _ _ => hF _ (by simp) (by simp), fun _ _ => ?_⟩
    cases o.poll <;> simp [hF]
  case timerPoll w l =>
    simp only [clientStep, timerPollStep]
    cases o.poll <;> simp
  case addressBlocked w l =>
    simp only [clientStep, addressBlockedStep]
    split <;> simp
  case waitReturn w l =>
    have hl := hsnap l rfl
    simp only [clientStep, waitReturnStep]
    split <;> simp [failsWith_check_of hl, hF]
  case cancelReturn fin canceled s => cases fin <;> simp [clientStep, cancelReturnStep]
  case finishCollect f l =>
    cases f with
    | cancel canceled => simp [clientStep, finishCollectStep]
    | finish =>
        simp only [clientStep, finishCollectStep, collectResult, failsWith_bind]
        refine ⟨?_, fun _ _ => failsWith_pure _⟩
        cases l.outcome <;> cases l.type <;> simp [hF]
  case finishUpstream f result =>
    simp only [clientStep, finishUpstreamStep]
    cases sh.word.type <;> simp [hF]
  case finishDetach f result index =>
    simp only [clientStep, finishDetachStep]
    split <;> simp
  case finishLiberate f result =>
    simp only [clientStep, finishLiberateStep]
    split <;> simp
  case addressEnter w l => simp [clientStep, addressEnterStep, hF]
  case addressWait w l =>
    have hl := hsnap l rfl
    simp only [clientStep, addressWaitStep, failsWith_bind]
    refine ⟨failsWith_check_of hl, fun _ _ => ?_⟩
    split_ifs <;> simp
  case timerInc w l =>
    simp [clientStep, timerIncStep, failsWith_check_of (hsnap l rfl)]
  all_goals
    simp [clientStep, countDecStep, timerRevertStep, cancelLoadStep, cancelLatchStep,
      cancelWakeStep, cancelTimerStep, finishLoadStep, joinMeasureStep]

/-- The words that the worker examines, the shared word aside. -/
inductive WorkerExamines : WorkerPc P → FutureStatus → Prop
  | setCheck {successful payload payloadSet s} :
      WorkerExamines (.setCheck successful payload payloadSet s) s
  | setCas {successful payload s} : WorkerExamines (.setCas successful payload s) s
  | set {successful payload s} : WorkerExamines (.setCas successful payload s) s.succeeded
  | ackCas {ret s} : WorkerExamines (.ackCas ret s) s
  | ack {ret s} (hs : s.state = .canceling) : WorkerExamines (.ackCas ret s) s.acknowledged

theorem failsWith_customCheck (hF : OtherFailures F) {s : FutureStatus}
    (hs : CheckFails b F s) : FailsWith F (futureCustomCheckCanceled b s) := by
  simp only [futureCustomCheckCanceled, failsWith_bind, failsWith_ensure, failsWith_assertion]
  refine ⟨failsWith_check_of hs, fun _ _ => ⟨fun _ => hF _ (by simp) (by simp), fun _ _ =>
    ⟨fun _ _ => hF _ (by simp) (by simp), fun _ _ => ?_⟩⟩⟩
  cases s.state <;> simp [hF]

/-- The failures of a worker's step. -/
theorem workerStep_failsWith (hF : OtherFailures F) {pc : WorkerPc P}
    (hword : CheckFails b F sh.word) (hchecks : ∀ s, WorkerExamines pc s → CheckFails b F s) :
    FailsWith F (workerStep b o sh pc) := by
  cases pc
  case canceledLoad saw =>
    simp [workerStep, failsWith_customCheck hF hword]
  case setCheck successful payload payloadSet s =>
    simp only [workerStep, failsWith_bind]
    refine ⟨failsWith_customCheck hF (hchecks _ .setCheck), fun canceled _ => ?_⟩
    split_ifs <;> simp
  case setCas successful payload s =>
    simp only [workerStep, failsWith_bind]
    refine ⟨failsWith_compareExchange hword (hchecks _ .setCas) (hchecks _ .set),
      fun ex _ => ?_⟩
    cases ex <;> simp
  case ackCas ret s =>
    simp only [workerStep, failsWith_bind, failsWith_ensure]
    refine ⟨failsWith_customCheck hF (hchecks _ .ackCas), fun canceled hcanceled =>
      ⟨fun _ => hF _ (by simp) (by simp), fun _ hok => ?_⟩⟩
    obtain rfl := ensure_eq_ok.mp hok
    obtain ⟨-, hfalse⟩ | ⟨hs, -⟩ := futureCustomCheckCanceled_eq_ok hcanceled
    · exact absurd hfalse (by simp)
    refine ⟨failsWith_compareExchange hword (hchecks _ .ackCas) (hchecks _ (.ack hs)),
      fun ex _ => ?_⟩
    cases ex <;> simp
  all_goals simp [workerStep]

end

end Udipe

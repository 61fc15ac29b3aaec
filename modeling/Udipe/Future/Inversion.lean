import Udipe.Future.Moves

/-!
# The cases of a step come from the code

For each point of a call, the executable step yields one of the cases of `ClientStep` or
`WorkerStep`. `step_cases` assembles them for the machine.
-/

namespace Udipe

open Checked Function

variable {Tid P : Type} {n : ℕ} [DecidableEq Tid] {b : Build} {t : Tid} {o : Oracle Tid n}
  {sh sh' : Shared Tid P n} {pc' : Pc P n} {w : WaitCall} {latest : FutureStatus}

/-! ## `future_wait` and `future_wait_eager` -/

theorem waitLoadStep_cases (h : waitLoadStep b sh w = .ok (sh', pc')) :
    ClientStep b t o sh (.waitLoad w) sh' pc' := by
  simp only [waitLoadStep, futureWait, bind_eq_ok, pure_eq_ok, Prod.mk.injEq] at h
  obtain ⟨pc, ⟨-, -, -, -, h⟩, rfl, rfl⟩ := h
  refine .move ?_
  cases hs : sh.word.state <;> simp only [hs, reduceCtorEq] at h
  case result =>
    obtain rfl := pure_eq_ok.mp h
    exact .waitReady hs
  case waiting | processing | canceling =>
    have hs' : sh.word.state ≠ .result := by simp [hs]
    cases hty : sh.word.type <;> simp only [hty, reduceCtorEq] at h
    case join =>
      obtain rfl := pure_eq_ok.mp h
      exact .waitJoin hs' hty
    case timerOnce =>
      cases hp : w.policy <;> simp only [hp] at h <;> obtain rfl := pure_eq_ok.mp h
      · exact .waitTimerInc hs' hty hp
      · exact .waitTimerPoll hs' hty hp
    all_goals
      have hworker : sh.word.type.usesWorkerThread = true := by
        simp [hty, FutureType.usesWorkerThread]
      split at h <;> obtain rfl := pure_eq_ok.mp h
      · exact .waitNow hs' hworker ‹_›
      · exact .waitEager hs' hworker

theorem eagerRegisterStep_cases (h : eagerRegisterStep b o sh w latest = .ok (sh', pc')) :
    ClientStep b t o sh (.eagerRegister w latest) sh' pc' := by
  simp only [eagerRegisterStep, bind_eq_ok] at h
  obtain ⟨counted, hcounted, h⟩ := h
  obtain ⟨rfl, -, ho, hmax⟩ := prepareDownstreamCountInc_eq_ok hcounted
  split at h
  · rename_i heq
    simp only [pure_eq_ok, Prod.mk.injEq] at h
    obtain ⟨rfl, rfl⟩ := h
    exact .move (.eagerKnown (FutureStatus.statusEq_iff.mp heq))
  · simp only [bind_eq_ok] at h
    obtain ⟨-, -, ex, hex, h⟩ := h
    cases ex with
    | swapped =>
        simp only [pure_eq_ok, Prod.mk.injEq] at h
        obtain ⟨rfl, -⟩ := compareExchangeWeak_swapped hex
        obtain ⟨rfl, rfl⟩ := h
        exact .eagerRegister ho hmax
    | failed actual =>
        obtain rfl := compareExchangeWeak_failed hex
        simp only [bind_eq_ok] at h
        obtain ⟨-, -, h⟩ := h
        split at h <;> simp only [pure_eq_ok, Prod.mk.injEq] at h <;> obtain ⟨rfl, rfl⟩ := h
        · exact .move (.eagerReady ‹_›)
        · exact .move (.eagerRetry ‹_›)

/-! ## `future_wait_by_adress` -/

theorem addressEnterStep_cases (h : addressEnterStep b sh w latest = .ok (sh', pc')) :
    ClientStep b t o sh (.addressEnter w latest) sh' pc' := by
  simp only [addressEnterStep, bind_eq_ok, pure_eq_ok, Prod.mk.injEq] at h
  obtain ⟨-, -, -, -, -, -, -, -, rfl, rfl⟩ := h
  exact .move .addressEnter

theorem addressWaitStep_cases (h : addressWaitStep b t sh w latest = .ok (sh', pc')) :
    ClientStep b t o sh (.addressWait w latest) sh' pc' := by
  simp only [addressWaitStep, bind_eq_ok] at h
  obtain ⟨-, -, h⟩ := h
  split at h
  · rename_i heq
    obtain rfl := FutureStatus.statusEq_iff.mp heq
    split at h <;> simp only [pure_eq_ok, Prod.mk.injEq] at h <;> obtain ⟨rfl, rfl⟩ := h
    · exact .move (.addressEqual ‹_›)
    · exact .sleep ‹_›
  · rename_i hne
    simp only [pure_eq_ok, Prod.mk.injEq] at h
    obtain ⟨rfl, rfl⟩ := h
    exact .move (.addressChanged fun h => hne (FutureStatus.statusEq_iff.mpr h))

theorem addressBlockedStep_cases (h : addressBlockedStep t o sh w latest = .ok (sh', pc')) :
    ClientStep b t o sh (.addressBlocked w latest) sh' pc' := by
  simp only [addressBlockedStep] at h
  split at h
  · split at h <;> simp only [pure_eq_ok, Prod.mk.injEq] at h <;> obtain ⟨rfl, rfl⟩ := h
    · exact .wakeSpurious ‹_›
    · exact .wakeTimeout ‹_›
  · rename_i ha
    simp only [pure_eq_ok, Prod.mk.injEq] at h
    obtain ⟨rfl, rfl⟩ := h
    exact .move (.addressWoken (by simpa using ha))

omit [DecidableEq Tid] in
/-- What the waiter does with the outcome of `future_wait_by_adress`. -/
theorem afterAddressWait_eq_ok {woken : Bool}
    (h : afterAddressWait w latest woken = .ok pc') :
    pc' = countedReturn w latest ∨
      (latest.state ≠ .result ∧ latest.type = .join ∧ latest.notifyEventOrLazyLock = false ∧
        pc' = .joinRegister w latest woken) := by
  simp only [afterAddressWait] at h
  cases houtcome : addressWaitOutcome latest with
  | success | timeout =>
      left
      simp only [houtcome] at h
      cases hp : w.policy <;> simp only [hp, pure_eq_ok] at h <;> simp [countedReturn, hp, h]
  | unlocked =>
      right
      simp only [houtcome] at h
      split at h
      · rename_i hty
        simp only [addressWaitOutcome] at houtcome
        split at houtcome
        · simp at houtcome
        · rename_i hs
          refine ⟨hs, hty, ?_, (pure_eq_ok.mp h).symm⟩
          cases hl : latest.notifyEventOrLazyLock
          · rfl
          · simp [hl] at houtcome
      · simp at h

theorem addressReloadStep_cases {woken : Bool}
    (h : addressReloadStep b sh w woken = .ok (sh', pc')) :
    ClientStep b t o sh (.addressReload w latest woken) sh' pc' := by
  simp only [addressReloadStep, bind_eq_ok] at h
  obtain ⟨-, -, h⟩ := h
  refine ?_
  split at h
  · rename_i hdone
    simp only [bind_eq_ok, pure_eq_ok, Prod.mk.injEq] at h
    obtain ⟨pc, hpc, rfl, rfl⟩ := h
    obtain rfl | ⟨hs, hty, hlock, rfl⟩ := afterAddressWait_eq_ok hpc
    · by_cases hs : sh.word.state = .result
      · exact .move (.reloadReady hs)
      · -- unlocked, so the outcome was not a success or a timeout
        exfalso
        have hunlocked : addressWaitOutcome sh.word = .unlocked := by
          simp only [hs, false_or] at hdone
          simp [addressWaitOutcome, hs, hdone]
        simp only [afterAddressWait, hunlocked, countedReturn] at hpc
        split at hpc <;> cases hp : w.policy <;> simp [hp, Pure.pure, Except.pure] at hpc
    · exact .move (.reloadUnlocked hs hty hlock)
  · rename_i hagain
    simp only [pure_eq_ok, Prod.mk.injEq] at h
    obtain ⟨rfl, rfl⟩ := h
    obtain ⟨hs, hlock⟩ := not_or.mp hagain
    exact .move (.reloadAgain hs (by simpa using hlock))

theorem addressMeasureStep_cases (h : addressMeasureStep o sh w latest = .ok (sh', pc')) :
    ClientStep b t o sh (.addressMeasure w latest) sh' pc' := by
  simp only [addressMeasureStep] at h
  split at h
  · rename_i he
    simp only [bind_eq_ok, pure_eq_ok, Prod.mk.injEq] at h
    obtain ⟨pc, hpc, rfl, rfl⟩ := h
    obtain rfl | ⟨-, hty, hlock, rfl⟩ := afterAddressWait_eq_ok hpc
    · exact .move (.measureDone he)
    · exact .move (.measureUnlocked he hty hlock)
  · rename_i he
    simp only [pure_eq_ok, Prod.mk.injEq] at h
    obtain ⟨rfl, rfl⟩ := h
    exact .move (.measureAgain (by omega))

omit [DecidableEq Tid] in
/-- A store followed by checks. -/
theorem stored_eq_ok {rest : Except Failure (Pc P n)} (h : stored sh rest = .ok (sh', pc')) :
    (rest = .ok pc' ∧ sh' = sh) ∨
      ∃ f, rest = .error f ∧ sh' = { sh with aborted := some f } ∧ pc' = .idle := by
  cases rest with
  | ok pc =>
      simp only [stored, Except.ok.injEq, Prod.mk.injEq] at h
      exact .inl ⟨by rw [h.2], h.1.symm⟩
  | error f =>
      simp only [stored, Except.ok.injEq, Prod.mk.injEq] at h
      exact .inr ⟨f, rfl, h.1.symm, h.2.symm⟩

omit [DecidableEq Tid] in
@[simp] theorem failsWith_stored {F : Failure → Prop} {rest : Except Failure (Pc P n)} :
    FailsWith F (stored sh rest) := by
  cases rest <;> simp [stored]

omit [DecidableEq Tid] in
theorem failsWith_check {F : Failure → Prop} {s : FutureStatus} :
    FailsWith F (s.check b) ↔
      (b.assertions = true → s.debugCheck true = false → F .statusCheck) := by
  simp [FutureStatus.check]

/-- The checks of `future_downstream_count_dec`. -/
theorem failsWith_decremented {s : FutureStatus} :
    FailsWith (FetchFailure b s (s.dec .cycle)) (decremented b s) := by
  simp only [decremented, failsWith_bind, failsWith_check, failsWith_assertion, failsWith_pure]
  refine ⟨fun hb hs => ⟨by simp, fun _ => ⟨hb, .inl hs⟩⟩, fun _ _ => ⟨fun _ _ => ⟨by simp, by simp⟩,
    fun _ _ => ⟨fun hb hs => ⟨by simp, fun _ => ⟨hb, .inr hs⟩⟩, fun _ _ => trivial⟩⟩⟩

theorem countDecStep_cases (h : countDecStep b sh w = .ok (sh', pc')) :
    ClientStep b t o sh (.countDec w latest) sh' pc' := by
  obtain ⟨hrest, rfl⟩ | ⟨f, hf, rfl, rfl⟩ := stored_eq_ok h
  · simp only [bind_eq_ok, pure_eq_ok] at hrest
    obtain ⟨r, hr, rfl⟩ := hrest
    obtain rfl := decremented_eq_ok hr
    exact .countDec
  · have hfails : FailsWith (FetchFailure b sh.word (sh.word.dec .cycle))
        (decremented b sh.word >>= fun latest => pure (.waitReturn w latest : Pc P n)) := by
      simp [failsWith_decremented]
    exact .countDecFails (hfails f hf)

/-! ## `future_wait_join` -/

theorem joinRegisterStep_cases {woken : Bool}
    (h : joinRegisterStep b o sh w latest woken = .ok (sh', pc')) :
    ClientStep b t o sh (.joinRegister w latest woken) sh' pc' := by
  simp only [joinRegisterStep, bind_eq_ok] at h
  obtain ⟨counted, hcounted, h⟩ := h
  obtain ⟨rfl, -, ho, hmax⟩ := prepareDownstreamCountInc_eq_ok hcounted
  cases hlock : latest.notifyEventOrLazyLock <;> simp only [hlock, if_true, Bool.false_eq_true,
    if_false] at h
  all_goals split at h
  case false.isTrue heq =>
    -- the desired word is locked, the latest one is not
    exact absurd (congrArg FutureStatus.notifyEventOrLazyLock (FutureStatus.statusEq_iff.mp heq))
      (by simp [hlock])
  case true.isTrue heq =>
    simp only [pure_eq_ok, Prod.mk.injEq] at h
    obtain ⟨rfl, rfl⟩ := h
    exact .move (.joinKnown hlock (FutureStatus.statusEq_iff.mp heq))
  all_goals
    simp only [bind_eq_ok] at h
    obtain ⟨-, -, ex, hex, h⟩ := h
    cases ex with
    | swapped =>
        simp only [pure_eq_ok, Prod.mk.injEq] at h
        obtain ⟨rfl, -⟩ := compareExchangeWeak_swapped hex
        obtain ⟨rfl, rfl⟩ := h
        first
          | exact .joinRegister ho hmax hlock
          | exact .joinLock ho hmax hlock
    | failed actual =>
        obtain rfl := compareExchangeWeak_failed hex
        simp only [bind_eq_ok] at h
        obtain ⟨-, -, h⟩ := h
        split at h <;> simp only [pure_eq_ok, Prod.mk.injEq] at h <;> obtain ⟨rfl, rfl⟩ := h
        · exact .move (.joinReady ‹_›)
        · exact .move (.joinRetry ‹_›)

theorem joinPollStep_cases {pollTimeout : ℕ}
    (h : joinPollStep b o sh w latest pollTimeout = .ok (sh', pc')) :
    ClientStep b t o sh (.joinPoll w latest pollTimeout) sh' pc' := by
  simp only [joinPollStep, bind_eq_ok] at h
  obtain ⟨-, -, h⟩ := h
  split at h
  · rename_i ids ho
    simp only [pure_eq_ok, Prod.mk.injEq] at h
    obtain ⟨rfl, rfl⟩ := h
    exact .move (.pollReady ho)
  · simp at h
  · rename_i ho
    split at h
    · simp only [bind_eq_ok, pure_eq_ok, Prod.mk.injEq] at h
      obtain ⟨-, -, rfl, rfl⟩ := h
      exact .move (.pollTimedOut ho)
    · simp only [pure_eq_ok, Prod.mk.injEq] at h
      obtain ⟨rfl, rfl⟩ := h
      exact .move (.pollInterrupted ho)

theorem joinBatchStep_cases {outcome : FutureOutcome} {ids : List (InpollId n)}
    (h : joinBatchStep b sh w latest outcome ids = .ok (sh', pc')) :
    ClientStep b t o sh (.joinBatch w latest outcome ids) sh' pc' := by
  match ids with
  | [] =>
      simp only [joinBatchStep] at h
      split at h
      · rename_i hk
        simp only [pure_eq_ok, Prod.mk.injEq] at h
        obtain ⟨rfl, rfl⟩ := h
        exact .move (.batchKnown hk)
      · rename_i hk
        obtain rfl : outcome = .unknown := by simpa using hk
        split at h <;> simp only [pure_eq_ok, Prod.mk.injEq] at h <;> obtain ⟨rfl, rfl⟩ := h
        · exact .move (.batchComplete ‹_›)
        · exact .move (.batchAgain ‹_›)
  | .latch :: rest =>
      simp only [joinBatchStep, bind_eq_ok, pure_eq_ok, Prod.mk.injEq, ensure_eq_ok,
        beq_iff_eq] at h
      obtain ⟨-, hs, -, hk, rfl, rfl⟩ := h
      rw [hk]
      exact .move (.batchLatch hs hk)
  | .upstream i :: rest =>
      simp only [joinBatchStep, bind_eq_ok] at h
      obtain ⟨-, -, h⟩ := h
      split at h
      · rename_i hs
        simp only [pure_eq_ok, Prod.mk.injEq] at h
        obtain ⟨rfl, rfl⟩ := h
        exact .move (.batchSkip hs)
      · rename_i hs
        simp only [bind_eq_ok, pure_eq_ok, Prod.mk.injEq, ensure_eq_ok, decide_eq_true_eq] at h
        obtain ⟨-, hr, outcome', hk, rfl, rfl⟩ := h
        exact .integrate (by simpa using hs) hr hk

omit [DecidableEq Tid] in
theorem joinMeasureStep_cases [DecidableEq Tid] {inpollTimedOut : Bool}
    (h : joinMeasureStep o sh w latest inpollTimedOut = .ok (sh', pc')) :
    ClientStep b t o sh (.joinMeasure w latest inpollTimedOut) sh' pc' := by
  simp only [joinMeasureStep] at h
  split at h
  · simp only [pure_eq_ok, Prod.mk.injEq] at h
    obtain ⟨rfl, rfl⟩ := h
    exact .move (.measureRelease (by split <;> rfl))
  · rename_i hgo
    simp only [pure_eq_ok, Prod.mk.injEq] at h
    obtain ⟨rfl, rfl⟩ := h
    obtain rfl : inpollTimedOut = false := by simp_all
    exact .move (.measurePoll (by split <;> rfl))

/-- The word that `future_wait_join` builds to release `lazy_lock`. -/
theorem FutureStatus.released_eq {p : DownstreamCountPolicy} {outcome : FutureOutcome}
    {s : FutureStatus} : s.released p outcome =
      { (if outcome ≠ .unknown then { s.dec p with state := .result, outcome := outcome }
        else s.dec p) with notifyEventOrLazyLock := false } := by
  by_cases hk : outcome = .unknown <;> simp [FutureStatus.released, hk, FutureStatus.dec]

theorem joinReleaseStep_cases {outcome : FutureOutcome}
    (h : joinReleaseStep b o sh w latest outcome = .ok (sh', pc')) :
    ClientStep b t o sh (.joinRelease w latest outcome) sh' pc' := by
  simp only [joinReleaseStep, bind_eq_ok] at h
  obtain ⟨counted, hcounted, -, -, -, -, ex, hex, h⟩ := h
  obtain ⟨rfl, hcount⟩ := prepareDownstreamCountDec_eq_ok hcounted
  rw [← FutureStatus.released_eq] at hex h
  cases ex with
  | swapped =>
      simp only [pure_eq_ok, Prod.mk.injEq] at h
      obtain ⟨rfl, ho⟩ := compareExchangeWeak_swapped hex
      obtain ⟨rfl, rfl⟩ := h
      exact .release ho hcount
  | failed actual =>
      have hfail := compareExchangeWeak_failed_cause hex
      obtain rfl := compareExchangeWeak_failed hex
      simp only [bind_eq_ok, pure_eq_ok, Prod.mk.injEq] at h
      obtain ⟨-, -, rfl, rfl⟩ := h
      exact .move (.releaseRetry hfail)

/-! ## `future_wait_timer_once` -/

omit [DecidableEq Tid] in
/-- The checks of `future_downstream_count_try_inc` after its addition. -/
theorem failsWith_timerInc {s : FutureStatus} :
    FailsWith (FetchFailure b s (s.inc .cycle)) (do
      s.check b
      ensure (!(s.downstreamCountOverflow ||
        s.downstreamCount == FutureStatus.maxDownstreamCount)) .tooManyDownstreams
      if s.state = .result then
        pure (.timerRevert w : Pc P n)
      else
        let latest := { s with downstreamCount := s.downstreamCount + 1 }
        latest.check b
        pure (.timerPoll w latest)) := by
  simp only [failsWith_bind, failsWith_check, failsWith_ensure, failsWith_ite, failsWith_pure]
  refine ⟨fun hb hs => ⟨by simp, fun _ => ⟨hb, .inl hs⟩⟩, fun _ _ => ⟨fun _ => ⟨by simp, by simp⟩,
    fun _ _ => ⟨fun _ => trivial, fun _ =>
      ⟨fun hb hs => ⟨by simp, fun _ => ⟨hb, .inr hs⟩⟩, fun _ _ => trivial⟩⟩⟩⟩

theorem timerIncStep_cases (h : timerIncStep b sh w latest = .ok (sh', pc')) :
    ClientStep b t o sh (.timerInc w latest) sh' pc' := by
  simp only [timerIncStep, bind_eq_ok] at h
  obtain ⟨-, -, h⟩ := h
  obtain ⟨hrest, rfl⟩ | ⟨f, hf, rfl, rfl⟩ := stored_eq_ok h
  · simp only [bind_eq_ok, ensure_eq_ok] at hrest
    obtain ⟨-, -, -, hmax, hrest⟩ := hrest
    obtain ⟨ho, hmax⟩ : sh.word.downstreamCountOverflow = false ∧
        sh.word.downstreamCount ≠ FutureStatus.maxDownstreamCount := by simpa using hmax
    split at hrest
    · obtain rfl := pure_eq_ok.mp hrest
      exact .timerIncReady ho hmax ‹_›
    · simp only [bind_eq_ok, pure_eq_ok] at hrest
      obtain ⟨-, -, rfl⟩ := hrest
      exact .timerInc ho hmax ‹_›
  · refine .timerIncFails (failsWith_timerInc f hf)

omit [DecidableEq Tid] in
/-- The checks after the increment is reverted. -/
theorem failsWith_timerRevert {s : FutureStatus} :
    FailsWith (FetchFailure b s (s.dec .cycle)) (do
      let latest ← decremented b s
      assertion b.assertions (latest.state == .result) .revertedWithoutResult
      latest.check b
      ensure (latest.state == .result) .revertedWithoutResult
      pure (.waitReturn w latest : Pc P n)) := by
  simp only [failsWith_bind, failsWith_check, failsWith_ensure, failsWith_assertion,
    failsWith_pure]
  refine ⟨failsWith_decremented, fun latest hlatest => ?_⟩
  obtain rfl := decremented_eq_ok hlatest
  exact ⟨fun _ _ => ⟨by simp, by simp⟩, fun _ _ =>
    ⟨fun hb hs => ⟨by simp, fun _ => ⟨hb, .inr hs⟩⟩, fun _ _ =>
      ⟨fun _ => ⟨by simp, by simp⟩, fun _ _ => trivial⟩⟩⟩

theorem timerRevertStep_cases (h : timerRevertStep b sh w = .ok (sh', pc')) :
    ClientStep b t o sh (.timerRevert w) sh' pc' := by
  obtain ⟨hrest, rfl⟩ | ⟨f, hf, rfl, rfl⟩ := stored_eq_ok h
  · simp only [bind_eq_ok, pure_eq_ok, ensure_eq_ok] at hrest
    obtain ⟨r, hr, -, -, -, -, -, hs, rfl⟩ := hrest
    obtain rfl := decremented_eq_ok hr
    exact .timerRevert (by simpa [FutureStatus.dec] using hs)
  · exact .timerRevertFails (failsWith_timerRevert f hf)

theorem timerPollStep_cases (h : timerPollStep o sh w latest = .ok (sh', pc')) :
    ClientStep b t o sh (.timerPoll w latest) sh' pc' := by
  simp only [timerPollStep] at h
  split at h
  · rename_i ids ho
    simp only [pure_eq_ok, Prod.mk.injEq] at h
    obtain ⟨rfl, rfl⟩ := h
    exact .move (.timerReady ho)
  · rename_i ho
    simp only [pure_eq_ok, Prod.mk.injEq] at h
    obtain ⟨rfl, rfl⟩ := h
    exact .move (.timerTimedOut ho)
  · rename_i ho
    split at h <;> simp only [pure_eq_ok, Prod.mk.injEq] at h <;> obtain ⟨rfl, rfl⟩ := h
    · exact .move (.timerInterrupted ho ‹_›)
    · exact .move (.timerAgain ho (by omega))

theorem timerPublishStep_cases (h : timerPublishStep b o sh w latest = .ok (sh', pc')) :
    ClientStep b t o sh (.timerPublish w latest) sh' pc' := by
  simp only [timerPublishStep, bind_eq_ok] at h
  obtain ⟨counted, hcounted, h⟩ := h
  obtain ⟨rfl, hcount⟩ := prepareDownstreamCountDec_eq_ok hcounted
  have hword : { latest.dec w.policy with
      state := .result
      outcome := if (latest.dec w.policy).outcome = .unknown then .success
        else (latest.dec w.policy).outcome } = latest.published w.policy := rfl
  simp only [hword] at h
  split at h
  · rename_i heq
    simp only [pure_eq_ok, Prod.mk.injEq] at h
    obtain ⟨rfl, rfl⟩ := h
    exact .move (.publishKnown (FutureStatus.statusEq_iff.mp heq))
  · simp only [bind_eq_ok] at h
    obtain ⟨-, -, ex, hex, h⟩ := h
    cases ex with
    | swapped =>
        simp only [pure_eq_ok, Prod.mk.injEq] at h
        obtain ⟨rfl, ho⟩ := compareExchangeWeak_swapped hex
        obtain ⟨rfl, rfl⟩ := h
        exact .publish ho hcount
    | failed actual =>
        obtain rfl := compareExchangeWeak_failed hex
        simp only [bind_eq_ok, pure_eq_ok, Prod.mk.injEq] at h
        obtain ⟨-, -, rfl, rfl⟩ := h
        exact .move .publishRetry

theorem waitReturnStep_cases (h : waitReturnStep b t sh w latest = .ok (sh', pc')) :
    ClientStep b t o sh (.waitReturn w latest) sh' pc' := by
  simp only [waitReturnStep] at h
  split at h
  · rename_i hw
    simp only [pure_eq_ok, Prod.mk.injEq] at h
    obtain ⟨rfl, rfl⟩ := h
    exact .waited hw
  · rename_i hw
    simp only [pure_eq_ok, Prod.mk.injEq] at h
    obtain ⟨rfl, rfl⟩ := h
    exact .polled hw
  · rename_i f hw
    simp only [bind_eq_ok, pure_eq_ok, Prod.mk.injEq, assertion_eq_ok, beq_iff_eq] at h
    obtain ⟨-, -, -, hs, rfl, rfl⟩ := h
    exact .move (.finishWaited hw hs)

/-! ## `udipe_cancel` and `future_finish` -/

theorem cancelCasStep_cases {fin : Bool} {type : FutureType} {status : FutureStatus}
    (h : cancelCasStep b o sh fin type status = .ok (sh', pc')) :
    ClientStep b t o sh (.cancelCas fin type status) sh' pc' := by
  simp only [cancelCasStep, bind_eq_ok] at h
  obtain ⟨-, -, h⟩ := h
  cases hk : status.outcome <;> simp only [hk, reduceCtorEq] at h
  case unknown =>
    simp only [bind_eq_ok] at h
    obtain ⟨-, -, -, -, ex, hex, h⟩ := h
    cases ex with
    | swapped =>
        obtain ⟨rfl, -⟩ := compareExchangeWeak_swapped hex
        obtain ⟨hrest, rfl⟩ | ⟨f, hrest, rfl, rfl⟩ := stored_eq_ok h
        · exact .cancel hk hrest
        · exact .cancelFails hk hrest
    | failed actual =>
        obtain rfl := compareExchangeWeak_failed hex
        simp only [bind_eq_ok, pure_eq_ok, Prod.mk.injEq] at h
        obtain ⟨-, -, rfl, rfl⟩ := h
        exact .move .cancelRetry
  all_goals
    simp only [pure_eq_ok, Prod.mk.injEq] at h
    obtain ⟨rfl, rfl⟩ := h
    exact .move (.cancelKnown (by simp [hk]))

theorem cancelReturnStep_cases {fin canceled : Bool} {status : FutureStatus}
    (h : cancelReturnStep t sh fin canceled status = .ok (sh', pc')) :
    ClientStep b t o sh (.cancelReturn fin canceled status) sh' pc' := by
  cases fin <;> simp only [cancelReturnStep, Bool.false_eq_true, if_true, if_false, pure_eq_ok,
    Prod.mk.injEq] at h <;> obtain ⟨rfl, rfl⟩ := h
  · exact .canceled
  · exact .move .cancelFinish

theorem finishCasStep_cases {f : FinishCaller}
    (h : finishCasStep b o sh f latest = .ok (sh', pc')) :
    ClientStep b t o sh (.finishCas f latest) sh' pc' := by
  simp only [finishCasStep, bind_eq_ok, assertion_eq_ok, beq_iff_eq] at h
  obtain ⟨-, -, -, hcount, -, havailable, -, -, ex, hex, h⟩ := h
  cases ex with
  | swapped =>
      simp only [pure_eq_ok, Prod.mk.injEq] at h
      obtain ⟨rfl, ho⟩ := compareExchangeWeak_swapped hex
      obtain ⟨rfl, rfl⟩ := h
      exact .finish ho hcount havailable
  | failed actual =>
      have hfail := compareExchangeWeak_failed_cause hex
      obtain rfl := compareExchangeWeak_failed hex
      simp only [bind_eq_ok, pure_eq_ok, Prod.mk.injEq] at h
      obtain ⟨-, -, rfl, rfl⟩ := h
      exact .move (.finishRetry hfail)

theorem finishCollectStep_cases {f : FinishCaller}
    (h : finishCollectStep b sh f latest = .ok (sh', pc')) :
    ClientStep b t o sh (.finishCollect f latest) sh' pc' := by
  cases f with
  | finish =>
      simp only [finishCollectStep, bind_eq_ok, pure_eq_ok, Prod.mk.injEq] at h
      obtain ⟨r, hr, rfl, rfl⟩ := h
      exact .move (.finishCollect ⟨rfl, hr⟩)
  | cancel canceled =>
      simp only [finishCollectStep, pure_eq_ok, Prod.mk.injEq] at h
      obtain ⟨rfl, rfl⟩ := h
      exact .move (.finishCollect ⟨canceled, rfl⟩)

theorem finishUpstreamStep_cases {f : FinishCaller} {result : Option (Result P)}
    (h : finishUpstreamStep b sh f result = .ok (sh', pc')) :
    ClientStep b t o sh (.finishUpstream f result) sh' pc' := by
  simp only [finishUpstreamStep] at h
  cases hty : sh.word.type <;> simp only [hty, reduceCtorEq] at h
  case join =>
    simp only [bind_eq_ok, pure_eq_ok, Prod.mk.injEq] at h
    obtain ⟨-, -, -, -, rfl, rfl⟩ := h
    exact .move (.finishUpstreams (.inl hty))
  case unordered =>
    simp only [bind_eq_ok, pure_eq_ok, Prod.mk.injEq] at h
    obtain ⟨-, -, -, -, rfl, rfl⟩ := h
    exact .move (.finishUpstreams (.inr hty))
  all_goals
    simp only [pure_eq_ok, Prod.mk.injEq] at h
    obtain ⟨rfl, rfl⟩ := h
    exact .move (.finishAlone (by simp [hty]))

theorem finishDetachStep_cases {f : FinishCaller} {result : Option (Result P)} {index : ℕ}
    (h : finishDetachStep b sh f result index = .ok (sh', pc')) :
    ClientStep b t o sh (.finishDetach f result index) sh' pc' := by
  simp only [finishDetachStep] at h
  split at h
  · rename_i hi
    obtain ⟨hrest, rfl⟩ | ⟨e, he, rfl, rfl⟩ := stored_eq_ok h
    · simp only [bind_eq_ok, pure_eq_ok] at hrest
      obtain ⟨-, -, rfl⟩ := hrest
      exact .detach ⟨index, hi⟩
    · have hfails : FailsWith (FetchFailure b (sh.upstream ⟨index, hi⟩)
          ((sh.upstream ⟨index, hi⟩).dec .cycle))
          (decremented b (sh.upstream ⟨index, hi⟩) >>= fun _ =>
            pure (.finishDetach f result (index + 1) : Pc P n)) := by
        simp [failsWith_decremented]
      exact .detachFails ⟨index, hi⟩ (hfails e he)
  · rename_i hi
    simp only [pure_eq_ok, Prod.mk.injEq] at h
    obtain ⟨rfl, rfl⟩ := h
    exact .detached (by omega)

theorem finishLiberateStep_cases {f : FinishCaller} {result : Option (Result P)}
    (h : finishLiberateStep b t sh f result = .ok (sh', pc')) :
    ClientStep b t o sh (.finishLiberate f result) sh' pc' := by
  simp only [finishLiberateStep] at h
  split at h <;> simp only [pure_eq_ok, Prod.mk.injEq] at h <;> obtain ⟨rfl, rfl⟩ := h
  · exact .liberate
  · rename_i e he
    obtain ⟨-, -, rfl⟩ := assertion_eq_error.mp he
    exact .liberateFails

/-- Every successful step of a client is one of the cases. -/
theorem clientStep_cases {pc : Pc P n} (hidle : pc ≠ .idle)
    (h : clientStep b t o sh pc = .ok (sh', pc')) : ClientStep b t o sh pc sh' pc' := by
  cases pc with
  | idle => exact absurd rfl hidle
  | waitLoad => exact waitLoadStep_cases h
  | eagerRegister => exact eagerRegisterStep_cases h
  | addressEnter => exact addressEnterStep_cases h
  | addressWait => exact addressWaitStep_cases h
  | addressBlocked => exact addressBlockedStep_cases h
  | addressReload => exact addressReloadStep_cases h
  | addressMeasure => exact addressMeasureStep_cases h
  | countDec => exact countDecStep_cases h
  | joinRegister => exact joinRegisterStep_cases h
  | joinPoll => exact joinPollStep_cases h
  | joinBatch => exact joinBatchStep_cases h
  | joinMeasure => exact joinMeasureStep_cases h
  | joinRelease => exact joinReleaseStep_cases h
  | timerInc => exact timerIncStep_cases h
  | timerRevert => exact timerRevertStep_cases h
  | timerPoll => exact timerPollStep_cases h
  | timerPublish => exact timerPublishStep_cases h
  | waitReturn => exact waitReturnStep_cases h
  | cancelCas => exact cancelCasStep_cases h
  | cancelReturn => exact cancelReturnStep_cases h
  | finishCas => exact finishCasStep_cases h
  | finishCollect => exact finishCollectStep_cases h
  | finishUpstream => exact finishUpstreamStep_cases h
  | finishDetach => exact finishDetachStep_cases h
  | finishLiberate => exact finishLiberateStep_cases h
  | _ =>
      simp only [clientStep, cancelLoadStep, finishLoadStep, cancelLatchStep, cancelWakeStep,
        cancelTimerStep, pure_eq_ok, Prod.mk.injEq] at h
      obtain ⟨rfl, rfl⟩ := h
      first
        | exact .wakeAll
        | exact .signal
        | exact .wakeOne
        | exact .move .cancelLoad
        | exact .cancelLatch
        | exact .cancelWake
        | exact .cancelTimer
        | exact .move .finishLoad

/-! ## The worker and the machine -/

/-- What `future_custom_check_canceled` answers. -/
theorem futureCustomCheckCanceled_eq_ok {status : FutureStatus} {canceled : Bool}
    (h : futureCustomCheckCanceled b status = .ok canceled) :
    (status.state = .processing ∧ canceled = false) ∨
      (status.state = .canceling ∧ canceled = true) := by
  simp only [futureCustomCheckCanceled, bind_eq_ok] at h
  obtain ⟨-, -, -, -, -, -, h⟩ := h
  cases hs : status.state <;> simp only [hs, reduceCtorEq] at h <;>
    obtain rfl := pure_eq_ok.mp h <;> simp

omit [DecidableEq Tid] in
/-- Every successful step of the worker is one of the cases. -/
theorem workerStep_cases {pc pc' : WorkerPc P} (hpc : ∀ saw, pc ≠ .running saw)
    (hdone : ∀ ret, pc ≠ .done ret) (habsent : pc ≠ .absent)
    (h : workerStep b o sh pc = .ok (sh', pc')) : WorkerStep b o sh pc sh' pc' := by
  cases pc with
  | absent => exact absurd rfl habsent
  | running saw => exact absurd rfl (hpc saw)
  | done ret => exact absurd rfl (hdone ret)
  | canceledLoad saw =>
      simp only [workerStep, bind_eq_ok, pure_eq_ok, Prod.mk.injEq] at h
      obtain ⟨canceled, hc, rfl, rfl⟩ := h
      obtain ⟨hs, rfl⟩ | ⟨hs, rfl⟩ := futureCustomCheckCanceled_eq_ok hc
      · simpa [hs] using @WorkerStep.canceledLoad _ _ _ b o sh saw (.inl hs)
      · simpa [hs] using @WorkerStep.canceledLoad _ _ _ b o sh saw (.inr hs)
  | setLoad successful payload =>
      simp only [workerStep, pure_eq_ok, Prod.mk.injEq] at h
      obtain ⟨rfl, rfl⟩ := h
      exact .setLoad
  | setCheck successful payload payloadSet status =>
      simp only [workerStep, bind_eq_ok] at h
      obtain ⟨canceled, hc, h⟩ := h
      obtain ⟨hs, rfl⟩ | ⟨hs, rfl⟩ := futureCustomCheckCanceled_eq_ok hc
      · cases payloadSet <;>
          simp only [Bool.false_eq_true, if_true, if_false, pure_eq_ok, Prod.mk.injEq] at h <;>
          obtain ⟨rfl, rfl⟩ := h
        · exact .setPayload hs
        · exact .setAgain hs
      · simp only [if_true, pure_eq_ok, Prod.mk.injEq] at h
        obtain ⟨rfl, rfl⟩ := h
        exact .setCanceled hs
  | setCas successful payload status =>
      simp only [workerStep, bind_eq_ok] at h
      obtain ⟨ex, hex, h⟩ := h
      cases ex with
      | swapped =>
          simp only [pure_eq_ok, Prod.mk.injEq] at h
          obtain ⟨rfl, hspurious⟩ := compareExchangeWeak_swapped hex
          obtain ⟨rfl, rfl⟩ := h
          exact .set hspurious
      | failed actual =>
          simp only [pure_eq_ok, Prod.mk.injEq] at h
          have hfail := compareExchangeWeak_failed_cause hex
          obtain rfl := compareExchangeWeak_failed hex
          obtain ⟨rfl, rfl⟩ := h
          exact .setRetry hfail
  | ackLoad ret =>
      simp only [workerStep, pure_eq_ok, Prod.mk.injEq] at h
      obtain ⟨rfl, rfl⟩ := h
      exact .ackLoad
  | ackCas ret status =>
      simp only [workerStep, bind_eq_ok, ensure_eq_ok] at h
      obtain ⟨canceled, hc, -, rfl, ex, hex, h⟩ := h
      obtain ⟨-, hf⟩ | ⟨hs, -⟩ := futureCustomCheckCanceled_eq_ok hc
      · exact absurd hf (by simp)
      cases ex with
      | swapped =>
          simp only [pure_eq_ok, Prod.mk.injEq] at h
          obtain ⟨rfl, hspurious⟩ := compareExchangeWeak_swapped hex
          obtain ⟨rfl, rfl⟩ := h
          exact .ack hspurious hs
      | failed actual =>
          simp only [pure_eq_ok, Prod.mk.injEq] at h
          have hfail := compareExchangeWeak_failed_cause hex
          obtain rfl := compareExchangeWeak_failed hex
          obtain ⟨rfl, rfl⟩ := h
          exact .ackRetry hfail
  | notifyAddress ret status =>
      simp only [workerStep, pure_eq_ok, Prod.mk.injEq] at h
      obtain ⟨rfl, rfl⟩ := h
      exact .notifyAddress
  | notifyEvent ret status =>
      simp only [workerStep, pure_eq_ok, Prod.mk.injEq] at h
      obtain ⟨rfl, rfl⟩ := h
      exact .notifyEvent

/-- Every event that the machine accepts is one of the cases. -/
theorem step_cases [Fintype Tid] {s s' : State Tid P n} {e : Event Tid P n}
    (h : step b s e = some s') : Step b s e s' := by
  simp only [step] at h
  split at h
  · simp at h
  cases e with
  | call t c =>
      simp only at h
      split at h
      · rename_i hguard
        obtain ⟨hidle, hc⟩ : (s.pc t).isIdle = true ∧ c.allowed s = true := by simpa using hguard
        obtain rfl := Option.some.inj h
        exact .call (Pc.isIdle_iff.mp hidle) hc
      · simp at h
  | client t o =>
      simp only at h
      split at h
      · rename_i hguard
        obtain ⟨⟨hidle, hpoll⟩, hwake⟩ : ((s.pc t).isIdle = false ∧
            o.pollAllowed s.shared (s.pc t) = true) ∧ o.wakeAllowed s.shared (s.pc t) = true := by
          simpa using hguard
        have hne : s.pc t ≠ .idle := fun h => by simp [h, Pc.isIdle] at hidle
        split at h <;> obtain rfl := Option.some.inj h
        · rename_i hstep
          exact .client rfl hne hpoll hwake (clientStep_cases hne hstep)
        · rename_i hstep
          exact .clientFails hstep
      · simp at h
  | workerCall c =>
      simp only at h
      split at h
      · rename_i hw
        obtain rfl := Option.some.inj h
        exact .workerCanceled hw
      · rename_i hw
        obtain rfl := Option.some.inj h
        exact .workerAcknowledge hw
      · rename_i hw
        obtain rfl := Option.some.inj h
        exact .workerSet hw
      · simp at h
  | worker o =>
      simp only at h
      split at h
      · simp at h
      · simp at h
      · simp at h
      · rename_i habsent hrunning hdone
        split at h <;> obtain rfl := Option.some.inj h
        · rename_i hstep
          exact .worker rfl (workerStep_cases hrunning hdone habsent hstep)
        · rename_i hstep
          exact .workerFails hstep
  | timerExpires =>
      obtain rfl := Option.some.inj h
      exact .timerExpires
  | upstreamChanges i status =>
      simp only at h
      split at h
      · rename_i hok
        obtain rfl := Option.some.inj h
        exact .upstreamChanges hok
      · simp at h
  | downstreamDetaches =>
      simp only at h
      split at h
      · rename_i hguard
        split at h <;> obtain rfl := Option.some.inj h
        · exact .downstreamDetaches hguard.1 hguard.2
        · rename_i f hf
          exact .downstreamFails (failsWith_decremented f hf) hguard.1 hguard.2
      · simp at h

end Udipe

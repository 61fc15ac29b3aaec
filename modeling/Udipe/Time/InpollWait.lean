import Udipe.Time.Stopwatch

/-!
# Waiting on an inpoll

Reference: `inpoll.c`, `duration.h`.

The kernel is the list of its successive answers to `epoll_pwait2`. An answer without events says that the
delay has elapsed: `inpoll_wait` has no branch for it, and takes it for a failed call.
-/

namespace Udipe

open Checked

/-- `UDIPE_DURATION_DEFAULT`. -/
abbrev udipeDurationDefault : DurationNs := 0

/-- `UDIPE_DURATION_MIN`. -/
abbrev udipeDurationMin : DurationNs := 1

/-- `UDIPE_DURATION_MAX`. -/
abbrev udipeDurationMax : DurationNs := BitVec.allOnes 64

/-- `INT_MAX`. -/
abbrev intMax : ℕ := 2147483647

/-- `EINTR`. -/
abbrev eintr : ℕ := 4

/-- `EPOLLIN`. -/
abbrev epollIn : BitVec 32 := 1

/-- `struct epoll_event`. -/
structure EpollEvent where
  events : BitVec 32
  data : BitVec 64
deriving DecidableEq

/-- What `epoll_pwait2` returns: events that it has stored, none of them when the delay has elapsed, or -1
with a value of `errno`. -/
inductive EpollResult where
  | stored (events : List EpollEvent)
  | failed (errno : ℕ)
deriving DecidableEq

/-- One answer of the kernel, and what the clock says after it. -/
structure EpollAnswer where
  result : EpollResult
  now : Timespec
deriving DecidableEq

/-- The checks of `inpoll_wait` and of what it calls. -/
inductive InpollFailure where
  | stopwatch (failure : StopwatchFailure)
  | defaultTimeout
  | tooManyIdentifiers
  | tooManyEvents
  | unexpectedEvents
  | resultNotMinusOne
  | unexpectedErrno
deriving DecidableEq

/-- The delay that the kernel is given for a timeout; `none` is the null pointer, an infinite delay. -/
def unixDelay (timeout : DurationNs) : Option Timespec :=
  if timeout = udipeDurationMax then none
  else if timeout = udipeDurationMin then some ⟨0, 0, by decide⟩
  else
    some {
      tvSec := timeout / BitVec.ofNat 64 udipeSecond
      tvNsec := timeout % BitVec.ofNat 64 udipeSecond
      tvNsec_lt := by
        rw [BitVec.toNat_umod]
        exact Nat.mod_lt _ (by decide) }

/-- `make_unix_timeout`. -/
def makeUnixTimeout (assertions : Bool) (timeout : DurationNs) :
    Except InpollFailure (Option Timespec) := do
  assertion assertions (timeout != udipeDurationDefault) .defaultTimeout
  pure (unixDelay timeout)

/-- A run of `inpoll_wait`: the delays of its calls of `epoll_pwait2`, and the identifiers it returns, `none`
while it waits for an answer. -/
structure InpollRun where
  delays : List (Option Timespec)
  identifiers : Option (List (BitVec 64))
deriving DecidableEq

/-- A run that begins with one more call. -/
def InpollRun.after (delay : Option Timespec) (run : InpollRun) : InpollRun :=
  { run with delays := delay :: run.delays }

theorem InpollRun.after_inj {delay : Option Timespec} {run run' : InpollRun}
    (h : run.after delay = run'.after delay) : run = run' := by
  cases run
  cases run'
  simpa [InpollRun.after] using h

/-- The events that the kernel has stored. -/
def EpollResult.events : EpollResult → List EpollEvent
  | .stored events => events
  | .failed _ => []

/-- The result is -1. -/
def EpollResult.isMinusOne : EpollResult → Bool
  | .stored _ => false
  | .failed _ => true

/-- `errno` after the call, which a successful one leaves as it was. -/
def EpollResult.errnoAfter (errno : ℕ) : EpollResult → ℕ
  | .stored _ => errno
  | .failed errno => errno

variable (assertions : Bool) (numIdentifiers : ℕ)

/-- The loop of `inpoll_wait`. -/
def inpollLoop : ℕ → Stopwatch → DurationNs → List EpollAnswer → Except InpollFailure InpollRun
  | _, _, timeout, [] => do
      let delay ← makeUnixTimeout assertions timeout
      pure ⟨[delay], none⟩
  | errno, stopwatch, timeout, answer :: answers => do
      let delay ← makeUnixTimeout assertions timeout
      let events := answer.result.events
      if 0 < events.length then
        ensure (events.length ≤ numIdentifiers) .tooManyEvents
        ensure (events.all fun event => event.events == epollIn) .unexpectedEvents
        pure ⟨[delay], some (events.map EpollEvent.data)⟩
      else
        assertion assertions answer.result.isMinusOne .resultNotMinusOne
        ensure (answer.result.errnoAfter errno == eintr) .unexpectedErrno
        let (elapsedTime, stopwatch) ←
          (stopwatchMeasure assertions stopwatch answer.now).mapError .stopwatch
        if timeout ≤ elapsedTime then
          pure ⟨[delay], some []⟩
        else
          let run ← inpollLoop 0 stopwatch (timeout - elapsedTime) answers
          pure (run.after delay)

/-- `inpoll_wait`, called when `errno` has some value and the clock says `start`. -/
def inpollWait (errno : ℕ) (timeout : DurationNs) (start : Timespec) (answers : List EpollAnswer) :
    Except InpollFailure InpollRun := do
  let stopwatch := stopwatchInitialize start
  ensure (numIdentifiers ≤ intMax) .tooManyIdentifiers
  inpollLoop assertions numIdentifiers errno stopwatch timeout answers

/-! ## What a wait is for -/

/-- The run that a wait should have: it ends with the identifiers of the first events that the kernel reports,
or with none once the kernel says that the delay has elapsed or an interruption comes after the deadline. An
earlier interruption makes it wait for the time that is left. -/
def expectedRun (deadline : ℤ) : Timespec → List EpollAnswer → InpollRun
  | last, [] => ⟨[unixDelay (BitVec.ofInt 64 (deadline - last.time))], none⟩
  | last, answer :: answers =>
      let delay := unixDelay (BitVec.ofInt 64 (deadline - last.time))
      match answer.result with
      | .stored events => ⟨[delay], some (events.map EpollEvent.data)⟩
      | .failed _ =>
          if deadline ≤ answer.now.time then ⟨[delay], some []⟩
          else (expectedRun deadline answer.now answers).after delay

/-- The answers that the kernel gives to a call with room for `numIdentifiers` events: at most that many
events, each of them `EPOLLIN`, or an interruption. -/
def EpollResult.FromKernel : EpollResult → Prop
  | .stored events => events.length ≤ numIdentifiers ∧ ∀ event ∈ events, event.events = epollIn
  | .failed errno => errno = eintr

/-- The answers that the wait handles. An answer without events is handled only if it is the first one, there
are no assertions, `errno` happens to be `EINTR` and the measured time reaches the timeout. An interruption
after the deadline needs a measured time that reaches the timeout, one before it an exact one. -/
def HandledAnswers (deadline : ℤ) : ℕ → Timespec → List EpollAnswer → Prop
  | _, _, [] => True
  | errno, last, answer :: answers =>
      match answer.result with
      | .stored [] => assertions = false ∧ errno = eintr ∧
          deadline - last.time ≤ (measuredTime last answer.now).toNat
      | .stored (_ :: _) => True
      | .failed _ =>
          if deadline ≤ answer.now.time then
            deadline - last.time ≤ (measuredTime last answer.now).toNat
          else FitsWithoutBorrow last answer.now ∧ HandledAnswers deadline 0 answer.now answers

section

variable {assertions : Bool} {numIdentifiers errno : ℕ} {timeout : DurationNs} {deadline : ℤ}
  {last : Timespec} {answer : EpollAnswer} {answers : List EpollAnswer}

/-! ## Delays -/

/-- A finite delay that is not empty is the timeout. -/
theorem unixDelay_time {delay : Timespec} (h : unixDelay timeout = some delay)
    (hmin : timeout ≠ udipeDurationMin) : delay.time = timeout.toNat := by
  unfold unixDelay at h
  rw [if_neg hmin] at h
  split at h
  · cases h
  · obtain rfl := Option.some.inj h
    have hsecond : (BitVec.ofNat 64 udipeSecond).toNat = udipeSecond := by decide
    have hlt := timeout.isLt
    have hsec : (timeout / BitVec.ofNat 64 udipeSecond).toNat = timeout.toNat / udipeSecond := by
      rw [BitVec.toNat_udiv, hsecond]
    -- the seconds are stored as a signed number, and are too few to become negative
    have hsigned : (timeout / BitVec.ofNat 64 udipeSecond).toInt = (timeout.toNat / udipeSecond : ℕ) := by
      rw [← hsec]
      apply BitVec.toInt_eq_toNat_of_lt
      rw [hsec, udipeSecond]
      omega
    rw [Timespec.time, hsigned, BitVec.toNat_umod, hsecond]
    exact_mod_cast Nat.div_add_mod' timeout.toNat udipeSecond

/-- Two timeouts of at least `UDIPE_DURATION_MIN` have different delays. -/
theorem unixDelay_inj {other : DurationNs} (htimeout : timeout ≠ 0) (hother : other ≠ 0)
    (h : unixDelay timeout = unixDelay other) : timeout = other := by
  -- only the minimal timeout has the delay zero, although it is not zero itself
  have hmin : ∀ {t : DurationNs}, unixDelay t = unixDelay udipeDurationMin → t ≠ 0 →
      t = udipeDurationMin := by
    intro t ht hne
    by_contra hmin
    have htime := unixDelay_time ht hmin
    have hpos : t.toNat ≠ 0 := fun hzero => hne (BitVec.eq_of_toNat_eq hzero)
    have hnone : (⟨0, 0, by decide⟩ : Timespec).time = 0 := by decide
    omega
  by_cases ht : timeout = udipeDurationMin
  · subst ht
    exact (hmin h.symm hother).symm
  by_cases ho : other = udipeDurationMin
  · subst ho
    exact hmin h htimeout
  cases hdelay : unixDelay timeout with
  | none =>
      -- only the maximal timeout has an infinite delay
      have hmax : ∀ {t : DurationNs}, unixDelay t = none → t = udipeDurationMax := by
        intro t ht
        unfold unixDelay at ht
        split at ht
        · assumption
        · split at ht <;> cases ht
      have hdelay' : unixDelay other = none := h ▸ hdelay
      exact (hmax hdelay).trans (hmax hdelay').symm
  | some delay =>
      have htime := unixDelay_time hdelay ht
      rw [unixDelay_time (h ▸ hdelay) ho] at htime
      exact BitVec.eq_of_toNat_eq (by exact_mod_cast htime.symm)

theorem makeUnixTimeout_eq_ok {delay : Option Timespec} :
    makeUnixTimeout assertions timeout = .ok delay ↔
      (assertions = true → timeout ≠ 0) ∧ unixDelay timeout = delay := by
  rw [makeUnixTimeout, bind_eq_ok]
  simp only [assertion_eq_ok, pure_eq_ok, bne_iff_ne, exists_const]

/-! ## One call -/

/-- Events end the wait. -/
theorem inpollLoop_stored {stopwatch : Stopwatch} {event : EpollEvent} {events : List EpollEvent}
    (hresult : answer.result = .stored (event :: events))
    (hkernel : answer.result.FromKernel numIdentifiers)
    (htimeout : assertions = true → timeout ≠ 0) :
    inpollLoop assertions numIdentifiers errno stopwatch timeout (answer :: answers)
      = .ok ⟨[unixDelay timeout], some ((event :: events).map EpollEvent.data)⟩ := by
  have hstored : answer.result.events = event :: events := by
    rw [hresult]
    rfl
  rw [hresult] at hkernel
  obtain ⟨hlength, hevents⟩ := hkernel
  have hall : ((event :: events).all fun event => event.events == epollIn) = true := by
    simpa using hevents
  rw [inpollLoop, makeUnixTimeout_eq_ok.mpr ⟨htimeout, rfl⟩, ok_bind]
  simp only [hstored]
  rw [if_pos (by simp), ensure_of_true _ (decide_eq_true hlength), ok_bind, ensure_of_true _ hall]
  rfl

/-- An answer without events, where `errno` is `EINTR`, ends the wait or has it go on. -/
theorem inpollLoop_interrupted (hevents : answer.result.events = [])
    (hminus : assertions = true → answer.result.isMinusOne = true)
    (herrno : answer.result.errnoAfter errno = eintr) (hforward : last.time ≤ answer.now.time)
    (htimeout : assertions = true → timeout ≠ 0) :
    inpollLoop assertions numIdentifiers errno ⟨last⟩ timeout (answer :: answers)
      = if timeout ≤ measuredTime last answer.now then .ok ⟨[unixDelay timeout], some []⟩
        else InpollRun.after (unixDelay timeout) <$> inpollLoop assertions numIdentifiers 0 ⟨answer.now⟩
          (timeout - measuredTime last answer.now) answers := by
  rw [inpollLoop, makeUnixTimeout_eq_ok.mpr ⟨htimeout, rfl⟩, ok_bind]
  simp only [hevents, List.length_nil, lt_irrefl, if_false]
  rw [(assertion_eq_ok (u := ())).mpr hminus, ok_bind, ensure_of_true _ (by simpa using herrno), ok_bind,
    stopwatchMeasure_spec hforward]
  rfl

/-- A run that does not stop at a check has been given a timeout, and begins with its delay. -/
theorem inpollLoop_head {stopwatch : Stopwatch} {run : InpollRun}
    (h : inpollLoop assertions numIdentifiers errno stopwatch timeout answers = .ok run) :
    (assertions = true → timeout ≠ 0) ∧ ∃ delays, run.delays = unixDelay timeout :: delays := by
  cases answers with
  | nil =>
      obtain ⟨delay, hdelay, hrun⟩ := bind_eq_ok.mp h
      obtain rfl := pure_eq_ok.mp hrun
      obtain ⟨htimeout, rfl⟩ := makeUnixTimeout_eq_ok.mp hdelay
      exact ⟨htimeout, _, rfl⟩
  | cons answer answers =>
      obtain ⟨delay, hdelay, h⟩ := bind_eq_ok.mp h
      obtain ⟨htimeout, rfl⟩ := makeUnixTimeout_eq_ok.mp hdelay
      refine ⟨htimeout, ?_⟩
      dsimp only at h
      split at h
      · obtain ⟨-, -, h⟩ := bind_eq_ok.mp h
        obtain ⟨-, -, h⟩ := bind_eq_ok.mp h
        obtain rfl := pure_eq_ok.mp h
        exact ⟨_, rfl⟩
      · obtain ⟨-, -, h⟩ := bind_eq_ok.mp h
        obtain ⟨-, -, h⟩ := bind_eq_ok.mp h
        obtain ⟨⟨elapsedTime, stopwatch⟩, -, h⟩ := bind_eq_ok.mp h
        dsimp only at h
        split at h
        · obtain rfl := pure_eq_ok.mp h
          exact ⟨_, rfl⟩
        · obtain ⟨run', -, h⟩ := bind_eq_ok.mp h
          obtain rfl := pure_eq_ok.mp h
          exact ⟨_, rfl⟩

/-- A run goes past an answer without events only if the code takes it for an interruption. -/
theorem inpollLoop_silent {stopwatch : Stopwatch} {run : InpollRun} (hevents : answer.result.events = [])
    (h : inpollLoop assertions numIdentifiers errno stopwatch timeout (answer :: answers) = .ok run) :
    (assertions = true → answer.result.isMinusOne = true) ∧
      answer.result.errnoAfter errno = eintr := by
  obtain ⟨delay, -, h⟩ := bind_eq_ok.mp h
  simp only [hevents, List.length_nil, lt_irrefl, if_false] at h
  obtain ⟨_, hminus, h⟩ := bind_eq_ok.mp h
  obtain ⟨_, herrno, -⟩ := bind_eq_ok.mp h
  exact ⟨assertion_eq_ok.mp hminus, by simpa using ensure_eq_ok.mp herrno⟩

/-! ## The whole wait -/

/-- The wait is over after this call exactly when the measured time reaches the timeout. -/
theorem interrupted_ends_iff {stopwatch : Stopwatch} {measured : DurationNs} {delay : Option Timespec} :
    (if timeout ≤ measured then .ok ⟨[delay], some []⟩
      else InpollRun.after delay <$> inpollLoop assertions numIdentifiers 0 stopwatch
        (timeout - measured) answers) = .ok (⟨[delay], some []⟩ : InpollRun) ↔ timeout ≤ measured := by
  split
  · simp [*]
  · simp only [*, iff_false]
    intro h
    obtain ⟨run, hrun, hafter⟩ := map_eq_ok.mp h
    obtain ⟨-, delays, hdelays⟩ := inpollLoop_head hrun
    simp [InpollRun.after, hdelays] at hafter

/-- The expected run begins with the delay for the time that is left. -/
theorem expectedRun_delays (deadline : ℤ) (last : Timespec) (answers : List EpollAnswer) :
    ∃ delays, (expectedRun deadline last answers).delays
      = unixDelay (BitVec.ofInt 64 (deadline - last.time)) :: delays := by
  cases answers with
  | nil => exact ⟨_, rfl⟩
  | cons answer answers =>
      rw [expectedRun]
      split
      · exact ⟨_, rfl⟩
      · split
        · exact ⟨_, rfl⟩
        · exact ⟨_, rfl⟩

/-- The clock after the answers. -/
abbrev AnswersForward (last : Timespec) (answers : List EpollAnswer) : Prop :=
  ClockForward last (answers.map EpollAnswer.now)

theorem le_measured_iff {measured : DurationNs} (hleft : (timeout.toNat : ℤ) = deadline - last.time) :
    timeout ≤ measured ↔ deadline - last.time ≤ measured.toNat := by
  rw [BitVec.le_def, ← hleft, Int.ofNat_le]

/-- An answer that says that the delay has elapsed. -/
theorem inpollLoop_elapsed_iff (hresult : answer.result = .stored [])
    (hleft : (timeout.toNat : ℤ) = deadline - last.time) (hforward : last.time ≤ answer.now.time)
    (htimeout : assertions = true → timeout ≠ 0) :
    inpollLoop assertions numIdentifiers errno ⟨last⟩ timeout (answer :: answers)
        = .ok ⟨[unixDelay timeout], some []⟩ ↔
      assertions = false ∧ errno = eintr ∧
        deadline - last.time ≤ (measuredTime last answer.now).toNat := by
  have hevents : answer.result.events = [] := by
    rw [hresult]
    rfl
  -- once the checks have passed, the measured time decides
  have hend (hminus : assertions = false) (herrno : errno = eintr) :
      inpollLoop assertions numIdentifiers errno ⟨last⟩ timeout (answer :: answers)
        = .ok ⟨[unixDelay timeout], some []⟩ ↔
          deadline - last.time ≤ (measuredTime last answer.now).toNat := by
    rw [inpollLoop_interrupted hevents (by simp [hminus]) (by simpa [hresult, EpollResult.errnoAfter])
      hforward htimeout, interrupted_ends_iff, le_measured_iff hleft]
  constructor
  · intro h
    obtain ⟨hminus, herrno⟩ := inpollLoop_silent hevents h
    have hassert : assertions = false := by simpa [hresult, EpollResult.isMinusOne] using hminus
    have herrno : errno = eintr := by simpa [hresult, EpollResult.errnoAfter] using herrno
    exact ⟨hassert, herrno, (hend hassert herrno).mp h⟩
  · rintro ⟨hassert, herrno, hreached⟩
    exact (hend hassert herrno).mpr hreached

/-- An interruption before the deadline: the rest of the wait has the time that is left exactly when the
measured time is exact. -/
theorem inpollLoop_resumed_iff (hresult : answer.result = .failed eintr)
    (hleft : (timeout.toNat : ℤ) = deadline - last.time) (hforward : last.time ≤ answer.now.time)
    (hbefore : answer.now.time < deadline) (htimeout : assertions = true → timeout ≠ 0) :
    inpollLoop assertions numIdentifiers errno ⟨last⟩ timeout (answer :: answers)
        = .ok ((expectedRun deadline answer.now answers).after (unixDelay timeout)) ↔
      FitsWithoutBorrow last answer.now ∧
        inpollLoop assertions numIdentifiers 0 ⟨answer.now⟩
            (BitVec.ofInt 64 (deadline - answer.now.time)) answers
          = .ok (expectedRun deadline answer.now answers) := by
  set measured := measuredTime last answer.now with hmeasured
  obtain ⟨delays, hdelays⟩ := expectedRun_delays deadline answer.now answers
  have hlt := timeout.isLt
  have hexact := measuredTime_exact_iff hforward
  rw [← hmeasured] at hexact
  rw [inpollLoop_interrupted (by rw [hresult]; rfl) (by simp [hresult, EpollResult.isMinusOne])
    (by simp [hresult, EpollResult.errnoAfter]) hforward htimeout, ← hmeasured, ← hexact]
  have htoNat : (BitVec.ofInt 64 (deadline - answer.now.time)).toNat
      = (deadline - answer.now.time).toNat := by
    rw [BitVec.toNat_ofInt]
    omega
  split
  · -- the wait ends early: its list of delays is too short
    rename_i hle
    rw [le_measured_iff hleft] at hle
    constructor
    · intro h
      have hshort := congrArg InpollRun.delays (Except.ok.inj h)
      simp [InpollRun.after, hdelays] at hshort
    · rintro ⟨hm, -⟩
      omega
  · rename_i hle
    have hlt : measured.toNat < timeout.toNat := by
      rw [BitVec.le_def] at hle
      omega
    -- the next round runs with the timeout less what was measured
    have hsub : (timeout - measured).toNat = timeout.toNat - measured.toNat :=
      BitVec.toNat_sub_of_le (by rw [BitVec.le_def]; omega)
    have hzeroNat : (0 : DurationNs).toNat = 0 := rfl
    rw [map_eq_ok]
    constructor
    · rintro ⟨run, hrun, hafter⟩
      obtain rfl := InpollRun.after_inj hafter
      -- the two runs go on with the same delay, and delays tell timeouts apart
      obtain ⟨-, delays', hdelays'⟩ := inpollLoop_head hrun
      have hsame : timeout - measured = BitVec.ofInt 64 (deadline - answer.now.time) := by
        refine unixDelay_inj (fun hzero => ?_) (fun hzero => ?_)
          (List.cons.inj (hdelays'.symm.trans hdelays)).1
        · have := congrArg BitVec.toNat hzero
          rw [hsub, hzeroNat] at this
          omega
        · have := congrArg BitVec.toNat hzero
          rw [htoNat, hzeroNat] at this
          omega
      have hboth := congrArg BitVec.toNat hsame
      rw [hsub, htoNat] at hboth
      exact ⟨by omega, hsame ▸ hrun⟩
    · rintro ⟨hm, hrun⟩
      have hsame : timeout - measured = BitVec.ofInt 64 (deadline - answer.now.time) := by
        apply BitVec.eq_of_toNat_eq
        rw [hsub, htoNat]
        omega
      exact ⟨_, hsame ▸ hrun, rfl⟩

theorem inpollLoop_eq_expected_iff (hleft : (timeout.toNat : ℤ) = deadline - last.time)
    (hforward : AnswersForward last answers)
    (hkernel : ∀ answer ∈ answers, answer.result.FromKernel numIdentifiers) :
    inpollLoop assertions numIdentifiers errno ⟨last⟩ timeout answers
        = .ok (expectedRun deadline last answers) ↔
      (assertions = true → timeout ≠ 0) ∧ HandledAnswers assertions deadline errno last answers := by
  have hdelay : BitVec.ofInt 64 (deadline - last.time) = timeout := by
    rw [← hleft]
    exact BitVec.ofNat_toNat ..
  -- induction on the answers, with the clock and the timeout as they are at each call
  induction answers generalizing errno last timeout with
  | nil =>
      rw [expectedRun, hdelay, inpollLoop, bind_eq_ok, HandledAnswers, and_true]
      constructor
      · rintro ⟨delay, htimeout, -⟩
        exact (makeUnixTimeout_eq_ok.mp htimeout).1
      · intro htimeout
        exact ⟨_, makeUnixTimeout_eq_ok.mpr ⟨htimeout, rfl⟩, rfl⟩
  | cons answer answers ih =>
      by_cases htimeout : assertions = true → timeout ≠ 0
      swap
      · exact iff_of_false (fun h => htimeout (inpollLoop_head h).1) fun h => htimeout h.1
      rw [and_iff_right htimeout]
      obtain ⟨hlast, hforward⟩ := List.isChain_cons_cons.mp hforward
      have hfirst := hkernel answer (List.mem_cons_self ..)
      have hlater : ∀ later ∈ answers, later.result.FromKernel numIdentifiers := fun later hmem =>
        hkernel later (List.mem_cons_of_mem _ hmem)
      rw [expectedRun, hdelay, HandledAnswers]
      cases hresult : answer.result with
      | stored events =>
          cases events with
          | nil => exact inpollLoop_elapsed_iff hresult hleft hlast htimeout
          | cons event events => exact iff_of_true (inpollLoop_stored hresult hfirst htimeout) trivial
      | failed errno =>
          -- the kernel gives no other error
          obtain rfl : errno = eintr := by
            rw [hresult] at hfirst
            exact hfirst
          by_cases hreached : deadline ≤ answer.now.time
          · simp only [hreached, if_true]
            rw [inpollLoop_interrupted (by rw [hresult]; rfl) (by simp [hresult, EpollResult.isMinusOne])
              (by simp [hresult, EpollResult.errnoAfter]) hlast htimeout, interrupted_ends_iff,
              le_measured_iff hleft]
          · have hlt := timeout.isLt
            have hleft' : ((BitVec.ofInt 64 (deadline - answer.now.time)).toNat : ℤ)
                = deadline - answer.now.time := by
              rw [BitVec.toNat_ofInt]
              omega
            -- what is left is not zero, so no later round gets the default timeout
            have hpos : BitVec.ofInt 64 (deadline - answer.now.time) ≠ 0 := fun hzero => by
              rw [hzero] at hleft'
              have hzeroNat : (0 : DurationNs).toNat = 0 := rfl
              omega
            simp only [hreached, if_false]
            rw [inpollLoop_resumed_iff hresult hleft hlast (not_le.mp hreached) htimeout]
            exact and_congr_right fun _ =>
              (ih hleft' hforward hlater rfl).trans (and_iff_right fun _ => hpos)

/-- Over every sequence of answers: `inpoll_wait` behaves as a wait should, stopping at no check, exactly when
it can pass as many identifiers to the kernel, it does not get the default timeout where that is asserted, and
it handles the answers. -/
theorem inpoll_wait_handles_iff {start : Timespec} (hforward : AnswersForward start answers)
    (hkernel : ∀ answer ∈ answers, answer.result.FromKernel numIdentifiers) :
    inpollWait assertions numIdentifiers errno timeout start answers
        = .ok (expectedRun (start.time + timeout.toNat) start answers) ↔
      numIdentifiers ≤ intMax ∧ (assertions = true → timeout ≠ 0) ∧
        HandledAnswers assertions (start.time + timeout.toNat) errno start answers := by
  rw [← inpollLoop_eq_expected_iff (by omega) hforward hkernel, inpollWait, bind_eq_ok]
  simp only [ensure_eq_ok, decide_eq_true_eq, exists_const]
  rfl

end

/-! ## A signal and a timeout -/

/-- The clock says one second past the epoch; a signal comes 200 ns later, and identifier 7 after 100 ns
more. -/
def signalThenEvent : List EpollAnswer :=
  [⟨.failed eintr, .at 1 200⟩, ⟨.stored [⟨epollIn, 7⟩], .at 1 300⟩]

theorem inpoll_wait_handles_iff_signalThenEvent :
    inpollWait true 4 0 500 (.at 1 0) signalThenEvent
      = .ok (expectedRun (Timespec.time (.at 1 0) + (500 : DurationNs).toNat) (.at 1 0)
          signalThenEvent) := by
  have hkernel : ∀ answer ∈ signalThenEvent, answer.result.FromKernel 4 := by
    simp [signalThenEvent, EpollResult.FromKernel]
  have hhandled : HandledAnswers true (Timespec.time (.at 1 0) + (500 : DurationNs).toNat) 0 (.at 1 0)
      signalThenEvent := by
    simp only [signalThenEvent, HandledAnswers]
    rw [if_neg (by decide)]
    exact ⟨by decide, trivial⟩
  exact (inpoll_wait_handles_iff (by decide) hkernel).mpr ⟨by decide, by decide, hhandled⟩

/-- The kernel says that the delay has elapsed: with assertions, one of them fails; without them, the process
ends because `errno` is not `EINTR`. The wait should return no identifier. -/
theorem elapsedDelay_fails :
    inpollWait true 4 0 500 (.at 1 0) [⟨.stored [], .at 1 500⟩] = .error .resultNotMinusOne ∧
      inpollWait false 4 0 500 (.at 1 0) [⟨.stored [], .at 1 500⟩] = .error .unexpectedErrno ∧
      expectedRun (Timespec.time (.at 1 0) + (500 : DurationNs).toNat) (.at 1 0)
          [⟨.stored [], .at 1 500⟩] = ⟨[unixDelay 500], some []⟩ := by
  decide

end Udipe

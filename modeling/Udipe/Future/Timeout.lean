import Udipe.Future.Lifetime

/-!
# The time that a wait takes

Reference: `future/wait.c`, `inpoll.c` (`inpoll_wait`), `stopwatch.h`, `udipe/duration.h`.

`timed` is the machine of a future with a clock for each thread: time passes inside blocking calls, and
`stopwatch_measure` returns exactly the time since its last measurement. Every wait keeps
`timeout + spent = initial + lap`, where `lap` is the time that the stopwatch of the wait has not yet
measured. A blocking call gets a timeout that is too long when it starts with time left unmeasured, and
there is one way to do so: a waiter of a join that finds `lazy_lock` free after it slept registers
again without a measurement. A wait ends too early when `ppoll` gets a timeout of 1 ns that a signal has
left of a longer one, as this value stands for no time at all.
-/

namespace Udipe

open Checked Function Threads

variable {Tid P : Type} {n : ℕ} {b : Build}

/-- The clock of a wait. -/
structure Clock where
  /-- `timeout` at the start of the wait. -/
  initial : ℕ
  /-- The time since then. -/
  spent : ℕ
  /-- The time since the last measurement of the wait's stopwatch. -/
  lap : ℕ
deriving DecidableEq, Repr

/-- The initial timeout has elapsed. -/
def Clock.Exhausted (c : Clock) : Prop := c.initial ≤ c.spent

/-- A wait may give up: its initial timeout has elapsed, or is `UDIPE_DURATION_MIN`, which stands for an
instantaneous duration. -/
def Clock.Expired (c : Clock) : Prop := c.Exhausted ∨ c.initial = durationMin

/-- Whether a step may take the time `d`: time passes in blocking calls, the stopwatches are exact, and
`ppoll` times out after its timeout, at once if that is minimal. -/
def Clock.allows (c : Clock) (o : Oracle Tid n) (d : ℕ) : Pc P n → Bool
  | .addressBlocked _ _ => true
  | .joinPoll _ _ _ => decide (o.poll = .interrupted → o.elapsed = d)
  | .timerPoll w _ =>
      decide ((o.poll = .interrupted → o.elapsed = c.lap + d) ∧
        (o.poll = .timedOut → w.timeout ≤ d ∨ w.timeout = durationMin))
  | .addressMeasure _ _ | .joinMeasure _ _ _ => decide (d = 0 ∧ o.elapsed = c.lap)
  | _ => decide (d = 0)

/-- The clock after the thread took the time `d` at `pc`, and measured it if it did. -/
def Clock.pass (c : Clock) (o : Oracle Tid n) (d : ℕ) : Pc P n → Clock
  | .addressBlocked _ _ | .joinPoll _ _ _ => { c with spent := c.spent + d, lap := c.lap + d }
  | .timerPoll _ _ =>
      { c with
        spent := c.spent + d
        lap := if o.poll = .interrupted then 0 else c.lap + d }
  | .addressMeasure _ _ | .joinMeasure _ _ _ => { c with lap := 0 }
  | _ => c

/-- The clock after a step from `pc` to `pc'`, which may start a wait. -/
def Clock.next (c : Clock) (o : Oracle Tid n) (d : ℕ) (pc pc' : Pc P n) : Clock :=
  match pc' with
  | .waitLoad w => { initial := w.timeout, spent := 0, lap := 0 }
  | _ => c.pass o d pc

/-- A future and the clocks of its threads. -/
structure TimedState (Tid P : Type) (n : ℕ) where
  state : State Tid P n
  clock : Tid → Clock

/-- The timeout of the blocking call that the thread is in, or about to make. -/
def Pc.blocksFor? : Pc P n → Option ℕ
  | addressEnter w _ | addressWait w _ | addressBlocked w _ | timerPoll w _ => some w.timeout
  | joinPoll _ _ pollTimeout => some pollTimeout
  | _ => none

section

variable [DecidableEq Tid] [Fintype Tid]

/-- The clocks after an event that takes the time `d`. -/
def TimedState.tick (s : TimedState Tid P n) (e : Event Tid P n) (d : ℕ) (s' : State Tid P n) :
    Tid → Clock :=
  match e with
  | .client t o => update s.clock t ((s.clock t).next o d (s.state.pc t) (s'.pc t))
  | .call t _ => update s.clock t ((s.clock t).next (.calm Tid n) d .idle (s'.pc t))
  | _ => s.clock

/-- Whether an event may take the time `d`. -/
def TimedState.allows (s : TimedState Tid P n) (e : Event Tid P n) (d : ℕ) : Bool :=
  match e with
  | .client t o => (s.clock t).allows o d (s.state.pc t)
  | _ => true

/-- The machine of one future with clocks. -/
def timed (b : Build) : Machine (TimedState Tid P n) (Event Tid P n × ℕ) where
  step s e :=
    if s.allows e.1 e.2 then
      (step b s.state e.1).map fun s' =>
        { state := s', clock := if s'.shared.aborted.isSome then s.clock else s.tick e.1 e.2 s' }
    else none

end

/-- Every blocking call gets a timeout that is at most what is left of the initial one, or the minimal
one when nothing is left, and never the default placeholder. -/
def WithinBudget (s : TimedState Tid P n) : Prop :=
  ∀ t timeout, (s.state.pc t).blocksFor? = some timeout →
    timeout ≠ durationDefault ∧
      (timeout + (s.clock t).spent ≤ (s.clock t).initial ∨
        timeout = durationMin ∧ (s.clock t).Exhausted)

/-- A wait that returns without a result has lasted as long as its initial timeout. -/
def ReturnsOnTime (s : TimedState Tid P n) : Prop :=
  ∀ t w l, s.state.pc t = .waitReturn w l → l.state = .result ∨ (s.clock t).Expired

/-- A waiter of a join registers with time that it has not measured, and goes on to block. -/
def RegistersLate (s : TimedState Tid P n) (e : Event Tid P n × ℕ) (s' : TimedState Tid P n) : Prop :=
  match e.1 with
  | .client t _ =>
    match s.state.pc t with
    | .joinRegister w _ _ =>
        0 < (s.clock t).lap ∧ w.timeout ≠ durationMin ∧ (s'.state.pc t).blocksFor? ≠ none
    | _ => False
  | _ => False

instance (s : TimedState Tid P n) (e : Event Tid P n × ℕ) (s' : TimedState Tid P n) :
    Decidable (RegistersLate s e s') := by
  unfold RegistersLate
  split
  · split <;> infer_instance
  · infer_instance

/-- `ppoll` times out at once, as a measurement has left `UDIPE_DURATION_MIN` of a longer timeout. -/
def TimesOutEarly (s : TimedState Tid P n) (e : Event Tid P n × ℕ) : Prop :=
  match e.1 with
  | .client t o =>
    match s.state.pc t with
    | .timerPoll w _ =>
        o.poll = .timedOut ∧ e.2 = 0 ∧ w.timeout = durationMin ∧ (s.clock t).initial ≠ durationMin
    | _ => False
  | _ => False

instance (s : TimedState Tid P n) (e : Event Tid P n × ℕ) : Decidable (TimesOutEarly s e) := by
  unfold TimesOutEarly
  split
  · split <;> infer_instance
  · infer_instance

/-! ## What a thread's clock shows at each point -/

/-- The time of a wait that is going on. -/
structure WaitCall.Runs (w : WaitCall) (c : Clock) : Prop where
  pos : 1 ≤ w.timeout
  balance : w.timeout + c.spent = c.initial + c.lap

/-- What the clock shows at each point of a wait. -/
def Pc.Timely (c : Clock) : Pc P n → Prop
  | waitLoad w => w.Runs c ∧ c.lap = 0 ∧ c.spent = 0
  | eagerRegister w _ | timerInc w _ => w.Runs c ∧ c.lap = 0
  | timerPoll w latest => w.Runs c ∧ c.lap = 0 ∧ latest.state ≠ .result
  | addressEnter w _ | addressWait w _ | addressBlocked w _ =>
      w.Runs c ∧ (c.lap = 0 ∨ w.timeout = durationMin)
  | addressReload w _ _ | addressMeasure w _ | joinRegister w _ _ | joinBatch w _ _ _ => w.Runs c
  | joinMeasure w _ inpollTimedOut => w.Runs c ∧ (inpollTimedOut = true → c.Expired)
  | joinPoll w _ pollTimeout =>
      w.Runs c ∧ 1 ≤ pollTimeout ∧
        (pollTimeout + c.lap = w.timeout ∨ pollTimeout = durationMin ∧ w.timeout = durationMin)
  | joinRelease _ _ outcome => outcome ≠ .unknown ∨ c.Expired
  | joinWakeAll _ latest | joinSignal _ latest => latest.state = .result
  | joinWakeOne _ _ => c.Expired
  | countDec _ latest | waitReturn _ latest => latest.state = .result ∨ c.Expired
  | _ => True

/-- A timeout that has been measured is exhausted. -/
theorem WaitCall.Runs.exhausted {w : WaitCall} {c : Clock} (h : w.Runs c)
    (hw : w.timeout ≤ c.lap) : c.Exhausted := by
  have hbalance := h.balance
  unfold Clock.Exhausted
  omega

theorem WaitCall.Runs.expired {w : WaitCall} {c : Clock} (h : w.Runs c)
    (hw : w.timeout ≤ c.lap) : c.Expired :=
  .inl (h.exhausted hw)

/-- A measurement takes the lap off the timeout. -/
theorem WaitCall.Runs.spend {w : WaitCall} {c : Clock} (h : w.Runs c) (hlap : c.lap < w.timeout) :
    (w.spend c.lap).Runs { c with lap := 0 } := by
  have hbalance := h.balance
  refine ⟨?_, ?_⟩ <;> simp only [WaitCall.spend] <;> omega

/-- Time passes in a blocking call. -/
theorem WaitCall.Runs.pass {w : WaitCall} {c : Clock} (h : w.Runs c) (d : ℕ) :
    w.Runs { c with spent := c.spent + d, lap := c.lap + d } := by
  have hbalance := h.balance
  exact ⟨h.pos, by simp only; omega⟩

theorem Clock.Expired.pass {c : Clock} (h : c.Expired) {o : Oracle Tid n} {d : ℕ}
    {pc : Pc P n} : (c.pass o d pc).Expired := by
  cases pc <;> simp only [Clock.pass, Clock.Expired, Clock.Exhausted] at h ⊢ <;> omega

theorem Clock.next_countedReturn {c : Clock} {o : Oracle Tid n} {d : ℕ} {pc : Pc P n} {w : WaitCall}
    {l : FutureStatus} : c.next o d pc (countedReturn w l) = c.pass o d pc := by
  cases hp : w.policy <;> simp [countedReturn, hp, Clock.next]

theorem Clock.next_afterRelease {c : Clock} {o : Oracle Tid n} {d : ℕ} {pc : Pc P n} {w : WaitCall}
    {l : FutureStatus} {outcome : FutureOutcome} :
    c.next o d pc (afterRelease w l outcome) = c.pass o d pc := by
  unfold afterRelease
  split_ifs <;> rfl

theorem Pc.timely_countedReturn {c : Clock} {w : WaitCall} {l : FutureStatus}
    (h : l.state = .result ∨ c.Expired) : (countedReturn w l : Pc P n).Timely c := by
  cases hp : w.policy <;> simpa [countedReturn, hp, Pc.Timely] using h

theorem Pc.timely_afterRelease {c : Clock} {w : WaitCall} {l : FutureStatus}
    {outcome : FutureOutcome} (hknown : outcome ≠ .unknown → l.state = .result)
    (hunknown : outcome = .unknown → c.Expired) : (afterRelease w l outcome : Pc P n).Timely c := by
  by_cases hk : outcome = .unknown
  · have hc := hunknown hk
    unfold afterRelease
    split_ifs with _ hne
    · exact .inr hc
    · exact absurd hk hne
    · exact absurd hk hne
    · exact hc
    · exact .inr hc
  · have hl := hknown hk
    unfold afterRelease
    split_ifs
    · exact .inl hl
    · exact hl
    · exact hl

/-- The end of an interrupted `epoll_pwait2` in `inpoll_wait`. -/
theorem joinPollStep_interrupted {o : Oracle Tid n} {sh sh' : Shared Tid P n} {w : WaitCall}
    {l : FutureStatus} {pollTimeout : ℕ} {pc' : Pc P n} (ho : o.poll = .interrupted)
    (h : joinPollStep b o sh w l pollTimeout = .ok (sh', pc')) :
    pollTimeout ≤ o.elapsed ∧ pc' = .joinMeasure w l true ∨
      o.elapsed < pollTimeout ∧ pc' = .joinPoll w l (pollTimeout - o.elapsed) := by
  simp only [joinPollStep, bind_eq_ok, ho] at h
  obtain ⟨-, -, h⟩ := h
  split at h
  · simp only [bind_eq_ok, pure_eq_ok, Prod.mk.injEq] at h
    obtain ⟨-, -, -, rfl⟩ := h
    exact .inl ⟨‹_›, rfl⟩
  · simp only [pure_eq_ok, Prod.mk.injEq] at h
    obtain ⟨-, rfl⟩ := h
    exact .inr ⟨by omega, rfl⟩

/-- The measurement after `inpoll_wait`. -/
theorem joinMeasureStep_eq_ok {o : Oracle Tid n} {sh sh' : Shared Tid P n} {w : WaitCall}
    {l : FutureStatus} {inpollTimedOut : Bool} {pc' : Pc P n}
    (h : joinMeasureStep o sh w l inpollTimedOut = .ok (sh', pc')) :
    (∃ w', pc' = .joinRelease w' l .unknown ∧ (inpollTimedOut = true ∨ w.timeout ≤ o.elapsed)) ∨
      o.elapsed < w.timeout ∧
        pc' = .joinPoll (w.spend o.elapsed) l (w.spend o.elapsed).timeout := by
  simp only [joinMeasureStep] at h
  split at h
  · rename_i hdone
    simp only [pure_eq_ok, Prod.mk.injEq] at h
    obtain ⟨-, rfl⟩ := h
    exact .inl ⟨_, rfl, by simpa using hdone⟩
  · rename_i hgo
    simp only [Bool.or_eq_true, decide_eq_true_eq, not_or, not_le] at hgo
    simp only [pure_eq_ok, Prod.mk.injEq, decide_eq_true_eq, not_le.mpr hgo.2, if_false] at h
    exact .inr ⟨hgo.2, h.2.symm⟩

section

variable [DecidableEq Tid] {t : Tid} {o : Oracle Tid n} {sh sh' : Shared Tid P n}
  {pc pc' : Pc P n} {ty : FutureType} {c : Clock} {d : ℕ}

/-- A thread that does not block starts with everything measured, if it did not register late. -/
theorem timely_register {w : WaitCall}
    (hreg : ¬ (0 < c.lap ∧ w.timeout ≠ durationMin)) :
    c.lap = 0 ∨ w.timeout = durationMin := by
  by_contra hboth
  rw [not_or] at hboth
  exact hreg ⟨Nat.pos_of_ne_zero hboth.1, hboth.2⟩

omit [DecidableEq Tid] in
/-- The clock after a move that leaves the shared state alone. -/
theorem LocalMove.timely (h : LocalMove b t o sh pc pc')
    (heq : ∀ w l p, pc = .joinPoll w l p → ∃ sh', joinPollStep b o sh w l p = .ok (sh', pc'))
    (hmeasure : ∀ w l r, pc = .joinMeasure w l r →
      ∃ sh', joinMeasureStep o sh w l r = .ok (sh', pc'))
    (hfits : pc.Fits ty) (hsnap : ∀ l, pc.snapshot? = some l → l.Typed ty)
    (hallows : c.allows o d pc = true) (hc : pc.Timely c)
    (hreg : ∀ w l woken, pc = .joinRegister w l woken → pc'.blocksFor? ≠ none →
      ¬ (0 < c.lap ∧ w.timeout ≠ durationMin))
    (hearly : ∀ w l, pc = .timerPoll w l → ¬ (o.poll = .timedOut ∧ d = 0 ∧
      w.timeout = durationMin ∧ c.initial ≠ durationMin)) :
    pc'.Timely (c.next o d pc pc') := by
  cases h
  case waitReady hs => exact .inl hs
  case waitNow hw =>
    obtain ⟨⟨-, hbalance⟩, hlap, hspent⟩ := hc
    refine .inr (.inr ?_)
    simp only [Clock.next, Clock.pass]
    omega
  case waitEager | waitTimerInc => exact ⟨hc.1, hc.2.1⟩
  case waitTimerPoll hs _ _ => exact ⟨hc.1, hc.2.1, hs⟩
  case waitJoin => exact hc.1
  case eagerKnown => exact ⟨hc.1, .inl hc.2⟩
  case eagerReady hs => exact .inl hs
  case addressEqual | addressChanged => exact hc.1
  case addressWoken => exact hc.1.pass d
  case reloadReady hs =>
    rw [Clock.next_countedReturn]
    exact Pc.timely_countedReturn (.inl hs)
  case measureAgain w l he =>
    obtain ⟨-, hlap⟩ : d = 0 ∧ o.elapsed = c.lap := by simpa [Clock.allows] using hallows
    rw [hlap] at he ⊢
    exact ⟨hc.spend he, .inl rfl⟩
  case measureDone w l he =>
    obtain ⟨-, hlap⟩ : d = 0 ∧ o.elapsed = c.lap := by simpa [Clock.allows] using hallows
    rw [Clock.next_countedReturn]
    exact Pc.timely_countedReturn (.inr (Clock.Expired.pass (hc.expired (by omega))))
  case measureUnlocked he htype hlock =>
    obtain ⟨-, rfl | ⟨-, hlocked⟩⟩ := hfits
    · exact absurd ((hsnap _ rfl).type.symm.trans htype) (by simp)
    · exact absurd (hlock.symm.trans hlocked) (by simp)
  case joinKnown => exact ⟨hc, timely_register (hreg _ _ _ rfl (by simp [Pc.blocksFor?]))⟩
  case joinReady hs => exact .inl hs
  case pollReady => exact hc.1.pass d
  case pollInterrupted w l p ho =>
    have hd : o.elapsed = d := by simpa [Clock.allows, ho] using hallows
    obtain ⟨sh', hstep⟩ := heq w l p rfl
    obtain ⟨-, hpc⟩ | ⟨hlt, -⟩ := joinPollStep_interrupted ho hstep
    · simp at hpc
    · obtain ⟨hruns, -, hp⟩ := hc
      refine ⟨hruns.pass d, by omega, ?_⟩
      rw [hd] at hlt ⊢
      obtain hp | ⟨hp, hw⟩ := hp
      · left
        simp only [Clock.next, Clock.pass]
        omega
      · right
        simp only [durationMin] at hp hw ⊢
        omega
  case pollTimedOut w l p ho =>
    have hd : o.elapsed = d := by simpa [Clock.allows, ho] using hallows
    obtain ⟨sh', hstep⟩ := heq w l p rfl
    obtain ⟨hle, -⟩ | ⟨-, hpc⟩ := joinPollStep_interrupted ho hstep
    · obtain ⟨hruns, -, hp⟩ := hc
      rw [hd] at hle
      have hleft : w.timeout ≤ c.lap + d := by
        obtain hp | ⟨hp, hw⟩ := hp <;> omega
      exact ⟨hruns.pass d, fun _ => (hruns.pass d).expired hleft⟩
    · simp at hpc
  case batchKnown hk => exact .inl hk
  case batchComplete | batchLatch => exact .inl (by simp)
  case batchAgain => exact ⟨hc, by simp⟩
  case measureRelease w w' l timedOut hw =>
    obtain ⟨-, hlap⟩ : d = 0 ∧ o.elapsed = c.lap := by simpa [Clock.allows] using hallows
    obtain ⟨sh', hstep⟩ := hmeasure w l timedOut rfl
    obtain ⟨_, -, hdone⟩ | ⟨-, hpc⟩ := joinMeasureStep_eq_ok hstep
    · obtain hdone | hdone := hdone
      · exact .inr (Clock.Expired.pass (hc.2 hdone))
      · exact .inr (Clock.Expired.pass (hc.1.expired (by omega)))
    · simp at hpc
  case measurePoll w w' l hw =>
    obtain ⟨-, hlap⟩ : d = 0 ∧ o.elapsed = c.lap := by simpa [Clock.allows] using hallows
    obtain ⟨sh', hstep⟩ := hmeasure w l false rfl
    obtain ⟨_, hpc, -⟩ | ⟨hlt, hpc⟩ := joinMeasureStep_eq_ok hstep
    · simp at hpc
    · obtain ⟨rfl, -⟩ := Pc.joinPoll.inj hpc
      rw [hlap] at hlt ⊢
      exact ⟨hc.1.spend hlt, (hc.1.spend hlt).pos, .inl rfl⟩
  case timerTimedOut w l ho =>
    obtain ⟨-, hd⟩ : True ∧ (w.timeout ≤ d ∨ w.timeout = durationMin) := by
      simpa [Clock.allows, ho] using hallows
    obtain ⟨⟨-, hbalance⟩, hlap, -⟩ := hc
    -- a minimal timeout that was not the initial one is left only if time passes
    have htime : d = 0 → w.timeout = durationMin → c.initial = durationMin := fun hd0 hw => by
      by_contra hne
      exact hearly w l rfl ⟨ho, hd0, hw, hne⟩
    refine .inr ?_
    simp only [Clock.next, Clock.pass, Clock.Expired, Clock.Exhausted, durationMin] at hd htime ⊢
    omega
  case timerInterrupted w l ho he =>
    have hlap : o.elapsed = c.lap + d := by simpa [Clock.allows, ho] using hallows
    have hbalance := hc.1.balance
    refine .inr (.inl ?_)
    simp only [Clock.next, Clock.pass, Clock.Exhausted]
    omega
  case timerAgain w l ho he =>
    have hlap : o.elapsed = c.lap + d := by simpa [Clock.allows, ho] using hallows
    have hbalance := hc.1.balance
    refine ⟨⟨?_, ?_⟩, ?_, hc.2.2⟩ <;>
      simp only [Clock.next, Clock.pass, WaitCall.spend, ho, if_true]
    · omega
    · omega
  case publishKnown hl =>
    left
    rw [← hl]
    rfl
  all_goals first | exact hc | trivial

/-- What the clock shows after a step that neither registers late nor times out early. -/
theorem ClientStep.timely (h : ClientStep b t o sh pc sh' pc')
    (heq : clientStep b t o sh pc = .ok (sh', pc')) (hfits : pc.Fits ty)
    (himpl : ty.implemented = true) (hsnap : ∀ l, pc.snapshot? = some l → l.Typed ty)
    (hresult : ∀ l, pc.snapshot? = some l → l.state = .result → sh.word.state = .result)
    (hallows : c.allows o d pc = true) (hc : pc.Timely c)
    (hreg : ∀ w l woken, pc = .joinRegister w l woken → pc'.blocksFor? ≠ none →
      ¬ (0 < c.lap ∧ w.timeout ≠ durationMin))
    (hearly : ∀ w l, pc = .timerPoll w l → ¬ (o.poll = .timedOut ∧ d = 0 ∧
      w.timeout = durationMin ∧ c.initial ≠ durationMin)) :
    pc'.Timely (c.next o d pc pc') := by
  cases h
  case move hmove =>
    refine hmove.timely (fun w l p hpc => ⟨sh, ?_⟩) (fun w l r hpc => ⟨sh, ?_⟩) hfits hsnap hallows
      hc hreg hearly
    · rw [hpc] at heq
      exact heq
    · rw [hpc] at heq
      exact heq
  case eagerRegister => exact ⟨hc.1, .inl hc.2⟩
  case joinRegister =>
    exact ⟨hc, timely_register (hreg _ _ _ rfl (by simp [Pc.blocksFor?]))⟩
  case joinLock w woken _ _ _ =>
    refine ⟨hc, hc.pos, ?_⟩
    obtain hlap | hw := timely_register (hreg _ _ _ rfl (by simp [Pc.blocksFor?]))
    · exact .inl (by simp only [Clock.next, Clock.pass]; omega)
    · exact .inr ⟨hw, hw⟩
  case sleep => exact hc
  case wakeSpurious | wakeTimeout => exact hc.1.pass d
  case countDec =>
    exact hc.imp_left fun hl => hresult _ rfl hl
  case integrate => exact hc
  case release w outcome _ _ =>
    rw [Clock.next_afterRelease]
    exact Pc.timely_afterRelease (fun hk => by simp [FutureStatus.released, hk])
      fun hu => (hc.resolve_left (not_not_intro hu)).pass
  case wakeAll => exact hc
  case signal => exact .inl hc
  case wakeOne => exact .inr hc
  case timerInc hs => exact ⟨hc.1, hc.2, hs⟩
  case timerRevert hs => exact .inl hs
  case publish => exact .inl rfl
  case cancel hk hpc =>
    obtain rfl : _ = ty := hfits
    obtain ⟨-, rfl⟩ | ⟨-, -, rfl⟩ | ⟨-, -, rfl⟩ := afterCancel_eq_ok himpl hpc <;> trivial
  case cancelLatch => split <;> trivial
  case finish =>
    split
    · trivial
    · exact ⟨⟨by simp [durationMax], rfl⟩, rfl, rfl⟩
  all_goals trivial

end

/-! ## Runs -/

variable [DecidableEq Tid] [Fintype Tid]

/-- The step of a client, as the code makes it. -/
theorem clientStep_of_step {s s' : State Tid P n} {t : Tid} {o : Oracle Tid n}
    (h : step b s (.client t o) = some s') (halive : s'.shared.aborted = none) :
    ∃ sh pc, s.pc t ≠ .idle ∧ clientStep b t o s.shared (s.pc t) = .ok (sh, pc) ∧
      s' = { s with shared := sh, pc := update s.pc t pc } := by
  simp only [step] at h
  split at h
  · simp at h
  · split at h
    · rename_i hguard
      have hidle : s.pc t ≠ .idle := fun hidle => by simp [hidle, Pc.isIdle] at hguard
      split at h
      · rename_i sh pc hstep
        exact ⟨sh, pc, hidle, hstep, (Option.some.inj h).symm⟩
      · obtain rfl := Option.some.inj h
        simp at halive
    · simp at h

/-- What a timed step is. -/
theorem timed_step {s s' : TimedState Tid P n} {e : Event Tid P n × ℕ}
    (h : (timed b).step s e = some s') :
    step b s.state e.1 = some s'.state ∧ s.allows e.1 e.2 = true ∧
      s'.clock = if s'.state.shared.aborted.isSome then s.clock else s.tick e.1 e.2 s'.state := by
  simp only [timed] at h
  split at h
  · rename_i hallowed
    obtain ⟨s₁, hstep, rfl⟩ := Option.map_eq_some_iff.mp h
    exact ⟨hstep, hallowed, rfl⟩
  · simp at h

omit [DecidableEq Tid] [Fintype Tid] in
/-- A wait starts on time. -/
theorem Pc.timely_start {c : Clock} {o : Oracle Tid n} {d : ℕ} {pc : Pc P n} {call : Call} :
    (call.start : Pc P n).Timely (c.next o d pc call.start) := by
  cases call with
  | wait timeout =>
      refine ⟨⟨?_, rfl⟩, rfl, rfl⟩
      by_cases hdefault : timeout = durationDefault
      · simp [hdefault, durationMax]
      · simp only [hdefault, if_false]
        exact Nat.one_le_iff_ne_zero.mpr hdefault
  | upstreamPoll => exact ⟨⟨le_refl _, rfl⟩, rfl, rfl⟩
  | cancel | finish => trivial

/-- What holds of every thread as long as nobody registered late or timed out early. -/
structure Timed (ty : FutureType) (s : TimedState Tid P n) : Prop where
  base : Base ty s.state
  lifetime : Lifetime ty s.state
  timely : ∀ t, (s.state.pc t).Timely (s.clock t)

variable {ty : FutureType} {s s' : TimedState Tid P n} {e : Event Tid P n × ℕ}

/-- A step that ends the process moves its thread nowhere. -/
theorem pc_of_aborted {s s' : State Tid P n} {ev : Event Tid P n} (hbase : Base ty s)
    (himpl : ty.implemented = true) (hstep : Udipe.step b s ev = some s')
    (hdead : s'.shared.aborted ≠ none) (t : Tid) : s'.pc t = s.pc t ∨ s'.pc t = .idle := by
  have hrun := aborted_eq_none_of_step hstep
  cases step_cases hstep with
  | @client u o pc sh' pc' hpc hidle _ _ hclient =>
      subst hpc
      obtain hsame | ⟨rfl, -⟩ := hclient.aborted himpl (hbase.fits u)
      · exact absurd (hsame.trans hrun) hdead
      · rcases eq_or_ne t u with rfl | htu
        · exact .inr (by simp)
        · exact .inl (by simp [update_of_ne htu])
  | call => exact absurd hrun hdead
  | _ => exact .inl rfl

/-- The step lemma. -/
theorem Timed.step (h : Timed ty s) (himpl : ty.implemented = true)
    (hstep : (timed b).step s e = some s') (hreg : ¬ RegistersLate s e s')
    (hearly : ¬ TimesOutEarly s e) : Timed ty s' := by
  obtain ⟨state', clock'⟩ := s'
  obtain ⟨ev, d⟩ := e
  obtain ⟨hmachine, hallows, hclock⟩ := timed_step hstep
  have htimely := h.timely
  refine ⟨h.base.step himpl hmachine, h.lifetime.step h.base himpl hmachine, ?_⟩
  simp only at hmachine hallows hclock ⊢
  rw [hclock]
  by_cases halive : state'.shared.aborted = none
  swap
  · rw [if_pos (by simpa [Option.isSome_iff_ne_none] using halive)]
    intro t
    obtain hpc | hpc := pc_of_aborted h.base himpl hmachine halive t
    · exact hpc ▸ htimely t
    · exact hpc ▸ trivial
  rw [if_neg (by simp [halive])]
  cases ev with
  | client t o =>
      obtain ⟨sh, pc', hidle, heq, rfl⟩ := clientStep_of_step hmachine halive
      have hclient := clientStep_cases (t := t) (o := o) hidle heq
      have hlib := h.base.liberated_eq_false hidle
      have hnext := hclient.timely heq (h.base.fits t) himpl (h.base.snapshot t)
        (h.lifetime.result hlib t) hallows (htimely t)
        (fun w l woken hpc hblocks hlate =>
          hreg (by simpa [RegistersLate, hpc] using ⟨hlate.1, hlate.2, hblocks⟩))
        (fun w l hpc hout => hearly (by simpa [TimesOutEarly, hpc] using hout))
      intro u
      rcases eq_or_ne u t with rfl | hut
      · simpa [TimedState.tick] using hnext
      · simpa [TimedState.tick, update_of_ne hut] using htimely u
  | call t c =>
      cases step_cases hmachine with
      | call hidle hc =>
          intro u
          rcases eq_or_ne u t with rfl | hut
          · simpa [TimedState.tick] using Pc.timely_start
          · simpa [TimedState.tick, update_of_ne hut] using htimely u
  | _ =>
      have hpc : state'.pc = s.state.pc := by
        cases step_cases hmachine <;> rfl
      simpa only [TimedState.tick, hpc] using htimely

omit [DecidableEq Tid] [Fintype Tid] in
/-- Blocking calls made on time stay within the budget. -/
theorem Pc.Timely.budget {pc : Pc P n} {c : Clock} (h : pc.Timely c) {timeout : ℕ}
    (hb : pc.blocksFor? = some timeout) : timeout ≠ durationDefault ∧
      (timeout + c.spent ≤ c.initial ∨ timeout = durationMin ∧ c.Exhausted) := by
  cases pc <;> simp only [Pc.blocksFor?, Option.some.injEq, reduceCtorEq] at hb <;> subst hb
  case joinPoll w l p =>
    obtain ⟨hruns, hpos, hp⟩ := h
    have hbalance := hruns.balance
    refine ⟨by simp only [durationDefault]; omega, ?_⟩
    obtain hp | ⟨hp, hw⟩ := hp
    · left
      omega
    · obtain hlap | hlap := Nat.eq_zero_or_pos c.lap
      · left
        omega
      · exact .inr ⟨hp, hruns.exhausted (by simp only [durationMin] at hw; omega)⟩
  case timerPoll =>
    have hbalance := h.1.balance
    have hpos := h.1.pos
    refine ⟨by simp only [durationDefault]; omega, .inl ?_⟩
    rw [h.2.1] at hbalance
    omega
  all_goals
    obtain ⟨hruns, hlap⟩ := h
    have hbalance := hruns.balance
    have hpos := hruns.pos
    refine ⟨by simp only [durationDefault]; omega, ?_⟩
    obtain hlap | hlap' := Nat.eq_zero_or_pos c.lap
    · left
      omega
    · have hw := hlap.resolve_left hlap'.ne'
      exact .inr ⟨hw, hruns.exhausted (by simp only [durationMin] at hw; omega)⟩

/-- A late registration blocks for too long. -/
theorem RegistersLate.exceeds (h : RegistersLate s e s') (htimed : Timed ty s)
    (hstep : (timed b).step s e = some s') : ¬ WithinBudget s' := by
  obtain ⟨state', clock'⟩ := s'
  obtain ⟨ev, d⟩ := e
  obtain ⟨hmachine, -, hclock⟩ := timed_step hstep
  have hrun := aborted_eq_none_of_step hmachine
  cases ev
  case client t o =>
    obtain ⟨w, l, woken, hpc⟩ : ∃ w l woken, s.state.pc t = .joinRegister w l woken := by
      cases hpc : s.state.pc t
      case joinRegister w l woken => exact ⟨w, l, woken, rfl⟩
      all_goals simp [RegistersLate, hpc] at h
    obtain ⟨hlap, hw, hblocks⟩ : 0 < (s.clock t).lap ∧ w.timeout ≠ durationMin ∧
        (state'.pc t).blocksFor? ≠ none := by simpa [RegistersLate, hpc] using h
    have hruns : w.Runs (s.clock t) := by
      have htimely := htimed.timely t
      rwa [hpc] at htimely
    have halive : state'.shared.aborted = none := by
      cases step_cases hmachine with
      | client hpc' hidle _ _ hclient =>
          rw [← hpc', hpc] at hclient
          cases hclient <;> exact hrun
      | clientFails => simp [hpc, Pc.blocksFor?] at hblocks
    obtain ⟨sh, pc', hidle, heq, rfl⟩ := clientStep_of_step hmachine halive
    have hclient := clientStep_cases (t := t) (o := o) hidle heq
    -- the call that follows gets the timeout of the wait, and the clock has not moved
    have hnext : pc'.blocksFor? = some w.timeout ∧
        (s.clock t).next o d (s.state.pc t) pc' = s.clock t := by
      simp only [update_self] at hblocks
      rw [hpc] at hclient ⊢
      cases hclient
      case move hmove =>
        cases hmove
        case joinKnown => exact ⟨rfl, rfl⟩
        all_goals simp [Pc.blocksFor?] at hblocks
      case joinRegister | joinLock => exact ⟨rfl, rfl⟩
    intro hbudget
    have hclock' : clock' t = s.clock t := by
      rw [show clock' = _ from hclock, if_neg (by simpa using halive)]
      simpa [TimedState.tick] using hnext.2
    have hover := (hbudget t w.timeout (by simpa using hnext.1)).2
    rw [show (TimedState.mk _ clock').clock t = s.clock t from hclock'] at hover
    have hbalance := hruns.balance
    obtain hover | ⟨hmin, -⟩ := hover
    · omega
    · exact hw hmin
  all_goals exact h.elim

/-- A wait that `ppoll` ends early returns without a result, before its time. -/
theorem TimesOutEarly.returnsEarly (h : TimesOutEarly s e) (htimed : Timed ty s)
    (hstep : (timed b).step s e = some s') : ¬ ReturnsOnTime s' := by
  obtain ⟨state', clock'⟩ := s'
  obtain ⟨ev, d⟩ := e
  obtain ⟨hmachine, -, hclock⟩ := timed_step hstep
  have hrun := aborted_eq_none_of_step hmachine
  cases ev
  case client t o =>
    obtain ⟨w, l, hpc⟩ : ∃ w l, s.state.pc t = .timerPoll w l := by
      cases hpc : s.state.pc t
      case timerPoll w l => exact ⟨w, l, rfl⟩
      all_goals simp [TimesOutEarly, hpc] at h
    obtain ⟨hout, rfl, hmin, hlonger⟩ : o.poll = .timedOut ∧ d = 0 ∧ w.timeout = durationMin ∧
        (s.clock t).initial ≠ durationMin := by simpa [TimesOutEarly, hpc] using h
    obtain ⟨⟨-, hbalance⟩, hlap, hstate⟩ : w.Runs (s.clock t) ∧ (s.clock t).lap = 0 ∧
        l.state ≠ .result := by
      have htimely := htimed.timely t
      rwa [hpc] at htimely
    have halive : state'.shared.aborted = none := by
      cases step_cases hmachine with
      | client hpc' _ _ _ hclient =>
          rw [← hpc', hpc] at hclient
          cases hclient
          exact hrun
      | clientFails hfails => simp [clientStep, hpc, timerPollStep, hout, pure, Except.pure] at hfails
    obtain ⟨sh, pc', -, heq, rfl⟩ := clientStep_of_step hmachine halive
    obtain rfl : pc' = .waitReturn w l := by
      simp only [clientStep, hpc, timerPollStep, hout, pure_eq_ok, Prod.mk.injEq] at heq
      exact heq.2.symm
    have hclock' : clock' t = s.clock t := by
      rw [show clock' = _ from hclock, if_neg (by simpa using halive)]
      simp [TimedState.tick, hpc, Clock.next, Clock.pass, hout]
    intro hontime
    obtain hresult | hover | hinitial := hontime t w l (by simp)
    · exact hstate hresult
    · -- the last nanosecond has not passed
      rw [show (TimedState.mk _ clock').clock t = s.clock t from hclock', Clock.Exhausted] at hover
      simp only [durationMin] at hmin hlonger
      omega
    · rw [show (TimedState.mk _ clock').clock t = s.clock t from hclock'] at hinitial
      exact hlonger hinitial
  all_goals exact h.elim

/-- A future and its clocks before any call on it. -/
def TimedState.start (status : FutureStatus) (payload : P) (upstream : Fin n → FutureStatus) :
    TimedState Tid P n where
  state := State.start status payload upstream
  clock := fun _ => { initial := durationMin, spent := 0, lap := 0 }

variable {status : FutureStatus} {payload : P} {upstream : Fin n → FutureStatus}
  {es : List (Event Tid P n × ℕ)}

omit [DecidableEq Tid] in
theorem timed_start (hstart : status.startable = true) :
    Timed status.type (TimedState.start status payload upstream : TimedState Tid P n) where
  base := base_start hstart
  lifetime := lifetime_start hstart
  timely := fun _ => trivial

/-- The timeout budget, over every timed run of a future of an implemented type: every blocking call gets
a timeout within the budget and every wait that returns without a result has lasted for its initial
timeout, exactly when no waiter of a join registers again with time that it has not measured and no
`ppoll` times out at once because a measurement has left it `UDIPE_DURATION_MIN`. -/
theorem timeout_budget_iff (hstart : status.startable = true) :
    (timed b).Along (fun _ _ s' => WithinBudget s' ∧ ReturnsOnTime s')
        (TimedState.start status payload upstream) es ↔
      (timed b).Along (fun s e s' => ¬ RegistersLate s e s' ∧ ¬ TimesOutEarly s e)
        (TimedState.start status payload upstream) es := by
  have himpl := FutureStatus.startable_implemented hstart
  have h0 : Timed status.type (TimedState.start status payload upstream : TimedState Tid P n) :=
    timed_start hstart
  have hright : ∀ (s : TimedState Tid P n) e s', Timed status.type s →
      (timed b).step s e = some s' → WithinBudget s' ∧ ReturnsOnTime s' →
        ¬ RegistersLate s e s' ∧ ¬ TimesOutEarly s e :=
    fun s e s' hI hstep hC => ⟨fun hlate => hlate.exceeds hI hstep hC.1,
      fun hearly => hearly.returnsEarly hI hstep hC.2⟩
  constructor
  · refine Machine.along_of_invariant (M := timed b) (I := Timed status.type)
      (fun s e s' hI hC hstep => ?_) (fun s e s' hI hC hstep => hright s e s' hI hstep hC) h0
    exact hI.step himpl hstep (hright s e s' hI hstep hC).1 (hright s e s' hI hstep hC).2
  · have hkeep : ∀ (s : TimedState Tid P n) e s', Timed status.type s →
        ¬ RegistersLate s e s' ∧ ¬ TimesOutEarly s e → (timed b).step s e = some s' →
          Timed status.type s' :=
      fun s e s' hI hC hstep => hI.step himpl hstep hC.1 hC.2
    refine Machine.along_of_invariant (M := timed b) (I := Timed status.type) hkeep
      (fun s e s' hI hC hstep => ⟨fun t _ hb => ?_, fun t w l hpc => ?_⟩) h0
    · exact ((hkeep s e s' hI hC hstep).timely t).budget hb
    · have htimely := (hkeep s e s' hI hC hstep).timely t
      rwa [hpc] at htimely

/-- A wait for a timer is interrupted by a signal, then times out. -/
def interruptedWait : List (Event (Fin 1) Bool 0 × ℕ) :=
  let calm := Oracle.calm (Fin 1) 0
  [(.call 0 (.wait 10), 0), (.client 0 calm, 0), (.client 0 calm, 0),
    (.client 0 { calm with elapsed := 4 }, 4), (.client 0 { calm with poll := .timedOut }, 6)]

theorem timeout_budget_iff_interruptedWait :
    ((timed ⟨true⟩).run (TimedState.start .startTimerOnce false Fin.elim0)
        interruptedWait).map (fun s => (s.clock 0).spent) = some 10 ∧
      (timed ⟨true⟩).Along (fun _ _ s' => WithinBudget s' ∧ ReturnsOnTime s')
        (TimedState.start .startTimerOnce false Fin.elim0) interruptedWait :=
  ⟨by decide +kernel, (timeout_budget_iff (by decide)).mpr (by decide +kernel)⟩

/-- A signal that leaves 1 ns of a timeout of 10 ns ends the wait after 9 ns. -/
example :
    let calm := Oracle.calm (Fin 1) 0
    ((timed ⟨true⟩).run (TimedState.start .startTimerOnce false Fin.elim0 : TimedState _ Bool 0)
      [(.call 0 (.wait 10), 0), (.client 0 calm, 0), (.client 0 calm, 0),
        (.client 0 { calm with elapsed := 9 }, 9),
        (.client 0 { calm with poll := .timedOut }, 0)]).map
      (fun s => (s.state.pc 0 matches .waitReturn _ _, s.clock 0))
        = some (true, { initial := 10, spent := 9, lap := 0 }) := by decide +kernel

/-- A lock holder times out after 6 ns and wakes a waiter that has slept for as long. -/
def lateWaiter : List (Event (Fin 2) Bool 1 × ℕ) :=
  let calm := Oracle.calm (Fin 2) 1
  [(.call 0 (.wait 6), 0), (.client 0 calm, 0), (.client 0 calm, 0), (.call 1 (.wait 10), 0),
    (.client 1 calm, 0), (.client 1 calm, 0), (.client 1 calm, 0), (.client 1 calm, 0),
    (.client 0 { calm with elapsed := 6 }, 6), (.client 0 { calm with elapsed := 6 }, 0),
    (.client 0 calm, 0), (.client 0 calm, 0), (.client 0 { calm with wakee := some 1 }, 0),
    (.client 1 calm, 6), (.client 1 calm, 0), (.client 1 calm, 0)]

/-- The waiter had 10 ns, and polls for another 10 ns. -/
theorem lateWaiter_exceeds :
    ∃ s, (timed ⟨true⟩).run (TimedState.start .startJoin false fun _ => .counted) lateWaiter =
        some s ∧
      (s.state.pc 1).blocksFor? = some 10 ∧
      s.clock 1 = { initial := 10, spent := 6, lap := 6 } ∧ ¬ WithinBudget s := by
  have hend : ((timed ⟨true⟩).run (TimedState.start .startJoin false fun _ => .counted)
      lateWaiter).map (fun s => ((s.state.pc 1).blocksFor?, s.clock 1)) =
        some (some 10, { initial := 10, spent := 6, lap := 6 }) := by decide +kernel
  obtain ⟨s, hrun, hs⟩ := Option.map_eq_some_iff.mp hend
  obtain ⟨hblocks, hclock⟩ := Prod.mk.inj hs
  refine ⟨s, hrun, hblocks, hclock, fun hbudget => ?_⟩
  obtain ⟨-, hover⟩ := hbudget 1 10 hblocks
  rw [hclock] at hover
  simp [durationMin] at hover

end Udipe

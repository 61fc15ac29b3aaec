import Udipe.Future.Conservation
import Udipe.Future.Lifetime
import Udipe.Future.Sleep

/-!
# The lazy lock of a join

Reference: `future/wait.c` (`future_wait_join`), `future/status.h` (`notify_event_or_lazy_lock`).

The lock bit of the status word counts the threads between the compare-exchange that sets it and the
one that clears it, so at most one thread polls the inpoll. When the lock is free or the join is
resolved, a sleeping thread is always somebody's duty: either a thread is about to make a wake call, or
a thread that was woken is about to examine the status word and take the lock.
-/

namespace Udipe

open Function Threads

variable {Tid P : Type} {n : ℕ} {b : Build}

namespace Pc

/-- The thread is in the section of `future_wait_join` that polls the inpoll and decrements
`remaining`. -/
def holdsLock : Pc P n → Bool
  | joinPoll _ _ _ | joinBatch _ _ _ _ | joinMeasure _ _ _ | joinRelease _ _ _ => true
  | _ => false

/-- The thread has completed or canceled the join and is about to wake all sleepers. -/
def wakesAll : Pc P n → Bool
  | joinWakeAll _ _ | cancelWake _ _ => true
  | cancelLatch _ status => status.notifyAddress
  | _ => false

/-- The thread has released the lock and is about to wake one sleeper. -/
def wakesOne : Pc P n → Bool
  | joinWakeOne _ _ => true
  | _ => false

/-- A wake call ended the thread's sleep (`awake`), and it has not yet made the compare-exchange with
which it examines the status word and registers again. -/
def woken (awake : Bool) : Pc P n → Bool
  | addressBlocked _ _ => awake
  | addressReload _ _ woken | joinRegister _ _ woken => woken
  | _ => false

/-- A lock holder of a downstream future never sleeps on this one: its timeout is minimal. -/
def PollsBriefly : Pc P n → Prop
  | addressBlocked w _ => w.caller ≠ .upstreamPoll
  | addressReload w _ woken | joinRegister w _ woken =>
      w.caller = .upstreamPoll → w.timeout = durationMin ∧ woken = false
  | waitLoad w | eagerRegister w _ | addressEnter w _ | addressWait w _ | addressMeasure w _ =>
      w.caller = .upstreamPoll → w.timeout = durationMin
  | _ => True

/-- A thread that is woken stays so while it is awake. -/
theorem woken_of_awake {pc : Pc P n} {awake : Bool} (h : pc.woken awake = true) :
    pc.woken (!false) = true := by
  cases pc <;> simp_all [woken]

theorem holdsLock_countedReturn {w : WaitCall} {s : FutureStatus} :
    (countedReturn w s : Pc P n).holdsLock = false := by
  cases hp : w.policy <;> simp [countedReturn, hp, holdsLock]

theorem holdsLock_afterRelease {w : WaitCall} {s : FutureStatus} {outcome : FutureOutcome} :
    (afterRelease w s outcome : Pc P n).holdsLock = false := by
  unfold afterRelease
  split_ifs <;> rfl

theorem pollsBriefly_countedReturn {w : WaitCall} {s : FutureStatus} :
    (countedReturn w s : Pc P n).PollsBriefly := by
  cases hp : w.policy <;> simp [countedReturn, hp, PollsBriefly]

theorem pollsBriefly_afterRelease {w : WaitCall} {s : FutureStatus} {outcome : FutureOutcome} :
    (afterRelease w s outcome : Pc P n).PollsBriefly := by
  unfold afterRelease
  split_ifs <;> trivial

end Pc

/-! ## One step of a client -/

section

variable [DecidableEq Tid] {t : Tid} {o : Oracle Tid n} {sh sh' : Shared Tid P n}
  {pc pc' : Pc P n}

omit [DecidableEq Tid] in
/-- A move that leaves the shared state alone neither takes nor releases the lock. -/
theorem LocalMove.holdsLock (h : LocalMove b t o sh pc pc') : pc'.holdsLock = pc.holdsLock := by
  cases h
  case reloadReady | measureDone => rw [Pc.holdsLock_countedReturn]; rfl
  all_goals rfl

/-- What a step does to the lock bit. -/
theorem ClientStep.lock (h : ClientStep b t o sh pc sh' pc') (hfits : pc.Fits .join)
    (howed : pc.owed ≤ sh.word.count) (hlib : sh'.liberated = false) :
    (sh'.word.notifyEventOrLazyLock = sh.word.notifyEventOrLazyLock ∧
        pc'.holdsLock = pc.holdsLock) ∨
      (sh.word.notifyEventOrLazyLock = false ∧ sh'.word.notifyEventOrLazyLock = true ∧
        pc.holdsLock = false ∧ pc'.holdsLock = true) ∨
      ∃ w outcome, pc = .joinRelease w sh.word outcome ∧
        sh'.word = sh.word.released w.policy outcome ∧
        pc' = afterRelease w (sh.word.released w.policy outcome) outcome := by
  have hsub : pc.owed = 1 →
      sh.word.fetchSub.notifyEventOrLazyLock = sh.word.notifyEventOrLazyLock := fun h1 => by
    rw [FutureStatus.fetchSub_eq (h1 ▸ howed)]
    rfl
  cases h
  case move hmove => exact .inl ⟨rfl, hmove.holdsLock⟩
  case joinLock hlock => exact .inr (.inl ⟨hlock, rfl, rfl, rfl⟩)
  case release w outcome _ _ => exact .inr (.inr ⟨w, outcome, rfl, rfl, rfl⟩)
  case countDec | countDecFails => exact .inl ⟨hsub rfl, rfl⟩
  case timerInc | timerIncReady | timerIncFails | timerRevert | timerRevertFails | publish
    | cancelTimer => simp [Pc.Fits] at hfits
  case cancel hk hpc =>
    obtain rfl : _ = FutureType.join := hfits
    obtain ⟨-, rfl⟩ | ⟨-, -, rfl⟩ | ⟨-, -, rfl⟩ := afterCancel_eq_ok rfl hpc <;>
      exact .inl ⟨rfl, rfl⟩
  case cancelLatch => exact .inl ⟨rfl, by split <;> rfl⟩
  case finish => exact .inl ⟨rfl, by split <;> rfl⟩
  case wakeOne => cases hw : o.wakee <;> exact .inl ⟨rfl, rfl⟩
  case liberate | liberateFails => simp at hlib
  all_goals exact .inl ⟨rfl, rfl⟩

/-- How a step resolves the join. -/
theorem ClientStep.resolves (h : ClientStep b t o sh pc sh' pc') (hfits : pc.Fits .join)
    (howed : pc.owed ≤ sh.word.count) (hlib : sh'.liberated = false)
    (hs : sh.word.state ≠ .result) (hs' : sh'.word.state = .result) :
    (∃ w outcome, outcome ≠ .unknown ∧ pc = .joinRelease w sh.word outcome ∧
        sh'.word = sh.word.released w.policy outcome ∧
        pc' = afterRelease w (sh.word.released w.policy outcome) outcome) ∨
      ∃ fin, sh'.word = sh.word.canceledAs .join ∧
        (sh'.word.downstreamCount = 0 ∨ pc' = .cancelLatch fin sh'.word) := by
  have hsub : pc.owed = 1 → sh.word.fetchSub.state = sh.word.state := fun h1 => by
    rw [FutureStatus.fetchSub_eq (h1 ▸ howed)]
    rfl
  cases h
  case release w outcome _ _ =>
    refine .inl ⟨w, outcome, fun hk => ?_, rfl, rfl, rfl⟩
    subst hk
    simp [FutureStatus.released, FutureStatus.dec, hs] at hs'
  case countDec | countDecFails => exact absurd ((hsub rfl).symm.trans hs') hs
  case timerInc | timerIncReady | timerIncFails | timerRevert | timerRevertFails | publish
    | cancelTimer => simp [Pc.Fits] at hfits
  case cancel hk hpc =>
    obtain rfl : _ = FutureType.join := hfits
    obtain ⟨hzero | hty, -⟩ | ⟨-, -, rfl⟩ | ⟨-, hty, -⟩ := afterCancel_eq_ok rfl hpc
    · exact .inr ⟨true, rfl, .inl hzero⟩
    · simp at hty
    · exact .inr ⟨_, rfl, .inr rfl⟩
    · simp at hty
  case cancelFails hpc =>
    obtain rfl : _ = FutureType.join := hfits
    exact absurd hpc (afterCancel_ne_error rfl)
  case wakeOne => cases hw : o.wakee <;> simp_all [wakeByAddressSingle]
  case liberate | liberateFails => simp at hlib
  all_goals exact absurd hs' hs

/-- A thread that is to wake everybody does. -/
theorem ClientStep.wakesAll (h : ClientStep b t o sh pc sh' pc') (hw : pc.wakesAll = true) :
    pc'.wakesAll = true ∨ ∀ u, sh'.asleep u = false := by
  cases h
  case wakeAll | cancelWake => exact .inr fun _ => rfl
  case cancelLatch fin status =>
    have hn : status.notifyAddress = true := hw
    rw [if_pos hn]
    exact .inl rfl
  case move hmove => cases hmove <;> simp [Pc.wakesAll] at hw
  all_goals simp [Pc.wakesAll] at hw

/-- A woken thread stays responsible as long as the lock is free and the join is unresolved, unless it
does not count itself. -/
theorem ClientStep.woken (h : ClientStep b t o sh pc sh' pc') (hfits : pc.Fits .join)
    (hpc : pc.woken (!sh.asleep t) = true) (hfree : sh'.word.notifyEventOrLazyLock = false)
    (hlock : sh.word.notifyEventOrLazyLock = false) (hs : sh.word.state ≠ .result)
    (hty : sh.word.type = .join) :
    pc'.woken (!sh'.asleep t) = true ∨ pc'.atAddress = true ∧ ∃ w, pc.waitCall? = some w ∧
      w.policy = .keep := by
  cases h
  case move hmove =>
    cases hmove
    case reloadReady hs' | joinReady hs' => exact absurd hs' hs
    case reloadAgain hlock' => simp [hty, FutureType.usesLazyLock, hlock] at hlock'
    case reloadUnlocked woken _ _ _ => exact .inl hpc
    case joinKnown w l woken _ hl =>
      refine .inr ⟨rfl, w, rfl, ?_⟩
      have hweight := weight_of_registered_eq hl
      cases hp : w.policy with
      | keep => rfl
      | cycle => simp [hp] at hweight
    case joinRetry => exact .inl hpc
    case addressWoken => exact .inl rfl
    all_goals simp [Pc.woken] at hpc
  case joinRegister hlock' => exact absurd (hlock'.symm.trans hlock) (by simp)
  case joinLock => simp [FutureStatus.locked] at hfree
  case wakeSpurious ha | wakeTimeout ha => simp [Pc.woken, ha] at hpc
  all_goals simp [Pc.woken] at hpc

/-- The steps that end in the locked section of `future_wait_join`: one that enters it, and those inside
it. -/
inductive LockedStep (b : Build) (o : Oracle Tid n) (sh : Shared Tid P n) :
    Pc P n → Shared Tid P n → Pc P n → Prop
  | lock {w woken} (hs : sh.word.state ≠ .result) (hlock : sh.word.notifyEventOrLazyLock = false) :
      LockedStep b o sh (.joinRegister w sh.word woken) { sh with word := sh.word.locked w.policy }
        (.joinPoll w (sh.word.locked w.policy) w.timeout)
  | pollReady {w latest pollTimeout ids} (ho : o.poll = .ready ids) :
      LockedStep b o sh (.joinPoll w latest pollTimeout) sh (.joinBatch w latest .unknown ids)
  | pollAgain {w latest pollTimeout pollTimeout'} :
      LockedStep b o sh (.joinPoll w latest pollTimeout) sh (.joinPoll w latest pollTimeout')
  | pollTimedOut {w latest pollTimeout} :
      LockedStep b o sh (.joinPoll w latest pollTimeout) sh (.joinMeasure w latest true)
  | failed {w latest} :
      LockedStep b o sh (.joinBatch w latest .failureDependency []) sh
        (.joinRelease w latest .failureDependency)
  | complete {w latest} (hr : sh.remaining = 0) :
      LockedStep b o sh (.joinBatch w latest .unknown []) sh (.joinRelease w latest .success)
  | again {w latest} :
      LockedStep b o sh (.joinBatch w latest .unknown []) sh (.joinMeasure w latest false)
  | latch {w latest outcome rest} (hs : sh.word.state = .result)
      (hk : sh.word.outcome = .failureCanceled) :
      LockedStep b o sh (.joinBatch w latest outcome (.latch :: rest)) sh
        (.joinRelease w sh.word .failureCanceled)
  | skip {w latest outcome i rest} (hs : (sh.upstream i).state ≠ .result) :
      LockedStep b o sh (.joinBatch w latest outcome (.upstream i :: rest)) sh
        (.joinBatch w latest outcome rest)
  | integrate {w latest outcome outcome' i rest} (hs : (sh.upstream i).state = .result)
      (hr : 1 ≤ sh.remaining)
      (hk : integrateUpstream b outcome (sh.upstream i).outcome = .ok outcome') :
      LockedStep b o sh (.joinBatch w latest outcome (.upstream i :: rest))
        { sh with
          remaining := sh.remaining - 1
          attached := update sh.attached i false }
        (.joinBatch w latest outcome' rest)
  | measureRelease {w w' latest inpollTimedOut} :
      LockedStep b o sh (.joinMeasure w latest inpollTimedOut) sh (.joinRelease w' latest .unknown)
  | measurePoll {w w' latest} :
      LockedStep b o sh (.joinMeasure w latest false) sh (.joinPoll w' latest w'.timeout)
  | retry {w latest outcome} :
      LockedStep b o sh (.joinRelease w latest outcome) sh (.joinRelease w sh.word outcome)

/-- Every step that ends in the locked section is one of these. -/
theorem ClientStep.lockedStep (h : ClientStep b t o sh pc sh' pc') (hfits : pc.Fits .join)
    (hpc : pc'.holdsLock = true) : LockedStep b o sh pc sh' pc' := by
  cases h
  case move hmove =>
    cases hmove
    case reloadReady | measureDone => simp [Pc.holdsLock_countedReturn] at hpc
    case batchKnown hk =>
      obtain ⟨-, rfl | rfl⟩ := hfits
      · exact absurd rfl hk
      · exact .failed
    case pollReady ho => exact .pollReady ho
    case pollInterrupted => exact .pollAgain
    case pollTimedOut => exact .pollTimedOut
    case batchComplete hr => exact .complete hr
    case batchAgain => exact .again
    case batchLatch hs hk => exact .latch hs hk
    case batchSkip hs => exact .skip hs
    case measureRelease => exact .measureRelease
    case measurePoll => exact .measurePoll
    case releaseRetry => exact .retry
    all_goals simp [Pc.holdsLock] at hpc
  case joinLock hlock => exact .lock hfits.2 hlock
  case integrate hs hr hk => exact .integrate hs hr hk
  case release => simp [Pc.holdsLock_afterRelease] at hpc
  case cancel hk hpc' =>
    obtain rfl : _ = FutureType.join := hfits
    obtain ⟨-, rfl⟩ | ⟨-, -, rfl⟩ | ⟨-, -, rfl⟩ := afterCancel_eq_ok rfl hpc' <;>
      simp [Pc.holdsLock] at hpc
  case cancelLatch => split at hpc <;> simp [Pc.holdsLock] at hpc
  case finish => split at hpc <;> simp [Pc.holdsLock] at hpc
  all_goals simp [Pc.holdsLock] at hpc

/-- The outcome of a cancelation is only taken over from the status word. -/
theorem ClientStep.latched (h : ClientStep b t o sh pc sh' pc') (hfits : pc.Fits .join)
    {w : WaitCall} {l : FutureStatus} (hpc : pc' = .joinRelease w l .failureCanceled) :
    (∃ w l, pc = .joinRelease w l .failureCanceled) ∨ sh'.word.state = .result := by
  have hlocked := h.lockedStep hfits (by rw [hpc]; rfl)
  cases hlocked
  case latch hs _ => exact .inr hs
  case retry =>
    obtain ⟨-, -, rfl⟩ := Pc.joinRelease.inj hpc
    exact .inl ⟨_, _, rfl⟩
  all_goals simp at hpc

/-- A lock holder of a downstream future keeps its minimal timeout. -/
theorem ClientStep.pollsBriefly (h : ClientStep b t o sh pc sh' pc') (hfits : pc.Fits .join)
    (hp : pc.PollsBriefly) : pc'.PollsBriefly := by
  cases h
  case move hmove =>
    cases hmove
    case waitJoin => exact fun hw => ⟨hp hw, rfl⟩
    case joinKnown => exact fun hw => (hp hw).1
    case addressChanged => exact fun hw => ⟨hp hw, rfl⟩
    case addressWoken => exact fun hw => absurd hw hp
    case reloadReady | measureDone => exact Pc.pollsBriefly_countedReturn
    case reloadAgain => exact fun hw => (hp hw).1
    case measureAgain w l he =>
      intro hw
      have hmin : w.timeout = durationMin := hp hw
      simp only [WaitCall.spend, hmin, durationMin] at he ⊢
      omega
    case measureUnlocked => exact fun _ => ⟨rfl, rfl⟩
    all_goals first | exact hp | trivial
  case eagerRegister => exact hp
  case joinRegister => exact fun hw => (hp hw).1
  case sleep hw => exact fun hcaller => hw (hp hcaller)
  case wakeSpurious | wakeTimeout => exact fun hw => absurd hw hp
  case release => exact Pc.pollsBriefly_afterRelease
  case cancel hk hpc =>
    obtain rfl : _ = FutureType.join := hfits
    obtain ⟨-, rfl⟩ | ⟨-, -, rfl⟩ | ⟨-, -, rfl⟩ := afterCancel_eq_ok rfl hpc <;> trivial
  case cancelLatch => split <;> trivial
  case finish =>
    split
    · trivial
    · exact fun hw => by simp at hw
  all_goals trivial

end

/-! ## The invariant -/

/-- The lock bit counts its holder, and sleepers are somebody's duty when nobody holds it. -/
structure LazyLock [Fintype Tid] (s : State Tid P n) : Prop where
  lock : s.shared.liberated = false →
    ∑ u, (s.pc u).holdsLock.toNat = s.shared.word.notifyEventOrLazyLock.toNat
  polls : ∀ u, (s.pc u).PollsBriefly
  latched : s.shared.liberated = false → ∀ u w l,
    s.pc u = .joinRelease w l .failureCanceled → s.shared.word.state = .result
  resolved : s.shared.liberated = false → s.shared.word.state = .result → ∀ u,
    s.shared.asleep u = true → ∃ v, (s.pc v).wakesAll = true
  free : s.shared.liberated = false → s.shared.word.notifyEventOrLazyLock = false →
    s.shared.word.state ≠ .result → ∀ u, s.shared.asleep u = true →
      ∃ v, (s.pc v).wakesOne = true ∨ (s.pc v).woken (!s.shared.asleep v) = true

namespace LazyLock

variable [DecidableEq Tid] [Fintype Tid] {s s' : State Tid P n} {t u : Tid} {o : Oracle Tid n}
  {e : Event Tid P n}

omit [DecidableEq Tid] in
/-- At most one thread holds the lock, and then the bit is set. -/
theorem holder_unique (h : LazyLock s) (hlib : s.shared.liberated = false)
    (ht : (s.pc t).holdsLock = true) :
    s.shared.word.notifyEventOrLazyLock = true ∧ ∀ u, (s.pc u).holdsLock = true → u = t := by
  classical
  have hsum := h.lock hlib
  have hle := le_sum (fun pc : Pc P n => pc.holdsLock.toNat) s.pc t
  simp only [ht, Bool.toNat_true, hsum] at hle
  refine ⟨by cases hb : s.shared.word.notifyEventOrLazyLock <;> simp [hb] at hle ⊢, fun u hu => ?_⟩
  by_contra hut
  have htwo := add_le_sum (fun pc : Pc P n => pc.holdsLock.toNat) s.pc hut
  have hone := Bool.toNat_le s.shared.word.notifyEventOrLazyLock
  simp only [ht, hu, Bool.toNat_true, hsum] at htwo
  omega

omit [DecidableEq Tid] in
/-- A sleeper counts itself, unless it is alone. -/
theorem sleeper_owes (h : LazyLock s) (hbase : Base .join s) (hsleep : Sleep s)
    (hu : s.shared.asleep u = true) (hut : u ≠ t) (hidle : s.pc t ≠ .idle) :
    (s.pc u).owed = 1 := by
  obtain ⟨w, l, hpc⟩ := hsleep.blocked u hu
  have hpoll := h.polls u
  rw [hpc] at hpoll ⊢
  cases hw : w.caller with
  | wait => simp [Pc.owed, WaitCall.policy, hw]
  | upstreamPoll => exact absurd hw hpoll
  | finish f =>
      have hfin := hbase.destroying u (by simp [hpc, Pc.destroying, Pc.waitCall?, hw])
      exact absurd ((hbase.alone u hfin).2 t hut.symm) hidle

omit [Fintype Tid] in
/-- A woken thread that does not count itself destroys the future. -/
theorem destroying_of_woken {pc : Pc P n} {awake : Bool} {w : WaitCall} (hpoll : pc.PollsBriefly)
    (hpc : pc.woken awake = true) (hw : pc.waitCall? = some w) (hkeep : w.policy = .keep) :
    pc.destroying = true := by
  have hcaller : w.caller ≠ .upstreamPoll := fun hc => by
    cases pc <;> simp [Pc.woken] at hpc
    all_goals
      obtain rfl : _ = w := by simpa [Pc.waitCall?] using hw
      simp_all [Pc.PollsBriefly]
  cases hc : w.caller with
  | wait => simp [WaitCall.policy, hc] at hkeep
  | upstreamPoll => exact absurd hc hcaller
  | finish f =>
      cases pc <;> simp [Pc.woken] at hpc
      all_goals simp_all [Pc.destroying]

/-- `wake_by_address_single` passes the duty on to the thread it wakes. -/
theorem handOver (hsleep : Sleep s)
    (hwake : o.wakeAllowed s.shared (s.pc t) = true) {sh' : Shared Tid P n} {pc' : Pc P n}
    (hstep : ClientStep b t o s.shared (s.pc t) sh' pc') (hpc : (s.pc t).wakesOne = true)
    (hu : s.shared.asleep u = true) :
    ∃ v, (update s.pc t pc' v).wakesOne = true ∨
      (update s.pc t pc' v).woken (!sh'.asleep v) = true := by
  obtain ⟨w, l, hpc⟩ : ∃ w l, s.pc t = .joinWakeOne w l := by
    cases hp : s.pc t <;> simp [hp, Pc.wakesOne] at hpc
    exact ⟨_, _, rfl⟩
  rw [hpc] at hstep hwake
  cases hstep
  case move hmove => cases hmove
  case wakeOne =>
    cases hw : o.wakee with
    | none =>
        have hnone : ∀ u, s.shared.asleep u = false := by
          simpa [Oracle.wakeAllowed, hw] using hwake
        simp [hnone] at hu
    | some v =>
        have hv : s.shared.asleep v = true := by simpa [Oracle.wakeAllowed, hw] using hwake
        obtain ⟨w', l', hblocked⟩ := hsleep.blocked v hv
        have hvt : v ≠ t := fun hvt => by simp [hvt, hpc] at hblocked
        refine ⟨v, .inr ?_⟩
        simp [update_of_ne hvt, hblocked, Pc.woken, wakeByAddressSingle]

/-- The step lemma for clients. -/
theorem client (h : LazyLock s) (hbase : Base .join s) (hsleep : Sleep s)
    (hrun : s.shared.aborted = none) (hidle : s.pc t ≠ .idle)
    (hwake : o.wakeAllowed s.shared (s.pc t) = true) {sh' : Shared Tid P n} {pc' : Pc P n}
    (hstep : ClientStep b t o s.shared (s.pc t) sh' pc') :
    LazyLock { s with shared := sh', pc := update s.pc t pc' } := by
  have hlib := hbase.liberated_eq_false hidle
  have hword := hbase.typed hlib
  have ho := hbase.overflow_eq_false hrun
  have howed := hbase.owed_le ho hidle
  have hfits := hbase.fits t
  have hstays : sh'.liberated = false → s.shared.word.state = .result →
      sh'.word.state = .result := fun hl hr =>
    (hstep.result hword ho howed hr).resolve_right (by simpa using hl)
  -- a sleeper counts itself, so the thread that moves is not the last one counted
  have hcount : ∀ u, u ≠ t → s.shared.asleep u = true →
      (s.pc t).owed + 1 ≤ s.shared.word.count := fun u hut hu => by
    have hone := h.sleeper_owes hbase hsleep hu hut hidle
    have hsum := add_le_sum Pc.owed s.pc hut.symm
    have hle := hbase.count ho hlib
    omega
  have hreleased : ∀ u w outcome, u ≠ t → s.shared.asleep u = true →
      s.pc t = .joinRelease w s.shared.word outcome →
      (s.shared.word.released w.policy outcome).downstreamCount ≠ 0 ∧
        (s.shared.word.released w.policy outcome).notifyAddress = true := by
    intro u w outcome hut hu hpc
    have hle := hcount u hut hu
    have hdec : (s.shared.word.dec w.policy).count + w.policy.weight = s.shared.word.count :=
      FutureStatus.count_dec (by simp only [hpc, Pc.owed] at hle; omega)
    refine ⟨fun hz => ?_, hsleep.announced hlib hu⟩
    have hzero := FutureStatus.count_eq_zero.mpr hz
    rw [FutureStatus.count_released] at hzero
    simp only [hpc, Pc.owed] at hle
    omega
  refine ⟨fun hl => ?_, ?_, fun hl => ?_, fun hl hs' u hu => ?_, fun hl hfree hs' u hu => ?_⟩
  · have hsum := sum_update (fun pc : Pc P n => pc.holdsLock.toNat) s.pc t pc'
    have hlock := h.lock hlib
    obtain ⟨hsame, hpc⟩ | ⟨hoff, hon, hpc, hpc'⟩ | ⟨w, outcome, hpc, hreleased, hpc'⟩ :=
      hstep.lock hfits howed hl
    · simp only [hpc, hsame] at hsum ⊢
      omega
    · simp only [hpc, hpc', hon, hoff, Bool.toNat_true, Bool.toNat_false] at hsum hlock ⊢
      omega
    · have hholds : (s.pc t).holdsLock = true := by rw [hpc]; rfl
      have hdone : pc'.holdsLock = false := by rw [hpc', Pc.holdsLock_afterRelease]
      have hbit := (h.holder_unique hlib hholds).1
      have hoff : sh'.word.notifyEventOrLazyLock = false := by rw [hreleased]; rfl
      simp only [hholds, hdone, hbit, hoff, Bool.toNat_true, Bool.toNat_false] at hsum hlock ⊢
      omega
  · exact forall_update (P := fun _ (pc : Pc P n) => pc.PollsBriefly)
      (hstep.pollsBriefly hfits (h.polls t)) fun u _ => h.polls u
  · refine forall_update (P := fun _ (pc : Pc P n) => ∀ w l,
      pc = .joinRelease w l .failureCanceled → sh'.word.state = .result) (fun w l hpc => ?_)
      fun u _ w l hpc => hstays hl (h.latched hlib u w l hpc)
    obtain ⟨w, l, hold⟩ | hr := hstep.latched hfits hpc
    · exact hstays hl (h.latched hlib t w l hold)
    · exact hr
  · -- a thread that falls asleep saw an unresolved word
    obtain ⟨hut, hold⟩ | ⟨rfl, w, hpc, -, hsame⟩ := hsleep.asleep_step hstep hu
    swap
    · rw [hpc] at hfits
      exact absurd (hsame ▸ hs') hfits.1
    by_cases hs : s.shared.word.state = .result
    · obtain ⟨v, hv⟩ := h.resolved hlib hs u hold
      rcases eq_or_ne v t with rfl | hvt
      · obtain hv' | hnone := hstep.wakesAll hv
        · exact ⟨v, by simpa using hv'⟩
        · exact absurd hu (by simp [hnone])
      · exact ⟨v, by simpa [update_of_ne hvt] using hv⟩
    · refine ⟨t, ?_⟩
      simp only [update_self]
      obtain ⟨w, outcome, hk, hpc, -, hpc'⟩ | ⟨fin, hcanceled, hzero | hpc'⟩ :=
        hstep.resolves hfits howed hl hs hs'
      · obtain ⟨hne, hn⟩ := hreleased u w outcome hut hold hpc
        have hlatched : outcome ≠ .failureCanceled := fun hc =>
          hs (h.latched hlib t w _ (hc ▸ hpc))
        rw [hpc', afterRelease, if_neg (not_or.mpr ⟨hne, hlatched⟩), if_pos hk, if_pos hn]
        rfl
      · have hpos := hcount u hut hold
        rw [← FutureStatus.count_canceledAs .join, ← hcanceled,
          FutureStatus.count_eq_zero.mpr hzero] at hpos
        omega
      · rw [hpc', Pc.wakesAll, hcanceled]
        exact hsleep.announced hlib hold
  · -- a thread that falls asleep saw the lock taken
    obtain ⟨hut, hold⟩ | ⟨rfl, w, hpc, -, hsame⟩ := hsleep.asleep_step hstep hu
    swap
    · rw [hpc] at hfits
      obtain ⟨-, hcustom | ⟨-, hlocked⟩⟩ := hfits
      · exact absurd hcustom (by simp)
      · exact absurd (hlocked.symm.trans (hsame ▸ hfree)) (by simp)
    have hs : s.shared.word.state ≠ .result := fun hr => hs' (hstays hl hr)
    cases hlock : s.shared.word.notifyEventOrLazyLock with
    | false =>
        obtain ⟨v, hv⟩ := h.free hlib hlock hs u hold
        rcases eq_or_ne v t with rfl | hvt
        · rcases hv with hv | hv
          · exact handOver hsleep hwake hstep hv hold
          · obtain hv' | ⟨-, w, hw, hkeep⟩ :=
              hstep.woken hfits hv hfree hlock hs hword.type
            · exact ⟨v, .inr (by simpa using hv')⟩
            · have hd := destroying_of_woken (h.polls v) hv hw hkeep
              have hidle' := (hbase.alone v (hbase.destroying v hd)).2 u hut
              obtain ⟨_, _, hblocked⟩ := hsleep.blocked u hold
              exact absurd (hidle'.symm.trans hblocked) (by simp)
        · refine ⟨v, ?_⟩
          simp only [update_of_ne hvt]
          refine hv.imp_right fun hv => ?_
          cases hva : sh'.asleep v with
          | false => exact Pc.woken_of_awake hv
          | true =>
              obtain ⟨-, hva'⟩ | ⟨rfl, -⟩ := hsleep.asleep_step hstep hva
              · rwa [hva'] at hv
              · exact absurd rfl hvt
    | true =>
        obtain ⟨hsame, -⟩ | ⟨hoff, -⟩ | ⟨w, outcome, hpc, hreleased', hpc'⟩ :=
          hstep.lock hfits howed hl
        · exact absurd (hlock.symm.trans (hsame.symm.trans hfree)) (by simp)
        · exact absurd (hlock.symm.trans hoff) (by simp)
        · obtain ⟨hne, hn⟩ := hreleased u w outcome hut hold hpc
          have hunknown : outcome = .unknown := by
            by_contra hk
            exact hs' (by rw [hreleased']; simp [FutureStatus.released, hk])
          subst hunknown
          refine ⟨t, .inl ?_⟩
          simp only [update_self]
          rw [hpc', afterRelease, if_neg (not_or.mpr ⟨hne, by simp⟩), if_neg (by simp), if_pos hn]
          rfl

omit [DecidableEq Tid] in
/-- The word changes outside the clients, who sleep as before. -/
theorem congr (h : LazyLock s)
    (hlock : s'.shared.word.notifyEventOrLazyLock = s.shared.word.notifyEventOrLazyLock)
    (hstate : s'.shared.word.state = s.shared.word.state)
    (hasleep : s'.shared.asleep = s.shared.asleep)
    (hlib : s'.shared.liberated = s.shared.liberated) (hpc : s'.pc = s.pc) : LazyLock s' := by
  refine ⟨?_, ?_, ?_, ?_, ?_⟩
  · simpa only [hlib, hpc, hlock] using h.lock
  · simpa only [hpc] using h.polls
  · simpa only [hlib, hpc, hstate] using h.latched
  · simpa only [hlib, hpc, hstate, hasleep] using h.resolved
  · simpa only [hlib, hpc, hstate, hasleep, hlock] using h.free

/-- A call starts. -/
theorem call (h : LazyLock s) {c : Call} (hidle : s.pc t = .idle) :
    LazyLock { s with
      shared := { s.shared with finisher := if c.destroys then some t else s.shared.finisher }
      pc := update s.pc t c.start } := by
  -- a thread between two calls has no duty, so the duties of the others stay
  have hothers : ∀ v, (s.pc v).wakesAll = true ∨ (s.pc v).wakesOne = true ∨
      (s.pc v).woken (!s.shared.asleep v) = true → v ≠ t := fun v hv hvt => by
    simp [hvt, hidle, Pc.wakesAll, Pc.wakesOne, Pc.woken] at hv
  refine ⟨fun hl => ?_, ?_, fun hl => ?_, fun hl hs u hu => ?_, fun hl hfree hs u hu => ?_⟩
  · have hsum := sum_update (fun pc : Pc P n => pc.holdsLock.toNat) s.pc t c.start
    have hstart : (c.start : Pc P n).holdsLock = false := by cases c <;> rfl
    have hfrom : (.idle : Pc P n).holdsLock = false := rfl
    simp only [hidle, hstart, hfrom, Bool.toNat_false, add_zero] at hsum
    exact hsum.trans (h.lock hl)
  · exact forall_update (P := fun _ (pc : Pc P n) => pc.PollsBriefly)
      (by cases c <;> simp [Call.start, Pc.PollsBriefly]) fun u _ => h.polls u
  · exact forall_update (P := fun _ (pc : Pc P n) => ∀ w l,
      pc = .joinRelease w l .failureCanceled → s.shared.word.state = .result)
      (fun w l hpc => by cases c <;> simp [Call.start] at hpc) fun u _ => h.latched hl u
  · obtain ⟨v, hv⟩ := h.resolved hl hs u hu
    exact ⟨v, by simpa [update_of_ne (hothers v (.inl hv))] using hv⟩
  · obtain ⟨v, hv⟩ := h.free hl hfree hs u hu
    exact ⟨v, by simpa [update_of_ne (hothers v (.inr hv))] using hv⟩

/-- The step lemma. -/
theorem step (h : LazyLock s) (hbase : Base .join s) (hsleep : Sleep s)
    (hstep : (future b).step s e = some s') : LazyLock s' := by
  have hrun := aborted_eq_none_of_step hstep
  cases step_cases hstep with
  | call hidle => exact h.call hidle
  | client hpc hidle _ hwake hclient =>
      subst hpc
      exact h.client hbase hsleep hrun hidle hwake hclient
  | worker hw hworker =>
      rw [← hw, hbase.worker (by simp)] at hworker
      cases hworker
  | workerCanceled | workerAcknowledge | workerSet | clientFails | workerFails | timerExpires
  | upstreamChanges => exact h.congr rfl rfl rfl rfl rfl
  | downstreamDetaches hd | downstreamFails _ hd =>
      obtain ⟨-, heq⟩ := hbase.fetchSub_eq hrun hd
      exact h.congr (by rw [heq]; rfl) (by rw [heq]; rfl) rfl rfl rfl

end LazyLock

/-! ## Runs -/

variable [Fintype Tid]

theorem lazyLock_start {status : FutureStatus} {payload : P} {upstream : Fin n → FutureStatus}
    (hstart : status.startable = true) (hty : status.type = .join) :
    LazyLock (State.start status payload upstream : State Tid P n) where
  lock := fun _ => by
    have hfree : status.notifyEventOrLazyLock = false := by
      simpa [FutureStatus.startable, hty] using (Bool.and_eq_true_iff.mp hstart).2
    simp [State.start, Pc.holdsLock, hfree]
  polls := fun _ => trivial
  latched := fun _ _ _ _ hpc => by simp [State.start] at hpc
  resolved := fun _ _ _ hu => by simp [State.start] at hu
  free := fun _ _ _ _ hu => by simp [State.start] at hu

/-- The invariants of a join. -/
structure Join (s : State Tid P n) : Prop where
  base : Base .join s
  sleep : Sleep s
  lifetime : Lifetime .join s
  lock : LazyLock s

variable [DecidableEq Tid] {status : FutureStatus} {payload : P}
  {upstream : Fin n → FutureStatus} {s s' : State Tid P n} {es : List (Event Tid P n)}
  {e : Event Tid P n}

theorem Join.step (h : Join s) (hstep : (future b).step s e = some s') : Join s' where
  base := h.base.step rfl hstep
  sleep := h.sleep.step h.base rfl hstep
  lifetime := h.lifetime.step h.base rfl hstep
  lock := h.lock.step h.base h.sleep hstep

omit [DecidableEq Tid] in
theorem Join.start (hstart : status.startable = true) (hty : status.type = .join) :
    Join (State.start status payload upstream : State Tid P n) where
  base := hty ▸ base_start hstart
  sleep := sleep_start
  lifetime := lifetime_start hstart
  lock := lazyLock_start hstart hty

/-- The run lemma. -/
theorem join_of_run (hstart : status.startable = true) (hty : status.type = .join)
    (hrun : (future b).run (State.start status payload upstream) es = some s) : Join s :=
  Machine.invariant_of_run (M := future b) (fun _ _ _ hI hstep => hI.step hstep)
    (Join.start hstart hty) hrun

/-- In every reachable state of a join, at most one thread is in the locked section of
`future_wait_join`. When the lock is free or the join is resolved and a thread sleeps on the status
word, the thread that released, completed or canceled has its wake call still to make, or a woken
thread has yet to make the compare-exchange with which it examines the status word. -/
theorem lazy_lock_law (hstart : status.startable = true) (hty : status.type = .join)
    (hrun : (future b).run (State.start status payload upstream) es = some s) :
    (∀ t u, (s.pc t).holdsLock = true → (s.pc u).holdsLock = true → t = u) ∧
      (s.shared.word.notifyEventOrLazyLock = false ∨ s.shared.word.state = .result →
        ∀ u, s.shared.asleep u = true → ∃ v, (s.pc v).wakesAll = true ∨
          (s.pc v).wakesOne = true ∨ (s.pc v).woken (!s.shared.asleep v) = true) := by
  have hinv := join_of_run hstart hty hrun
  constructor
  · intro t u ht hu
    have hlib := hinv.base.liberated_eq_false (t := t) fun hidle => by simp [hidle, Pc.holdsLock] at ht
    exact ((hinv.lock.holder_unique hlib ht).2 u hu).symm
  · intro hfree u hu
    obtain ⟨w, l, hpc⟩ := hinv.sleep.blocked u hu
    have hlib := hinv.base.liberated_eq_false (t := u) (by simp [hpc])
    by_cases hs : s.shared.word.state = .result
    · obtain ⟨v, hv⟩ := hinv.lock.resolved hlib hs u hu
      exact ⟨v, .inl hv⟩
    · obtain ⟨v, hv⟩ := hinv.lock.free hlib (hfree.resolve_right hs) hs u hu
      exact ⟨v, .inr hv⟩

/-- A thread takes the lock, another one sleeps; the first one's poll ends by a signal after its
timeout, and it releases the lock. -/
def handedOver : List (Event (Fin 2) Bool 1) :=
  let calm := Oracle.calm (Fin 2) 1
  [.call 0 (.wait 2), .client 0 calm, .client 0 calm, .call 1 (.wait 9), .client 1 calm,
    .client 1 calm, .client 1 calm, .client 1 calm, .client 0 { calm with elapsed := 2 },
    .client 0 { calm with elapsed := 2 }, .client 0 calm, .client 0 calm]

theorem lazy_lock_law_handedOver :
    ∃ s, (future ⟨true⟩).run (State.start .startJoin false fun _ => .startCustom) handedOver = some s ∧
      s.shared.asleep 1 = true ∧ ∃ v, (s.pc v).wakesAll = true ∨ (s.pc v).wakesOne = true ∨
        (s.pc v).woken (!s.shared.asleep v) = true := by
  have hend : ((future ⟨true⟩).run (State.start .startJoin false fun _ => .startCustom)
      handedOver).map (fun s => (s.shared.word.notifyEventOrLazyLock, s.shared.asleep 1)) =
        some (false, true) := by decide +kernel
  obtain ⟨s, hrun, hs⟩ := Option.map_eq_some_iff.mp hend
  obtain ⟨hfree, hasleep⟩ : s.shared.word.notifyEventOrLazyLock = false ∧
      s.shared.asleep 1 = true := by simpa using hs
  exact ⟨s, hrun, hasleep, (lazy_lock_law (by decide) rfl hrun).2 (.inl hfree) 1 hasleep⟩

end Udipe

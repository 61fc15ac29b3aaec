import Udipe.Future.Race
import Udipe.Future.Sleep

/-!
# Wakeups of custom futures

Reference: `future.c` (`future_notify_eager_outcome`, `future_finish`), `future/wait.c`
(`future_wait_eager`).

When the worker completes a custom future it wakes the sleeping threads only if `downstream_count`
is not zero. Threads in `udipe_wait` are counted, but `future_finish` waits without being counted. So
no wakeup is lost exactly as long as the worker never completes a future whose count is zero while a
thread sleeps.
-/

namespace Udipe

open Function Threads

variable {Tid P : Type} {n : ℕ} {b : Build}

/-- The worker's next access is the compare-exchange that completes the future, and its copy of the word
is up to date. -/
def WorkerPc.completesNow (word : FutureStatus) : WorkerPc P → Prop
  | .setCas _ _ l | .ackCas _ l => word = l
  | _ => False

/-- The worker completes a future with a count of zero while a thread sleeps. -/
def ForgetsSleeper (s : State Tid P n) : Event Tid P n → Prop
  | .worker o =>
      s.worker.completesNow s.shared.word ∧ o.spurious = false ∧
        s.shared.word.downstreamCount = 0 ∧ ∃ u, s.shared.asleep u = true
  | _ => False

instance (word : FutureStatus) : (pc : WorkerPc P) → Decidable (pc.completesNow word)
  | .setCas _ _ l | .ackCas _ l => inferInstanceAs (Decidable (word = l))
  | .absent | .running _ | .canceledLoad _ | .setLoad _ _ | .setCheck _ _ _ _ | .ackLoad _
  | .notifyAddress _ _ | .notifyEvent _ _ | .done _ => inferInstanceAs (Decidable False)

instance [Fintype Tid] (s : State Tid P n) : (e : Event Tid P n) → Decidable (ForgetsSleeper s e)
  | .worker o => inferInstanceAs (Decidable (s.worker.completesNow s.shared.word ∧
      o.spurious = false ∧ s.shared.word.downstreamCount = 0 ∧ ∃ u, s.shared.asleep u = true))
  | .call _ _ | .client _ _ | .workerCall _ | .timerExpires | .upstreamChanges _ _
  | .downstreamDetaches => inferInstanceAs (Decidable False)

/-- Once the future is completed and the worker's notification is over, nobody sleeps. -/
def NobodyLeftAsleep (s : State Tid P n) : Prop :=
  s.shared.word.state = .result → (∃ ret, s.worker = .done ret) → ∀ u, s.shared.asleep u = false

/-- A completed future has no sleepers, or the worker is about to wake them. -/
def Woken (s : State Tid P n) : Prop :=
  s.shared.liberated = false → s.shared.word.state = .result →
    (∀ u, s.shared.asleep u = false) ∨
      ∃ ret l, s.worker = .notifyAddress ret l ∧ l.notifyAddress = true

variable [DecidableEq Tid] [Fintype Tid] {s s' : State Tid P n} {t : Tid} {o : Oracle Tid n}
  {e : Event Tid P n}

omit [DecidableEq Tid] in
/-- The invariants of a custom future. It never loses count, so they hold in every run. -/
structure Custom (b : Build) (s : State Tid P n) : Prop where
  sound : Sound b .custom s
  exact : Exact s
  race : Race s
  sleep : Sleep s

namespace Custom

omit [DecidableEq Tid] in
/-- Nobody forgets a debt to a custom future. -/
theorem not_leaks (h : Custom b s) : ¬ LeaksAt t s e := by
  intro hleak
  cases e
  case client u o =>
    obtain ⟨rfl, hleak⟩ := hleak
    have hfits := h.sound.base.fits u
    have hword : s.shared.word.Typed .custom :=
      h.sound.base.typed (h.sound.base.liberated_eq_false (t := u)
        fun hidle => by simp [hidle, Pc.leaks] at hleak)
    generalize s.pc u = pc at hleak hfits
    cases pc
    case timerPoll => simp [Pc.Fits] at hfits
    case addressReload => simp [Pc.leaks, hword.type] at hleak
    all_goals simp [Pc.leaks] at hleak
  all_goals exact hleak

omit [DecidableEq Tid] in
/-- Nobody stores a malformed word in a custom future. -/
theorem not_malforms (h : Custom b s) (hrun : s.shared.aborted = none) : ¬ Malforms b s e := by
  intro hbad
  cases e
  case client t o =>
    have hfits := h.sound.base.fits t
    simp only [Malforms] at hbad
    cases hpc : s.pc t <;> rw [hpc] at hbad hfits
    case timerInc => simp [Pc.Fits] at hfits
    case finishCas f l =>
      have hlib := h.sound.base.liberated_eq_false (t := t) (by simp [hpc])
      have hcount := h.exact.count hlib hrun
      obtain ⟨hdown, hsum⟩ :=
        h.sound.base.sum_owed_eq_zero (t := t) (by simp [hpc, Pc.destroying])
      exact hbad.2.2.2 (FutureStatus.count_eq_zero.mp (by omega))
    all_goals exact absurd hbad (by simp [Pc.malforms])
  all_goals exact hbad

theorem step (h : Custom b s) (hstep : (future b).step s e = some s') : Custom b s' where
  sound := h.sound.step rfl (h.not_malforms (aborted_eq_none_of_step hstep)) hstep
  exact := h.exact.step h.sound.base rfl (fun _ => h.not_leaks) hstep
  race := h.race.step h.sound.base hstep
  sleep := h.sleep.step h.sound.base rfl hstep

omit [DecidableEq Tid] in
theorem start {status : FutureStatus} {payload : P} {upstream : Fin n → FutureStatus}
    (h : status.startable = true) (hty : status.type = .custom)
    (hup : ∀ i, (upstream i).Counted) :
    Custom b (State.start status payload upstream : State Tid P n) where
  sound := hty ▸ sound_start h hup
  exact := exact_start
  race := race_start h hty
  sleep := sleep_start

end Custom

omit [DecidableEq Tid] [Fintype Tid] in
/-- The worker completes a future with the word `desired`. -/
theorem Sleep.notified (h : Sleep s) (hlib : s.shared.liberated = false) {ret : WorkerReturn}
    {desired : FutureStatus} (hn : desired.notifyAddress = s.shared.word.notifyAddress)
    (hzero : desired.downstreamCount = 0 → ¬ ∃ u, s.shared.asleep u = true) :
    (∀ u, s.shared.asleep u = false) ∨ ∃ ret' l,
      (futureNotifyEagerOutcome ret desired : WorkerPc P) = .notifyAddress ret' l ∧
        l.notifyAddress = true := by
  by_cases hany : ∃ u, s.shared.asleep u = true
  · refine .inr ⟨ret, desired, if_pos fun hc => hzero hc hany, ?_⟩
    obtain ⟨u, hu⟩ := hany
    exact hn.trans (h.announced hlib hu)
  · exact .inl fun u => by
      by_contra hu
      exact hany ⟨u, by simpa using hu⟩

/-- The step lemma, for a step at which the worker forgets no sleeper. -/
theorem Woken.step (h : Woken s) (hinv : Custom b s) (hsafe : ¬ ForgetsSleeper s e)
    (hstep : (future b).step s e = some s') : Woken s' := by
  have hrun := aborted_eq_none_of_step hstep
  have hbase := hinv.sound.base
  cases step_cases hstep with
  | @client t o pc sh' pc' hpc hidle _ _ hclient =>
      subst hpc
      intro hl hs
      have hlib := hbase.liberated_eq_false hidle
      have howed := hbase.owed_le (hbase.overflow_eq_false hrun) hidle
      have hresult : s.shared.word.state = .result := by
        obtain ⟨hsame, -⟩ | ⟨_, -, -, hword, -⟩ := hclient.custom (hbase.fits t) howed hl
        · exact hsame ▸ hs
        · simp [hword, FutureStatus.canceledAs, FutureType.usesWorkerThread] at hs
      refine (h hlib hresult).imp_left fun hnone u => ?_
      by_contra hu
      obtain ⟨-, hold⟩ | ⟨rfl, w, hpc, -⟩ := hinv.sleep.asleep_step hclient (by simpa using hu)
      · simp [hnone u] at hold
      · -- a thread sleeps only on a word that it saw unresolved
        have hfits := hbase.fits u
        rw [hpc] at hfits
        exact hfits.1 hresult
  | @worker o pc sh' pc' hw hworker =>
      subst hw
      intro hl hs
      have hlib : s.shared.liberated = false := hworker.frame.2.2.1 ▸ hl
      have hold := h hlib
      have hforgets : s.worker.completesNow s.shared.word → o.spurious = false →
          s.shared.word.downstreamCount = 0 → ¬ ∃ u, s.shared.asleep u = true :=
        fun hnow ho hc hu => hsafe ⟨hnow, ho, hc, hu⟩
      generalize s.worker = pc at hworker hold hforgets
      cases hworker
      case set ho => exact hinv.sleep.notified hlib rfl (hforgets rfl ho)
      case ack ho _ => exact hinv.sleep.notified hlib rfl (hforgets rfl ho)
      case notifyAddress ret l =>
        have hresult : s.shared.word.state = .result := by
          split at hs <;> exact hs
        obtain hnone | ⟨ret', l', heq, hn⟩ := hold hresult
        · left
          split
          · exact fun _ => rfl
          · exact hnone
        · obtain ⟨-, rfl⟩ := WorkerPc.notifyAddress.inj heq
          left
          rw [if_pos hn]
          exact fun _ => rfl
      case notifyEvent ret l =>
        have hresult : s.shared.word.state = .result := by
          split at hs <;> exact hs
        obtain hnone | ⟨ret', l', heq, -⟩ := hold hresult
        · left
          split <;> exact hnone
        · simp at heq
      all_goals
        obtain hnone | ⟨ret', l', heq, -⟩ := hold hs
        · exact .inl hnone
        · simp at heq
  | workerCanceled hw | workerAcknowledge hw | workerSet hw =>
      intro hl hs
      refine (h hl hs).imp_right ?_
      simp [hw]
  | call | clientFails | workerFails | timerExpires | upstreamChanges => exact h
  | downstreamDetaches hd | downstreamFails _ hd =>
      obtain ⟨-, heq⟩ := hbase.fetchSub_eq hrun hd
      intro hl hs
      exact h hl (by rw [heq] at hs; exact hs)

omit [DecidableEq Tid] in
/-- The compare-exchange that completes the future passes its checks. -/
theorem Custom.completes (h : Custom b s) (hlib : s.shared.liberated = false)
    (hnow : s.worker.completesNow s.shared.word) (ho : o.spurious = false) {f : Failure} :
    workerStep b o s.shared s.worker ≠ .error f := by
  have hword := h.sound.base.typed hlib
  have hok := h.sound.wellformed.count hlib
  have hcheck := h.sound.word rfl hlib
  have hagrees := h.race.worker hlib
  cases hw : s.worker <;> rw [hw] at hnow hagrees <;> simp only [WorkerPc.completesNow] at hnow <;>
    subst hnow
  case setCas successful payload l =>
    have hdesired : s.shared.word.succeeded.debugCheck true = true :=
      (hword.succeeded.check_iff rfl).mpr ⟨hok.overflow, hok.available⟩
    have hswap : compareExchangeWeak b o s.shared.word s.shared.word
        { s.shared.word with state := .result, outcome := .success } = .ok .swapped :=
      compareExchangeWeak_current ho (fun _ => hcheck) fun _ => hdesired
    simp [workerStep, hswap, Bind.bind, Except.bind, Pure.pure, Except.pure]
  case ackCas ret l =>
    obtain ⟨hne, hk, -⟩ := hagrees
    have hs : s.shared.word.state = .canceling := by
      have hstate := hword.outcome_unknown_iff
      have htype := hword.state
      cases hs : s.shared.word.state <;>
        simp_all [FutureState.hasOutcome, FutureStatus.stateCheck]
    have hdesired : s.shared.word.acknowledged.debugCheck true = true :=
      ((hword.acknowledged hs).check_iff rfl).mpr ⟨hok.overflow, hok.available⟩
    have hcanceled : futureCustomCheckCanceled b s.shared.word = .ok true := by
      simp [futureCustomCheckCanceled, FutureStatus.check_eq_ok fun _ => hcheck, hword.type, hk, hs,
        Checked.ensure, Checked.assertion, Bind.bind, Except.bind, Pure.pure, Except.pure]
    have hswap : compareExchangeWeak b o s.shared.word s.shared.word
        { s.shared.word with state := .result } = .ok .swapped :=
      compareExchangeWeak_current ho (fun _ => hcheck) fun _ => hdesired
    simp [workerStep, hcanceled, hswap, Checked.ensure, Bind.bind, Except.bind, Pure.pure,
      Except.pure]

/-- A worker that forgets a sleeper leaves it asleep. -/
theorem ForgetsSleeper.left (h : ForgetsSleeper s e) (hinv : Custom b s)
    (hstep : (future b).step s e = some s') : ¬ NobodyLeftAsleep s' := by
  cases e
  case worker o =>
    obtain ⟨hnow, ho, hcount, u, hu⟩ := h
    have hlib := hinv.sound.base.liberated_eq_false (t := u) fun hidle => by
      obtain ⟨w, l, hpc⟩ := hinv.sleep.blocked u hu
      simp [hpc] at hidle
    have hmachine : Udipe.step b s (.worker o) = some s' := hstep
    cases step_cases hmachine with
    | @worker _ pc sh' pc' hw hworker =>
        subst hw
        intro hquiet
        generalize s.worker = pc at hworker hnow
        cases hworker <;> simp only [WorkerPc.completesNow] at hnow
        case set =>
          have hdone : (futureNotifyEagerOutcome (some true) s.shared.word.succeeded : WorkerPc P) =
              .done (some true) := if_neg (by simpa [FutureStatus.succeeded] using hcount)
          exact absurd (hu.symm.trans (hquiet rfl ⟨_, hdone⟩ u)) (by simp)
        case ack ret _ _ =>
          have hdone : (futureNotifyEagerOutcome ret s.shared.word.acknowledged : WorkerPc P) =
              .done ret := if_neg (by simpa [FutureStatus.acknowledged] using hcount)
          exact absurd (hu.symm.trans (hquiet rfl ⟨_, hdone⟩ u)) (by simp)
        case setRetry hfail | ackRetry hfail => simp [hnow, ho] at hfail
    | workerFails hf => exact absurd hf (hinv.completes hlib hnow ho)
  all_goals exact h.elim

omit [DecidableEq Tid] in
/-- Every sleeper that is forgotten waits without being counted, as `future_finish` does. -/
theorem ForgetsSleeper.uncounted (h : ForgetsSleeper s e) (hinv : Custom b s)
    (hrun : s.shared.aborted = none) :
    ∃ u w l, s.pc u = .addressBlocked w l ∧ w.caller ≠ .wait := by
  cases e
  case worker o =>
    obtain ⟨-, -, hcount, u, hu⟩ := h
    obtain ⟨w, l, hpc⟩ := hinv.sleep.blocked u hu
    refine ⟨u, w, l, hpc, fun hw => ?_⟩
    have hlib := hinv.sound.base.liberated_eq_false (t := u) (by simp [hpc])
    have hexact := hinv.exact.count hlib hrun
    have hle := le_sum Pc.owed s.pc u
    rw [hpc, Pc.owed, WaitCall.policy_eq_cycle_iff.mpr hw, FutureStatus.count_eq_zero.mpr hcount]
      at *
    simp only [DownstreamCountPolicy.weight_cycle] at hle
    omega
  all_goals exact h.elim

/-- Over every run of a custom future: no thread is ever left asleep, once the future is completed and
the worker's notification is over, exactly when the worker never completes the future with a count of
zero while a thread sleeps. -/
theorem no_lost_wakeup_iff {status : FutureStatus} {payload : P} {upstream : Fin 0 → FutureStatus}
    (hstart : status.startable = true) (hty : status.type = .custom)
    {es : List (Event Tid P 0)} :
    (future b).Along (fun _ _ s' => NobodyLeftAsleep s') (State.start status payload upstream) es ↔
      (future b).Along (fun s e _ => ¬ ForgetsSleeper s e)
        (State.start status payload upstream) es := by
  have hinv : Custom b (State.start status payload upstream : State Tid P 0) :=
    Custom.start hstart hty fun i => i.elim0
  have hwoken : Woken (State.start status payload upstream : State Tid P 0) :=
    fun _ _ => .inl fun _ => rfl
  constructor
  · exact Machine.along_of_invariant (M := future b) (I := Custom b)
      (fun _ _ _ hI _ hstep => hI.step hstep)
      (fun _ _ _ hI hC hstep hforgets => hforgets.left hI hstep hC) hinv
  · refine Machine.along_of_invariant (M := future b) (I := fun s => Custom b s ∧ Woken s)
      (fun _ _ _ hI hC hstep => ⟨hI.1.step hstep, hI.2.step hI.1 hC hstep⟩)
      (fun s e s' hI hC hstep hs hdone => ?_) ⟨hinv, hwoken⟩
    have hinv' := hI.1.step hstep
    have hlib : s'.shared.liberated = false := by
      by_contra hl
      simp [hinv'.race.dead (by simpa using hl)] at hs
    obtain hnone | ⟨ret, l, hw, -⟩ := hI.2.step hI.1 hC hstep hlib hs
    · exact hnone
    · obtain ⟨ret', hdone⟩ := hdone
      simp [hdone] at hw

theorem no_lost_wakeup_iff_canceledRun :
    (future ⟨true⟩).Along (fun _ _ s' => NobodyLeftAsleep s')
      (State.start .startCustom false Fin.elim0) canceledRun :=
  (no_lost_wakeup_iff (by decide) rfl).mpr (by decide +kernel)

/-- A thread calls `udipe_finish` and falls asleep before the worker completes the future. -/
def sleepingFinish : List (Event (Fin 1) Bool 0) :=
  [.call 0 .finish, .client 0 (.calm _ _), .client 0 (.calm _ _), .client 0 (.calm _ _),
    .client 0 (.calm _ _), .client 0 (.calm _ _), .client 0 (.calm _ _),
    .workerCall (.trySetResult true true), .worker (.calm _ _), .worker (.calm _ _),
    .worker (.calm _ _)]

/-- Nobody wakes it. -/
theorem sleepingFinish_left_asleep :
    ∃ s, (future ⟨true⟩).run (State.start .startCustom false Fin.elim0) sleepingFinish = some s ∧
      s.shared.word.state = .result ∧ s.worker = .done (some true) ∧ ¬ NobodyLeftAsleep s := by
  have hend : ((future ⟨true⟩).run (State.start .startCustom false Fin.elim0)
      sleepingFinish).map (fun s => (s.shared.word.state, s.worker, s.shared.asleep 0)) =
        some (.result, .done (some true), true) := by decide +kernel
  obtain ⟨s, hrun, hs⟩ := Option.map_eq_some_iff.mp hend
  obtain ⟨hstate, hw, hasleep⟩ : s.shared.word.state = .result ∧ s.worker = .done (some true) ∧
      s.shared.asleep 0 = true := by simpa using hs
  refine ⟨s, hrun, hstate, hw, fun hquiet => ?_⟩
  simp [hquiet hstate ⟨_, hw⟩ 0] at hasleep

end Udipe

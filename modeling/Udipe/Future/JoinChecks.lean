import Udipe.Future.Joining

/-!
# The checks of `future_wait_join`

Reference: `future/wait.c` (`future_wait_join`), `inpoll.c` (`inpoll_wait`).

The holder of `lazy_lock` checks what it relies on: its copy of the status word is locked and was
unresolved when polling began, the latch is reported after a cancelation only, `remaining` covers the
upstreams that are reported, and a batch has at most one failed upstream. All but the last are invariants
of every run of a join. The last one is not: two upstreams may fail before the next poll.
-/

namespace Udipe

open Checked Function Threads

variable {Tid P : Type} {n : ℕ} {b : Build}

/-- The check belongs to a function that `future_wait_join` calls: `inpoll_wait` is answered zero, or
`prepare_downstream_count_inc` has no place left. -/
def Failure.ofCallee : Failure → Bool
  | .epollTimedOut | .tooManyDownstreams => true
  | _ => false

namespace Pc

/-- The thread is in the body of `future_wait_join`. -/
def inWaitJoin : Pc P n → Bool
  | joinRegister _ _ _ | joinPoll _ _ _ | joinBatch _ _ _ _ | joinMeasure _ _ _
  | joinRelease _ _ _ | joinWakeAll _ _ | joinSignal _ _ | joinWakeOne _ _ => true
  | _ => false

/-- The next upstream of the batch. -/
def nextUpstream? : Pc P n → Option (Fin n)
  | joinBatch _ _ _ (.upstream i :: _) => some i
  | _ => none

/-- The timeout of the wait that polls, and what is left of it to `inpoll_wait`. -/
def pollTimeouts? : Pc P n → Option (ℕ × ℕ)
  | joinPoll w _ pollTimeout => some (w.timeout, pollTimeout)
  | _ => none

theorem nextUpstream?_eq_some {pc : Pc P n} {i : Fin n} : pc.nextUpstream? = some i ↔
    ∃ w l outcome rest, pc = .joinBatch w l outcome (.upstream i :: rest) := by
  constructor
  · intro h
    unfold nextUpstream? at h
    split at h
    · obtain rfl := Option.some.inj h
      exact ⟨_, _, _, _, rfl⟩
    · cases h
  · rintro ⟨w, l, outcome, rest, rfl⟩
    rfl

theorem pollTimeouts?_eq_some {pc : Pc P n} {timeout pollTimeout : ℕ} :
    pc.pollTimeouts? = some (timeout, pollTimeout) ↔
      ∃ w l, w.timeout = timeout ∧ pc = .joinPoll w l pollTimeout := by
  constructor
  · intro h
    unfold pollTimeouts? at h
    split at h
    · cases h
      exact ⟨_, _, rfl, rfl⟩
    · cases h
  · rintro ⟨w, l, rfl, rfl⟩
    rfl

/-- The next upstream of the batch has failed, and so has one that has already left the inpoll. -/
def meetsSecondFailure (sh : Shared Tid P n) (pc : Pc P n) : Prop :=
  ∃ i ∈ pc.nextUpstream?,
    (sh.upstream i).Failed ∧ ∃ j, sh.attached j = false ∧ (sh.upstream j).Failed

/-- A wait without a timeout is interrupted when `UDIPE_DURATION_MAX` has passed. -/
def outlastsMaximum (o : Oracle Tid n) (pc : Pc P n) : Prop :=
  ∃ timeouts ∈ pc.pollTimeouts?,
    durationMax ≤ timeouts.1 ∧ o.poll = .interrupted ∧ timeouts.2 ≤ o.elapsed

instance (sh : Shared Tid P n) (pc : Pc P n) : Decidable (pc.meetsSecondFailure sh) :=
  inferInstanceAs (Decidable (∃ _ ∈ _, _))

instance (o : Oracle Tid n) (pc : Pc P n) : Decidable (pc.outlastsMaximum o) :=
  inferInstanceAs (Decidable (∃ _ ∈ _, _))

end Pc

/-- The process ends at a check of `future_wait_join`. -/
def StopsAtJoinCheck [DecidableEq Tid] (b : Build) (s : State Tid P n) : Event Tid P n → Prop
  | .client t o =>
      (s.pc t).inWaitJoin = true ∧
        ∃ f ∈ failure? (clientStep b t o s.shared (s.pc t)), f.ofCallee = false
  | _ => False

/-- The steps at which a check of `future_wait_join` is wrong. -/
def TripsJoinCheck (b : Build) (s : State Tid P n) : Event Tid P n → Prop
  | .client t o => b.assertions = true ∧
      ((s.pc t).meetsSecondFailure s.shared ∨ (s.pc t).outlastsMaximum o)
  | _ => False

instance [DecidableEq Tid] (s : State Tid P n) :
    (e : Event Tid P n) → Decidable (StopsAtJoinCheck b s e)
  | .client _ _ => inferInstanceAs (Decidable (_ ∧ _))
  | .call _ _ | .workerCall _ | .worker _ | .timerExpires | .upstreamChanges _ _
  | .downstreamDetaches => inferInstanceAs (Decidable False)

instance (s : State Tid P n) : (e : Event Tid P n) → Decidable (TripsJoinCheck b s e)
  | .client _ _ => inferInstanceAs (Decidable (_ ∧ _))
  | .call _ _ | .workerCall _ | .worker _ | .timerExpires | .upstreamChanges _ _
  | .downstreamDetaches => inferInstanceAs (Decidable False)

/-! ## One step of a client -/

/-- What a lock holder relies on in its copy of the status word. -/
structure FutureStatus.Held (w : WaitCall) (l : FutureStatus) : Prop where
  locked : l.notifyEventOrLazyLock = true
  counted : w.policy.weight ≤ l.count
  overflow : l.downstreamCountOverflow = false

theorem FutureStatus.Held.congr {w w' : WaitCall} {l : FutureStatus} (h : l.Held w)
    (hw : w'.caller = w.caller) : l.Held w' where
  locked := h.locked
  counted := by simpa only [WaitCall.policy, hw] using h.counted
  overflow := h.overflow

namespace Pc

/-- The copy of the status word that the thread has in `future_wait_join` is fit for its next checks. -/
def Prepared : Pc P n → Prop
  | joinRegister _ l _ => l.downstreamCountOverflow = false
  | joinPoll w l _ | joinBatch w l _ _ | joinMeasure w l _ => l.Held w ∧ l.state ≠ .result
  | joinRelease w l _ => l.Held w
  | _ => True

/-- The thread has resolved the join and is about to signal the latch. -/
def signals : Pc P n → Bool
  | joinWakeAll _ _ | joinSignal _ _ | cancelLatch _ _ => true
  | _ => false

theorem prepared_countedReturn {w : WaitCall} {s : FutureStatus} :
    (countedReturn w s : Pc P n).Prepared := by
  cases hp : w.policy <;> simp [countedReturn, hp, Prepared]

theorem prepared_afterRelease {w : WaitCall} {s : FutureStatus} {outcome : FutureOutcome} :
    (afterRelease w s outcome : Pc P n).Prepared := by
  unfold afterRelease
  split_ifs <;> trivial

end Pc

section

variable [DecidableEq Tid] {t : Tid} {o : Oracle Tid n} {sh sh' : Shared Tid P n}
  {pc pc' : Pc P n}

/-- A thread enters the checks with the word as it is, and a holder counts itself in it. -/
theorem ClientStep.prepared (h : ClientStep b t o sh pc sh' pc') (hfits : pc.Fits .join)
    (hsnap : ∀ l, pc.snapshot? = some l → l.type = .join)
    (ho : sh.word.downstreamCountOverflow = false) (howed : pc.owed ≤ sh.word.count)
    (hlock : pc.holdsLock = true → sh.word.notifyEventOrLazyLock = true) (hok : pc.Prepared) :
    pc'.Prepared := by
  cases h
  case move hmove =>
    cases hmove
    case reloadReady | measureDone => exact Pc.prepared_countedReturn
    case waitJoin | reloadUnlocked | joinRetry => exact ho
    case measureUnlocked hfree =>
      -- only a copy with the lock taken gets here, and such a thread sleeps again
      obtain ⟨-, hcustom | ⟨-, hlocked⟩⟩ := hfits
      · exact absurd hcustom (by simp)
      · exact absurd (hlocked.symm.trans hfree) (by simp)
    case batchLatch | releaseRetry => exact ⟨hlock rfl, howed, ho⟩
    case batchKnown | batchComplete => exact hok.1
    case measureRelease hw => exact hok.1.congr hw
    case measurePoll hw => exact ⟨hok.1.congr hw, hok.2⟩
    all_goals first | exact hok | trivial
  case joinLock w _ ho' hmax _ =>
    refine ⟨⟨rfl, ?_, ho⟩, hfits.2⟩
    -- the count has gone up by the weight of the policy, without an overflow
    rw [FutureStatus.count_locked, FutureStatus.count_inc hmax]
    exact Nat.le_add_left _ _
  case integrate => exact hok
  case release => exact Pc.prepared_afterRelease
  case cancel hpc =>
    obtain rfl : _ = FutureType.join := hfits
    obtain ⟨-, rfl⟩ | ⟨-, -, rfl⟩ | ⟨-, -, rfl⟩ := afterCancel_eq_ok rfl hpc <;> trivial
  case cancelLatch | finish => split <;> trivial
  all_goals trivial

/-- A thread is to signal the latch when it has resolved the join. -/
theorem ClientStep.signals (h : ClientStep b t o sh pc sh' pc') (hfits : pc.Fits .join)
    (hs : pc'.signals = true) : pc.signals = true ∨ sh'.word.state = .result := by
  cases h
  case move hmove =>
    cases hmove
    case reloadReady w _ _ _ | measureDone w _ _ =>
      cases hp : w.policy <;> simp [countedReturn, WaitCall.policy, Pc.signals] at hs hp <;> simp_all
    all_goals simp [Pc.signals] at hs
  case wakeAll => exact .inl rfl
  case release w outcome _ _ =>
    -- a release with an outcome has published it
    by_cases hk : outcome = .unknown
    · unfold afterRelease at hs
      split_ifs at hs <;> simp_all [Pc.signals]
    · exact .inr (by simp [FutureStatus.released, hk])
  case cancel hpc =>
    obtain rfl : _ = FutureType.join := hfits
    exact .inr rfl
  case cancelLatch | finish => split at hs <;> simp [Pc.signals] at hs
  all_goals simp [Pc.signals] at hs

/-- The latch is signaled by a thread that was to do so. -/
theorem ClientStep.latch (h : ClientStep b t o sh pc sh' pc') (hl : sh'.latch = true) :
    sh.latch = true ∨ pc.signals = true := by
  cases h
  case signal | cancelLatch => exact .inr rfl
  case wakeOne => cases hw : o.wakee <;> exact .inl (by simpa [wakeByAddressSingle, hw] using hl)
  all_goals exact .inl hl

/-- The latch stays signaled. -/
theorem ClientStep.latch_stays (h : ClientStep b t o sh pc sh' pc') (hl : sh.latch = true) :
    sh'.latch = true := by
  cases h
  case wakeOne => cases hw : o.wakee <;> exact hl
  all_goals first | exact hl | rfl

/-- Under the lock, only a cancelation resolves the join. -/
theorem ClientStep.locked_result (h : ClientStep b t o sh pc sh' pc') (hfits : pc.Fits .join)
    (howed : pc.owed ≤ sh.word.count) (hlib : sh'.liberated = false)
    (hold : sh.word.notifyEventOrLazyLock = true → sh.word.state = .result →
      sh.word.outcome = .failureCanceled)
    (hlock : sh'.word.notifyEventOrLazyLock = true) (hs : sh'.word.state = .result) :
    sh'.word.outcome = .failureCanceled := by
  have hsub : pc.owed = 1 → sh.word.fetchSub = sh.word.dec .cycle := fun h1 =>
    FutureStatus.fetchSub_eq (h1 ▸ howed)
  cases h
  case countDec | countDecFails =>
    simp only [hsub rfl] at hlock hs ⊢
    exact hold hlock hs
  case timerInc | timerIncReady | timerIncFails | timerRevert | timerRevertFails | publish =>
    simp [Pc.Fits] at hfits
  case joinLock => exact absurd hs hfits.2
  -- the lock is free after the release
  case release => simp [FutureStatus.released] at hlock
  case wakeOne =>
    cases hw : o.wakee <;> simp only [hw, wakeByAddressSingle] at hlock hs ⊢ <;> exact hold hlock hs
  case liberate | liberateFails => simp at hlib
  case cancel | cancelFails => rfl
  all_goals exact hold hlock hs

/-- A holder that carries a failure has taken a failed upstream off the inpoll. -/
theorem ClientStep.integrated (h : ClientStep b t o sh pc sh' pc') (hfits : pc.Fits .join)
    (hf : pc'.failing = true) :
    (pc.failing = true ∨ ∃ i, sh'.attached i = false ∧ (sh.upstream i).Failed) ∧
      ∀ i, sh.attached i = false → sh'.attached i = false := by
  cases h.lockedStep hfits (Pc.holdsLock_of_failing hf)
  case failed => exact ⟨.inl rfl, fun _ hi => hi⟩
  -- the upstream of this round is off the inpoll now
  case integrate outcome outcome' i rest hs hr hk =>
    refine ⟨?_, fun j hj => ?_⟩
    · obtain ⟨-, rfl⟩ | ⟨hne, hknown, -⟩ := integrateUpstream_eq_ok hk
      · left
        cases outcome' <;> simp [Pc.failing] at hf
        rfl
      · exact .inr ⟨i, by simp, hs, hne, hknown⟩
    · rcases eq_or_ne j i with rfl | hji
      · simp
      · simpa [update_of_ne hji] using hj
  case skip outcome _ _ _ =>
    cases outcome <;> simp [Pc.failing] at hf
    exact ⟨.inl rfl, fun _ hi => hi⟩
  case retry outcome =>
    cases outcome <;> simp [Pc.failing] at hf
    exact ⟨.inl rfl, fun _ hi => hi⟩
  all_goals simp [Pc.failing] at hf

end

/-! ## The invariant -/

/-- What the checks of `future_wait_join` need, in every state of a join. -/
structure JoinChecks (s : State Tid P n) : Prop where
  prepared : ∀ u, (s.pc u).Prepared
  reported : ∀ u w l outcome ids, s.pc u = .joinBatch w l outcome ids → .latch ∈ ids →
    s.shared.latch = true
  signals : s.shared.liberated = false → ∀ u, (s.pc u).signals = true →
    s.shared.word.state = .result
  latch : s.shared.liberated = false → s.shared.latch = true → s.shared.word.state = .result
  canceled : s.shared.liberated = false → s.shared.word.notifyEventOrLazyLock = true →
    s.shared.word.state = .result → s.shared.word.outcome = .failureCanceled
  integrated : ∀ u, (s.pc u).failing = true → ∃ j, s.shared.attached j = false ∧
    s.shared.detached j = 0 ∧ (s.shared.upstream j).Failed
  upstream : ∀ i, s.shared.detached i = 0 → (s.shared.upstream i).Counted

namespace JoinChecks

variable [DecidableEq Tid] [Fintype Tid] {s s' : State Tid P n} {t : Tid} {o : Oracle Tid n}
  {e : Event Tid P n}

/-- The step lemma for clients. -/
theorem client (h : JoinChecks s) (hjoin : Join s) (hrun : s.shared.aborted = none)
    (hidle : s.pc t ≠ .idle) (hpoll : o.pollAllowed s.shared (s.pc t) = true)
    {sh' : Shared Tid P n} {pc' : Pc P n}
    (hstep : ClientStep b t o s.shared (s.pc t) sh' pc') :
    JoinChecks { s with shared := sh', pc := update s.pc t pc' } := by
  have hbase := hjoin.base
  have hlib := hbase.liberated_eq_false hidle
  have hword := hbase.typed hlib
  have ho := hbase.overflow_eq_false hrun
  have howed := hbase.owed_le ho hidle
  have hfits := hbase.fits t
  have hstays : sh'.liberated = false → s.shared.word.state = .result →
      sh'.word.state = .result := fun hl hr =>
    (hstep.result hword ho howed hr).resolve_right (by simpa using hl)
  refine ⟨?_, ?_, fun hl => ?_, fun hl hlatch => ?_, fun hl => ?_, ?_, fun i hi => ?_⟩
  · refine forall_update (P := fun _ (pc : Pc P n) => pc.Prepared) ?_ fun u _ => h.prepared u
    exact hstep.prepared hfits (fun l hl => (hbase.snapshot t l hl).type) ho howed
      (fun hholds => (hjoin.lock.holder_unique hlib hholds).1) (h.prepared t)
  · refine forall_update (P := fun (_ : Tid) (pc : Pc P n) => ∀ w l outcome ids,
      pc = .joinBatch w l outcome ids → .latch ∈ ids → sh'.latch = true)
      (fun w l outcome ids hpc hmem => hstep.latch_stays ?_)
      fun u _ w l outcome ids hpc hmem => hstep.latch_stays (h.reported u w l outcome ids hpc hmem)
    obtain ⟨w', l', p, hfrom, hids, -⟩ | ⟨w', l', outcome', id, hfrom, -⟩ := hstep.batch hfits hpc
    · simp only [Oracle.pollAllowed, hfrom, hids, Bool.and_eq_true, List.all_eq_true] at hpoll
      exact hpoll.2 _ hmem
    · exact h.reported t w' l' outcome' (id :: ids) hfrom (List.mem_cons_of_mem _ hmem)
  · refine forall_update (P := fun _ (pc : Pc P n) => pc.signals = true →
      sh'.word.state = .result) (fun hs => ?_) fun u _ hs => hstays hl (h.signals hlib u hs)
    obtain hs | hr := hstep.signals hfits hs
    · exact hstays hl (h.signals hlib t hs)
    · exact hr
  · refine hstays hl ?_
    obtain hold | hs := hstep.latch hlatch
    · exact h.latch hlib hold
    · exact h.signals hlib t hs
  · exact hstep.locked_result hfits howed hl (h.canceled hlib)
  · refine forall_update (P := fun _ (pc : Pc P n) => pc.failing = true → ∃ j,
      sh'.attached j = false ∧ sh'.detached j = 0 ∧ (sh'.upstream j).Failed) (fun hf => ?_)
      fun u hut hf => ?_
    · have hown := hjoin.holder_own hidle hstep (Pc.holdsLock_of_failing hf)
      obtain ⟨hf | ⟨i, hi, hfailed⟩, hgone⟩ := hstep.integrated hfits hf
      · obtain ⟨j, hj, -, hfailed⟩ := h.integrated t hf
        exact ⟨j, hgone j hj, (hown j).1, (hown j).2.2 ▸ hfailed⟩
      · exact ⟨i, hi, (hown i).1, (hown i).2.2 ▸ hfailed⟩
    · obtain ⟨j, hj, -, hfailed⟩ := h.integrated u hf
      -- while another thread holds the lock, the inpoll stays as it is
      obtain ⟨hattached, hup⟩ :=
        hjoin.holder_frame hidle hstep hut (Pc.holdsLock_of_failing hf)
      exact ⟨j, hattached ▸ hj, (hup j).1, (hup j).2 ▸ hfailed⟩
  · obtain ⟨hzero, hup⟩ := hstep.upstream hi
    exact hup ▸ h.upstream i hzero

omit [DecidableEq Tid] [Fintype Tid] in
/-- A change that touches neither the lock, state and outcome nor the upstreams. -/
theorem congr (h : JoinChecks s)
    (hlock : s'.shared.word.notifyEventOrLazyLock = s.shared.word.notifyEventOrLazyLock)
    (hstate : s'.shared.word.state = s.shared.word.state)
    (houtcome : s'.shared.word.outcome = s.shared.word.outcome)
    (hlatch : s'.shared.latch = s.shared.latch)
    (hattached : s'.shared.attached = s.shared.attached)
    (hdetached : s'.shared.detached = s.shared.detached)
    (hupstream : s'.shared.upstream = s.shared.upstream)
    (hlib : s'.shared.liberated = s.shared.liberated) (hpc : s'.pc = s.pc) : JoinChecks s' := by
  refine ⟨?_, ?_, ?_, ?_, ?_, ?_, ?_⟩
  · simpa only [hpc] using h.prepared
  · simpa only [hpc, hlatch] using h.reported
  · simpa only [hlib, hpc, hstate] using h.signals
  · simpa only [hlib, hlatch, hstate] using h.latch
  · simpa only [hlib, hlock, hstate, houtcome] using h.canceled
  · simpa only [hpc, hattached, hdetached, hupstream] using h.integrated
  · simpa only [hdetached, hupstream] using h.upstream

omit [Fintype Tid] in
/-- A call starts. -/
theorem call (h : JoinChecks s) (c : Call) (finisher : Option Tid) :
    JoinChecks { s with
      shared := { s.shared with finisher := finisher }
      pc := update s.pc t c.start } := by
  refine { h with prepared := ?_, reported := ?_, signals := fun hl => ?_, integrated := ?_ }
  · exact forall_update (P := fun _ (pc : Pc P n) => pc.Prepared) (by cases c <;> trivial)
      fun u _ => h.prepared u
  · refine forall_update (P := fun (_ : Tid) (pc : Pc P n) => ∀ w l outcome ids,
      pc = .joinBatch w l outcome ids → .latch ∈ ids → s.shared.latch = true)
      (fun w l outcome ids hpc => ?_) fun u _ => h.reported u
    cases c <;> simp [Call.start] at hpc
  · exact forall_update (P := fun _ (pc : Pc P n) => pc.signals = true →
      s.shared.word.state = .result)
      (fun hs => by cases c <;> simp [Call.start, Pc.signals] at hs) fun u _ => h.signals hl u
  · exact forall_update (P := fun _ (pc : Pc P n) => pc.failing = true → ∃ j,
      s.shared.attached j = false ∧ s.shared.detached j = 0 ∧ (s.shared.upstream j).Failed)
      (fun hf => by cases c <;> simp [Call.start, Pc.failing] at hf) fun u _ => h.integrated u

omit [DecidableEq Tid] [Fintype Tid] in
/-- An upstream changes. -/
theorem upstreamChanges (h : JoinChecks s) {i : Fin n} {status : FutureStatus}
    (hi : upstreamAllowed s.shared i status = true) :
    JoinChecks { s with
      shared := { s.shared with upstream := update s.shared.upstream i status } } := by
  refine { h with integrated := fun u hf => ?_, upstream := fun j hj => ?_ }
  · obtain ⟨j, hj, hzero, hr, hne, hk⟩ := h.integrated u hf
    obtain ⟨hr', hk'⟩ := upstreamAllowed_keeps hi hzero hr
    exact ⟨j, hj, hzero, hr', hk' ▸ hne, hk' ▸ hk⟩
  · exact upstreamAllowed_counted hi hj (h.upstream j hj)

/-- The step lemma. -/
theorem step (h : JoinChecks s) (hjoin : Join s) (hstep : (future b).step s e = some s') :
    JoinChecks s' := by
  have hrun := aborted_eq_none_of_step hstep
  cases step_cases hstep with
  | call => exact h.call _ _
  | client hpc hidle hpoll _ hclient =>
      subst hpc
      exact h.client hjoin hrun hidle hpoll hclient
  | worker hw hworker =>
      rw [← hw, hjoin.base.worker (by simp)] at hworker
      cases hworker
  | upstreamChanges hi => exact h.upstreamChanges hi
  | workerCanceled | workerAcknowledge | workerSet | clientFails | workerFails | timerExpires =>
      exact h.congr rfl rfl rfl rfl rfl rfl rfl rfl rfl
  | downstreamDetaches hd | downstreamFails _ hd =>
      obtain ⟨-, heq⟩ := hjoin.base.fetchSub_eq hrun hd
      exact h.congr (by rw [heq]; rfl) (by rw [heq]; rfl) (by rw [heq]; rfl) rfl rfl rfl rfl rfl rfl

end JoinChecks

/-! ## How a step in `future_wait_join` can fail -/

/-- An unresolved join has no outcome. -/
theorem FutureStatus.Typed.outcome_unknown {s : FutureStatus} (h : s.Typed .join)
    (hs : s.state ≠ .result) : s.outcome = .unknown := by
  by_contra hk
  exact hs (h.result_of_join hk)

section

variable {F : Failure → Prop} {o : Oracle Tid n} {sh : Shared Tid P n} {w : WaitCall}
  {l : FutureStatus} {p : DownstreamCountPolicy}

/-- The increment is refused only when there is no place left. -/
theorem prepareInc_failsWith (hcheck : CheckFails b F l) (hs : l.state ≠ .result)
    (ho : l.downstreamCountOverflow = false) (hF : F .tooManyDownstreams) :
    FailsWith F (prepareDownstreamCountInc b l p) := by
  cases p <;> simp [prepareDownstreamCountInc, failsWith_check_of hcheck, hs, ho, hF]

/-- The decrement of a held word is not refused. -/
theorem FutureStatus.Held.prepareDec_failsWith (h : l.Held w) (hcheck : CheckFails b F l) :
    FailsWith F (prepareDownstreamCountDec b l w.policy) := by
  have hcount := h.counted
  cases hp : w.policy with
  | cycle =>
      have hpos : 1 ≤ l.downstreamCount.toNat := by
        rw [hp] at hcount
        exact hcount
      simp [prepareDownstreamCountDec, failsWith_check_of hcheck, h.overflow, hpos]
  | keep => simp [prepareDownstreamCountDec, failsWith_check_of hcheck, h.overflow]

theorem joinPollStep_failsWith {pollTimeout : ℕ} (hk : l.outcome = .unknown)
    (hlong : b.assertions = true → (Pc.joinPoll w l pollTimeout : Pc P n).outlastsMaximum o →
      F .infinitePollTimedOut) (hF : F .epollTimedOut) :
    FailsWith F (joinPollStep b o sh w l pollTimeout) := by
  simp only [joinPollStep, failsWith_bind, failsWith_assertion, hk]
  refine ⟨by simp, fun _ _ => ?_⟩
  cases ho : o.poll with
  | ready ids => simp
  | timedOut => simpa using hF
  | interrupted =>
      simp only [failsWith_ite, failsWith_bind, failsWith_assertion, failsWith_pure]
      refine ⟨fun hle => ⟨fun hb hmax => hlong hb ⟨_, rfl, ?_, ho, hle⟩, fun _ _ => trivial⟩,
        fun _ => trivial⟩
      simpa using hmax

/-- An upstream in its final state has an outcome that a join can take in, once. -/
theorem integrateUpstream_failsWith {outcome : FutureOutcome} {s : FutureStatus}
    (hcounted : s.Counted) (hs : s.state = .result)
    (hsecond : b.assertions = true → outcome ≠ .unknown → s.Failed → F .secondFailedUpstream) :
    FailsWith F (integrateUpstream b outcome s.outcome) := by
  have htyped := FutureStatus.typed_of_debugCheck hcounted.1
  have hcheck := htyped.outcome
  -- a counted upstream in its final state has passed the check of its outcome
  cases hk : s.outcome <;> simp [FutureStatus.outcomeCheck, hk, hs, FutureState.hasOutcome] at hcheck
  case success => simp [integrateUpstream]
  all_goals
    simp only [integrateUpstream, failsWith_bind, failsWith_assertion, failsWith_pure]
    refine ⟨fun hb hne => hsecond hb (by simpa using hne) ⟨hs, by simp [hk], by simp [hk]⟩,
      fun _ _ => trivial⟩

/-- A second failed upstream stops the process. -/
theorem integrateUpstream_second {outcome : FutureOutcome} {s : FutureStatus}
    (hb : b.assertions = true) (hcounted : s.Counted) (hfailed : s.Failed)
    (hk : outcome ≠ .unknown) :
    integrateUpstream b outcome s.outcome = .error .secondFailedUpstream := by
  have hcheck := (FutureStatus.typed_of_debugCheck hcounted.1).outcome
  obtain ⟨hs, hne, hknown⟩ := hfailed
  have hassert : assertion b.assertions (outcome == .unknown) Failure.secondFailedUpstream =
      .error .secondFailedUpstream :=
    assertion_eq_error.mpr ⟨hb, by simpa using hk, rfl⟩
  cases hs' : s.outcome <;>
    simp [FutureStatus.outcomeCheck, hs', hs, FutureState.hasOutcome] at hcheck hne hknown
  all_goals exact bind_eq_error.mpr (.inl hassert)

end

variable [DecidableEq Tid] [Fintype Tid] {s s' : State Tid P n} {t : Tid} {o : Oracle Tid n}
  {e : Event Tid P n}

omit [DecidableEq Tid] in
/-- The upstreams of a batch are among those that `remaining` counts. -/
theorem Upstreams.remaining_pos (h : Upstreams s) (hjoin : Join s) {w : WaitCall}
    {l : FutureStatus} {outcome : FutureOutcome} {i : Fin n} {rest : List (InpollId n)}
    (hpc : s.pc t = .joinBatch w l outcome (.upstream i :: rest)) : 1 ≤ s.shared.remaining := by
  have hidle : s.pc t ≠ .idle := by simp [hpc]
  -- the finisher, which would not count, is alone, and this thread is in a wait
  have hsum := h.remaining (hjoin.base.liberated_eq_false hidle) fun u f r hu => by
    have hfin := hjoin.base.destroying u (by rw [hu]; rfl)
    rcases eq_or_ne t u with rfl | htu
    · simp [hpc] at hu
    · exact hidle ((hjoin.base.alone u hfin).2 t htu)
  have hattached := (h.batch t w l outcome _ hpc).2 i (by simp)
  have hle := le_sum Bool.toNat s.shared.attached i
  simp only [hattached, Bool.toNat_true] at hle
  omega

namespace JoinChecks

omit [DecidableEq Tid] in
/-- The latch was signaled for a cancelation if a thread still holds the lock. -/
theorem latched (h : JoinChecks s) (hjoin : Join s) {w : WaitCall} {l : FutureStatus}
    {outcome : FutureOutcome} {rest : List (InpollId n)}
    (hpc : s.pc t = .joinBatch w l outcome (.latch :: rest)) :
    s.shared.word.state = .result ∧ s.shared.word.outcome = .failureCanceled := by
  have hlib := hjoin.base.liberated_eq_false (t := t) (by simp [hpc])
  have hlock := (hjoin.lock.holder_unique hlib (t := t) (by rw [hpc]; rfl)).1
  have hs := h.latch hlib (h.reported t w l outcome _ hpc (by simp))
  exact ⟨hs, h.canceled hlib hlock hs⟩

/-- Apart from the failures of its callees, `future_wait_join` fails only where its checks are wrong. -/
theorem failsWith (h : JoinChecks s) (hjoin : Join s) (hup : Upstreams s)
    (hchecked : b.assertions = true → Wellformed b s) (hin : (s.pc t).inWaitJoin = true) :
    FailsWith (fun f => f.ofCallee = true ∨ TripsJoinCheck b s (.client t o))
      (clientStep b t o s.shared (s.pc t)) := by
  have hidle : s.pc t ≠ .idle := fun hpc => by simp [hpc, Pc.inWaitJoin] at hin
  have hchecks : ∀ {F : Failure → Prop} l, Examines b s.shared (s.pc t) l → CheckFails b F l :=
    fun l hex hb hbad => by
      simp [(hchecked hb).examines hjoin.base hjoin.lifetime rfl hidle hex hb] at hbad
  have hprepared := h.prepared t
  have hfits := hjoin.base.fits t
  have hsnap := hjoin.base.snapshot t
  cases hpc : s.pc t <;> rw [hpc] at hin hchecks hprepared hfits hsnap
  case joinRegister w l woken =>
    exact joinRegisterStep_failsWith
      (prepareInc_failsWith (hchecks _ (.snapshot rfl)) hfits.2 hprepared (.inl rfl)) hchecks
  case joinPoll w l pollTimeout =>
    -- the copy is still the one that was locked, when the join was unresolved
    have hk := (hsnap l rfl).outcome_unknown hprepared.2
    exact joinPollStep_failsWith hk
      (fun hb hlong => .inr ⟨hb, .inr (by rw [hpc]; exact hlong)⟩) (.inl rfl)
  case joinBatch w l outcome ids =>
    simp only [clientStep]
    rcases ids with _ | ⟨_ | i, rest⟩
    · simp only [joinBatchStep]
      split_ifs <;> simp
    · obtain ⟨hs, hk⟩ := h.latched hjoin hpc
      simp [joinBatchStep, hs, hk]
    · have hcounted := h.upstream i (hjoin.lifetime.attached hjoin.base hidle (by rw [hpc]; rfl) i)
      have hremaining := hup.remaining_pos hjoin hpc
      simp only [joinBatchStep, failsWith_bind, failsWith_ite, failsWith_pure, failsWith_ensure]
      refine ⟨failsWith_check_of (hchecks _ .upstream), fun _ _ => ⟨fun _ => trivial,
        fun hs => ⟨by simp [hremaining], fun _ _ => ⟨?_, fun _ _ => trivial⟩⟩⟩⟩
      refine integrateUpstream_failsWith hcounted (by simpa using hs) fun hb hk hfailed => ?_
      obtain ⟨-, rfl | rfl⟩ := hfits
      · exact absurd rfl hk
      · obtain ⟨j, hj, -, hfailed'⟩ := h.integrated t (by rw [hpc]; rfl)
        exact .inr ⟨hb, .inl (by rw [hpc]; exact ⟨i, rfl, hfailed, j, hj, hfailed'⟩)⟩
  case joinRelease w l outcome =>
    exact joinReleaseStep_failsWith (hprepared.prepareDec_failsWith (hchecks _ (.snapshot rfl)))
      (fun _ hfree => absurd (hprepared.locked.symm.trans hfree) (by simp)) hchecks
  case joinMeasure w l timedOut => simp [clientStep, joinMeasureStep]
  case joinWakeAll | joinSignal | joinWakeOne => simp [clientStep]
  all_goals simp [Pc.inWaitJoin] at hin

/-- Where its checks are wrong, `future_wait_join` ends the process. -/
theorem stops (h : JoinChecks s) (hjoin : Join s) (hup : Upstreams s)
    (htrips : TripsJoinCheck b s (.client t o)) : StopsAtJoinCheck b s (.client t o) := by
  obtain ⟨hb, ⟨i, hi, hfailed, j, hj, hfailed'⟩ | ⟨⟨timeout, left⟩, hleft, hlong, ho, hle⟩⟩ := htrips
  · obtain ⟨w, l, outcome, rest, hpc⟩ := Pc.nextUpstream?_eq_some.mp hi
    have hidle : s.pc t ≠ .idle := by simp [hpc]
    have hlib := hjoin.base.liberated_eq_false hidle
    have hzero := hjoin.lifetime.attached hjoin.base hidle (by rw [hpc]; rfl)
    have hcounted := h.upstream i (hzero i)
    have hremaining := hup.remaining_pos hjoin hpc
    -- a clean holder would have seen the other upstream succeed
    have hk : outcome ≠ .unknown := fun hk =>
      hfailed'.2.1 (hup.clean hlib (.inl ⟨t, by rw [hpc, hk]; rfl⟩) j hj (hzero j)).2
    refine ⟨by rw [hpc]; rfl, .secondFailedUpstream, failure?_eq_some.mpr ?_, rfl⟩
    rw [hpc]
    simp only [clientStep, joinBatchStep]
    refine bind_eq_error.mpr (.inr ⟨(), FutureStatus.check_eq_ok fun _ => hcounted.1, ?_⟩)
    rw [if_neg (not_not_intro hfailed.1)]
    refine bind_eq_error.mpr (.inr ⟨(), ensure_of_true _ (by simpa using hremaining), ?_⟩)
    exact bind_eq_error.mpr (.inl (integrateUpstream_second hb hcounted hfailed hk))
  · obtain ⟨w, l, rfl, hpc⟩ := Pc.pollTimeouts?_eq_some.mp hleft
    have hprepared := h.prepared t
    have hsnap := hjoin.base.snapshot t
    rw [hpc] at hprepared hsnap
    refine ⟨by rw [hpc]; rfl, .infinitePollTimedOut, failure?_eq_some.mpr ?_, rfl⟩
    rw [hpc]
    simp only [clientStep, joinPollStep]
    refine bind_eq_error.mpr (.inr ⟨(), assertion_of_true _ _ ?_, ?_⟩)
    · simpa using (hsnap l rfl).outcome_unknown hprepared.2
    · simp only [ho, if_pos hle]
      exact bind_eq_error.mpr (.inl (assertion_eq_error.mpr ⟨hb, by simpa using hlong, rfl⟩))

end JoinChecks

/-! ## Runs -/

variable {status : FutureStatus} {payload : P} {upstream : Fin n → FutureStatus}
  {es : List (Event Tid P n)}

omit [DecidableEq Tid] [Fintype Tid] in
theorem joinChecks_start (hstart : status.startable = true) (hty : status.type = .join)
    (hup : ∀ i, (upstream i).Counted) :
    JoinChecks (State.start status payload upstream : State Tid P n) where
  prepared := fun _ => trivial
  reported := fun _ _ _ _ _ hpc => by simp [State.start] at hpc
  signals := fun _ _ hs => by simp [State.start, Pc.signals] at hs
  latch := fun _ hl => by simp [State.start] at hl
  canceled := fun _ hlock => by
    have hfree : status.notifyEventOrLazyLock = false := by
      simpa [FutureStatus.startable, hty] using (Bool.and_eq_true_iff.mp hstart).2
    exact absurd (hlock.symm.trans hfree) (by simp)
  integrated := fun _ hf => by simp [State.start, Pc.failing] at hf
  upstream := fun i _ => hup i

/-- What the checks of `future_wait_join` rest on, together. -/
structure CheckedJoin (b : Build) (s : State Tid P n) : Prop where
  lazy : Lazy b .join s
  upstreams : Upstreams s
  checks : JoinChecks s

omit [DecidableEq Tid] in
theorem CheckedJoin.join (h : CheckedJoin b s) : Join s :=
  ⟨h.lazy.base, h.lazy.sleep, h.lazy.lifetime, h.lazy.lock rfl⟩

theorem CheckedJoin.step (h : CheckedJoin b s) (hstep : (future b).step s e = some s') :
    CheckedJoin b s' where
  lazy := h.lazy.step rfl hstep
  upstreams := h.upstreams.step h.join hstep
  checks := h.checks.step h.join hstep

/-- `future_wait_join` ends the process at one of its checks exactly at the steps where they are
wrong. -/
theorem CheckedJoin.stops_iff (h : CheckedJoin b s) :
    StopsAtJoinCheck b s e ↔ TripsJoinCheck b s e := by
  cases e
  case client t o =>
    refine ⟨?_, h.checks.stops h.join h.upstreams⟩
    rintro ⟨hin, f, hf, hown⟩
    obtain hcallee | htrips := h.checks.failsWith h.join h.upstreams (h.lazy.checked rfl) hin f
      (failure?_eq_some.mp hf)
    · exact absurd (hcallee.symm.trans hown) (by simp)
    · exact htrips
  all_goals exact Iff.rfl

/-- The checks of `future_wait_join`, over every run of a join, in every build, for every number of
upstreams with any outcomes and for every answer of the inpoll: a step ends the process at one of them
exactly if, with assertions compiled in, it takes a failed upstream off the inpoll after another one
failed in the same batch, or if it ends a wait without a timeout. So a run without such steps
never stops there. -/
theorem join_checks_iff (hstart : status.startable = true) (hty : status.type = .join)
    (hup : ∀ i, (upstream i).Counted) :
    (future b).Along (fun s e _ => StopsAtJoinCheck b s e ↔ TripsJoinCheck b s e)
        (State.start status payload upstream : State Tid P n) es ∧
      ((future b).Along (fun s e _ => ¬ StopsAtJoinCheck b s e)
          (State.start status payload upstream : State Tid P n) es ↔
        (future b).Along (fun s e _ => ¬ TripsJoinCheck b s e)
          (State.start status payload upstream : State Tid P n) es) := by
  have h0 : CheckedJoin b (State.start status payload upstream : State Tid P n) :=
    ⟨hty ▸ lazy_start hstart hup, upstreams_start, joinChecks_start hstart hty hup⟩
  have hiff : (future b).Along (fun s e _ => StopsAtJoinCheck b s e ↔ TripsJoinCheck b s e)
      (State.start status payload upstream : State Tid P n) es :=
    Machine.along_of_invariant (M := future b) (C := fun _ _ _ => True) (I := CheckedJoin b)
      (fun _ _ _ hI _ hstep => hI.step hstep) (fun _ _ _ hI _ _ => hI.stops_iff) h0
      (Machine.along_true _ _)
  refine ⟨hiff, fun hnever => ?_, fun hnever => ?_⟩
  · exact (hiff.and hnever).mono fun _ _ _ h htrips => h.2 (h.1.mpr htrips)
  · exact (hiff.and hnever).mono fun _ _ _ h hstops => h.2 (h.1.mp hstops)

/-- The condition holds along the run of a join whose one upstream succeeds. -/
theorem join_checks_iff_completedJoin :
    (future ⟨true⟩).Along (fun s e _ => ¬ StopsAtJoinCheck ⟨true⟩ s e)
      (State.start .startJoin false fun _ => .counted) completedJoin :=
  (join_checks_iff (by decide) rfl fun _ => ⟨by decide, by decide⟩).2.mpr (by decide +kernel)

/-- A thread waits for a join of two upstreams; both fail before its first poll. -/
def failedTwice : List (Event (Fin 1) Bool 2) :=
  let calm := Oracle.calm (Fin 1) 2
  let failed := { FutureStatus.counted with state := .result, outcome := .failureInternal }
  [.call 0 (.wait 9), .client 0 calm, .client 0 calm, .upstreamChanges 0 failed,
    .upstreamChanges 1 failed, .client 0 { calm with poll := .ready [.upstream 0, .upstream 1] },
    .client 0 calm, .client 0 calm]

/-- Then the batch that reports them ends the process. -/
theorem failedTwice_stops :
    (∃ s, (future ⟨true⟩).run (State.start .startJoin false fun _ => .counted) failedTwice =
        some s ∧ s.shared.aborted = some .secondFailedUpstream) ∧
      ¬ (future ⟨true⟩).Along (fun s e _ => ¬ StopsAtJoinCheck ⟨true⟩ s e)
        (State.start .startJoin false fun _ => .counted) failedTwice := by
  have hend : ((future ⟨true⟩).run (State.start .startJoin false fun _ => .counted)
      failedTwice).map (fun s => s.shared.aborted) = some (some .secondFailedUpstream) := by
    decide +kernel
  obtain ⟨s, hrun, hs⟩ := Option.map_eq_some_iff.mp hend
  exact ⟨⟨s, hrun, hs⟩, by decide +kernel⟩

end Udipe

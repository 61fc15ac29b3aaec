import Udipe.Future.Failures
import Udipe.Future.Invariant

/-!
# Conservation of `downstream_count`

Reference: `future/wait.c`, `future/status_ops.h`.

A `udipe_wait` call should leave `downstream_count` as it found it. It does exactly when the thread makes
no step at which it forgets its debt (`Pc.leaks`): a wait for a timer that ends by a timeout, or a
waiter of a join that takes over a free `lazy_lock` and registers a second time. As long as no thread
makes such a step, an unused future has a count of zero and `future_finish` accepts it.
-/

namespace Udipe

open Function Threads

variable {Tid P : Type} {n : ℕ} {ty : FutureType} {b : Build}

/-- The thread is in a `udipe_wait` call. -/
def Pc.inWait (pc : Pc P n) : Bool :=
  (pc.waitCall?.map WaitCall.caller) == some .wait

/-- What an event does to the count on behalf of thread `t`'s `udipe_wait` calls. -/
def waitContribution [DecidableEq Tid] (t : Tid) (s : State Tid P n) (e : Event Tid P n)
    (s' : State Tid P n) : ℤ :=
  match e with
  | .client u _ =>
      if u = t ∧ (s.pc t).inWait = true then (s'.shared.word.count : ℤ) - s.shared.word.count else 0
  | _ => 0

/-- The event is a step of thread `t` at which it forgets its debt. -/
def LeaksAt (t : Tid) (s : State Tid P n) : Event Tid P n → Prop
  | .client u o => u = t ∧ (s.pc t).leaks s.shared o = true
  | _ => False

instance [DecidableEq Tid] (t : Tid) (s : State Tid P n) (e : Event Tid P n) :
    Decidable (LeaksAt t s e) := by
  cases e <;> unfold LeaksAt <;> infer_instance

/-! ## Which calls owe -/

/-- Only `udipe_wait` counts itself. -/
theorem WaitCall.policy_eq_cycle_iff {w : WaitCall} : w.policy = .cycle ↔ w.caller = .wait := by
  cases w with
  | mk caller timeout => cases caller <;> simp [policy]

theorem WaitCall.weight_eq_zero {w : WaitCall} (h : w.caller ≠ .wait) : w.policy.weight = 0 := by
  cases hp : w.policy with
  | cycle => exact absurd (WaitCall.policy_eq_cycle_iff.mp hp) h
  | keep => rfl

/-- Outside `udipe_wait` nothing is owed and nothing leaks. -/
theorem Pc.owed_eq_zero {pc : Pc P n} (hfits : pc.Fits ty) (h : pc.inWait = false) :
    pc.owed = 0 := by
  cases pc
  case countDec w _ => simp_all [inWait, waitCall?, Fits, WaitCall.policy_eq_cycle_iff]
  case timerRevert w => simp_all [inWait, waitCall?, Fits, WaitCall.policy_eq_cycle_iff]
  all_goals
    first
      | rfl
      | exact WaitCall.weight_eq_zero (by simpa [inWait, waitCall?] using h)

theorem Pc.leaks_eq_false {sh : Shared Tid P n} {o : Oracle Tid n} {pc : Pc P n}
    (h : pc.inWait = false) : pc.leaks sh o = false := by
  have hp : ∀ w : WaitCall, pc.waitCall? = some w → (w.policy == .cycle) = false := by
    intro w hw
    have hne : w.policy ≠ .cycle := fun hc => by
      simp [inWait, hw, WaitCall.policy_eq_cycle_iff.mp hc] at h
    simpa using hne
  cases pc
  case timerPoll w _ => simp [leaks, hp w rfl]
  case addressReload w _ _ => simp [leaks, hp w rfl]
  all_goals rfl

section

variable [DecidableEq Tid] {t : Tid} {o : Oracle Tid n} {sh sh' : Shared Tid P n}
  {pc pc' : Pc P n}

omit [DecidableEq Tid] in
theorem waitCall?_countedReturn {w : WaitCall} {s : FutureStatus} :
    (countedReturn w s : Pc P n).waitCall? = some w := by
  cases hp : w.policy <;> simp [countedReturn, hp, Pc.waitCall?]

omit [DecidableEq Tid] in
theorem waitCall?_afterRelease {w : WaitCall} {s : FutureStatus} {outcome : FutureOutcome} :
    (afterRelease w s outcome : Pc P n).waitCall? = some w := by
  unfold afterRelease
  split_ifs <;> rfl

/-- A step never enters a `udipe_wait` call. -/
theorem ClientStep.inWait (h : ClientStep b t o sh pc sh' pc') (himpl : ty.implemented = true)
    (hfits : pc.Fits ty) (hw : pc'.inWait = true) : pc.inWait = true := by
  cases h
  case move hmove =>
    cases hmove
    case reloadReady | measureDone =>
      rw [Pc.inWait, waitCall?_countedReturn] at hw
      exact hw
    all_goals simp_all [Pc.inWait, Pc.waitCall?]
  case release =>
    rw [Pc.inWait, waitCall?_afterRelease] at hw
    exact hw
  case cancel hk hpc =>
    obtain rfl : _ = ty := hfits
    obtain ⟨-, rfl⟩ | ⟨-, -, rfl⟩ | ⟨-, -, rfl⟩ := afterCancel_eq_ok himpl hpc <;>
      simp [Pc.inWait, Pc.waitCall?] at hw
  case cancelLatch => split at hw <;> simp [Pc.inWait, Pc.waitCall?] at hw
  case finish => split at hw <;> simp [Pc.inWait, Pc.waitCall?] at hw
  all_goals simp_all [Pc.inWait, Pc.waitCall?]

end

/-! ## One call -/

variable [DecidableEq Tid] [Fintype Tid] {s s' : State Tid P n} {t : Tid} {e : Event Tid P n}

/-- The step lemma: thread `t`'s debt changes by its contribution, less what it leaks. -/
theorem owed_step (hbase : Base ty s) (himpl : ty.implemented = true)
    (hstep : (future b).step s e = some s') (halive : s'.shared.aborted = none) :
    ((s'.pc t).owed : ℤ) = (s.pc t).owed +
      (waitContribution t s e s' - if LeaksAt t s e then 1 else 0) := by
  have hrun := aborted_eq_none_of_step hstep
  cases step_cases hstep with
  | @call u c hidle hc =>
      rcases eq_or_ne t u with rfl | htu
      · have hstart : (c.start : Pc P n).owed = 0 := by cases c <;> rfl
        simp [waitContribution, LeaksAt, hidle, hstart]
      · simp [waitContribution, LeaksAt, update_of_ne htu]
  | @client u o pc sh' pc' hpc hidle _ _ h =>
      subst hpc
      rcases eq_or_ne u t with rfl | hut
      swap
      · simp [waitContribution, LeaksAt, hut, update_of_ne hut.symm]
      have hlib := hbase.liberated_eq_false hidle
      have hword := hbase.typed hlib
      have ho := hbase.overflow_eq_false hrun
      have howed := hbase.owed_le ho hidle
      have hfits' := h.fits hword himpl (hbase.fits u) (hbase.snapshot u)
      simp only [update_self, waitContribution, LeaksAt, true_and]
      cases hin : (s.pc u).inWait with
      | false =>
          have hin' : pc'.inWait = false := by
            by_contra hin'
            simpa [hin] using h.inWait himpl (hbase.fits u) (by simpa using hin')
          simp [Pc.owed_eq_zero (hbase.fits u) hin, Pc.owed_eq_zero hfits' hin',
            Pc.leaks_eq_false hin]
      | true =>
          have hlib' : sh'.liberated = false := by
            by_contra hl
            obtain hl | ⟨f, r, hpc, -⟩ := h.frame.2.2.2 (by simpa using hl)
            · simp [hlib] at hl
            · simp [hpc, Pc.inWait, Pc.waitCall?] at hin
          have ho' := (h.overflow ho howed).resolve_right (by simpa using halive)
          obtain ⟨k, hk, hleak⟩ :=
            h.count hword himpl (hbase.fits u) (hbase.snapshot u) ho howed ho' hlib'
          have hk' := hleak halive
          cases hl : (s.pc u).leaks s.shared o <;> simp [hl] at hk' ⊢ <;> omega
  | workerCanceled | workerAcknowledge | workerSet | worker | timerExpires | upstreamChanges
  | downstreamDetaches => simp [waitContribution, LeaksAt]
  | clientFails | workerFails | downstreamFails => simp at halive

/-- Over a run between two states where thread `t` is in no call, its `udipe_wait` calls contribute the
number of times that it forgot its debt. -/
theorem tally_waitContribution (hbase : Base ty s) (himpl : ty.implemented = true)
    {es : List (Event Tid P n)} (hrun : (future b).run s es = some s')
    (halive : s'.shared.aborted = none) (hidle : s.pc t = .idle) (hidle' : s'.pc t = .idle) :
    (future b).tally (waitContribution t) s es =
      (future b).tally (fun s e _ => if LeaksAt t s e then 1 else 0) s es := by
  have hlaw := Machine.tally_of_run (M := future b) (I := Base ty)
    (φ := fun s : State Tid P n => ((s.pc t).owed : ℤ))
    (w := fun s e s' => waitContribution t s e s' - if LeaksAt t s e then 1 else 0)
    (fun _ _ _ hI _ hstep => hI.step himpl hstep)
    (fun _ _ _ hI hC hstep => owed_step hI himpl hstep hC) hbase (along_alive hrun halive) hrun
  simp only [Machine.tally_sub, hidle, hidle', Pc.owed_idle, Nat.cast_zero, zero_add] at hlaw
  omega

/-! ## All calls -/

omit [DecidableEq Tid] in
/-- Nobody has forgotten a debt: the count is exactly what the downstream futures and the threads in
`udipe_wait` hold, and the destroying thread has only seen words with a count of zero. -/
structure Exact (s : State Tid P n) : Prop where
  count : s.shared.liberated = false → s.shared.aborted = none →
    s.shared.word.count = s.shared.downstreams + ∑ u, (s.pc u).owed
  snapshot : ∀ u, (s.pc u).destroying = true → ∀ l, (s.pc u).snapshot? = some l → l.count = 0
  accepted : s.shared.aborted ≠ some .finishedInUse

/-- A destroying call is not a `udipe_wait` call. -/
theorem Pc.inWait_of_destroying {pc : Pc P n} (h : pc.destroying = true) : pc.inWait = false := by
  cases pc <;> simp only [destroying, waitCall?] at h <;>
    first
      | rfl
      | (split at h <;> simp_all [inWait, waitCall?])

omit [DecidableEq Tid] in
/-- While the future is being destroyed nobody owes anything. -/
theorem Base.sum_owed_eq_zero (h : Base ty s) (hd : (s.pc t).destroying = true) :
    s.shared.downstreams = 0 ∧ ∑ u, (s.pc u).owed = 0 := by
  obtain ⟨hzero, halone⟩ := h.alone t (h.destroying t hd)
  refine ⟨hzero, (sum_eq_zero _ _).mpr fun u => ?_⟩
  rcases eq_or_ne u t with rfl | hut
  · exact Pc.owed_eq_zero (h.fits u) (Pc.inWait_of_destroying hd)
  · simp [halone u hut]

namespace Exact

/-- A client's step. -/
theorem client (h : Exact s) (hbase : Base ty s) (himpl : ty.implemented = true)
    (hrun : s.shared.aborted = none) (hidle : s.pc t ≠ .idle) {o : Oracle Tid n}
    (hleak : (s.pc t).leaks s.shared o = false) {sh' : Shared Tid P n} {pc' : Pc P n}
    (hstep : ClientStep b t o s.shared (s.pc t) sh' pc') :
    Exact { s with shared := sh', pc := update s.pc t pc' } := by
  have hlib := hbase.liberated_eq_false hidle
  have hword := hbase.typed hlib
  have ho := hbase.overflow_eq_false hrun
  have howed := hbase.owed_le ho hidle
  have hcount := h.count hlib hrun
  obtain ⟨hdown, -, -, hlib'⟩ := hstep.frame
  have haborted := hstep.aborted himpl (hbase.fits t)
  -- the count law, without a leak
  have hlaw : sh'.liberated = false → sh'.aborted = none →
      sh'.word.count + (s.pc t).owed = s.shared.word.count + pc'.owed := by
    intro hl ha
    obtain ⟨k, hk, hk'⟩ := hstep.count hword himpl (hbase.fits t) (hbase.snapshot t) ho howed
      ((hstep.overflow ho howed).resolve_right (by simp [ha])) hl
    have := hk' ha
    simp only [hleak, Bool.toNat_false] at this
    omega
  refine ⟨fun hl ha => ?_, ?_, ?_⟩
  · have hsum := sum_update Pc.owed s.pc t pc'
    have := hlaw hl ha
    simp only [hdown]
    omega
  · refine forall_update (P := fun _ (pc : Pc P n) => pc.destroying = true →
      ∀ l, pc.snapshot? = some l → l.count = 0) (fun hd l hl => ?_) fun u _ => h.snapshot u
    have hd' := hstep.destroying himpl (hbase.fits t) hd
    obtain ⟨hzero, hsum⟩ := hbase.sum_owed_eq_zero hd'
    have hpc : pc' ≠ .idle := fun hpc => by simp [hpc, Pc.snapshot?] at hl
    obtain hold | rfl | rfl := hstep.snapshot himpl (hbase.fits t) howed hl
    · exact h.snapshot t hd' l hold
    · omega
    · have hlib'' : sh'.liberated = false := by
        by_contra hl'
        obtain hl' | ⟨_, _, -, hidle'⟩ := hlib' (by simpa using hl')
        · simp [hlib] at hl'
        · exact hpc hidle'
      have halive : sh'.aborted = none := by
        obtain ha | ⟨hidle', -⟩ := haborted
        · exact ha.trans hrun
        · exact absurd hidle' hpc
      have howed' : pc'.owed = 0 :=
        Pc.owed_eq_zero (hstep.fits hword himpl (hbase.fits t) (hbase.snapshot t))
          (Pc.inWait_of_destroying hd)
      have := hlaw hlib'' halive
      omega
  · obtain ha | ⟨-, f, hf, hne⟩ := haborted
    · simpa [ha] using h.accepted
    · simpa [hf] using hne

omit [DecidableEq Tid] in
/-- What exactness does not look at. -/
theorem congr (h : Exact s) (hword : s'.shared.word.count = s.shared.word.count)
    (hdown : s'.shared.downstreams = s.shared.downstreams)
    (hlib : s'.shared.liberated = s.shared.liberated)
    (haborted : s'.shared.aborted = s.shared.aborted) (hpc : s'.pc = s.pc) : Exact s' := by
  refine ⟨?_, ?_, ?_⟩
  · simpa only [hword, hdown, hlib, haborted, hpc] using h.count
  · simpa only [hpc] using h.snapshot
  · simpa only [haborted] using h.accepted

omit [DecidableEq Tid] in
/-- The process ends for another reason. -/
theorem abort (h : Exact s) {f : Failure} (hf : f ≠ .finishedInUse) :
    Exact { s with shared := { s.shared with aborted := some f } } :=
  ⟨fun _ ha => absurd ha (by simp), h.snapshot, by simpa using hf⟩

/-- The step lemma, for a step at which no thread forgets its debt. -/
theorem step (h : Exact s) (hbase : Base ty s) (himpl : ty.implemented = true)
    (hleak : ∀ t, ¬ LeaksAt t s e) (hstep : (future b).step s e = some s') : Exact s' := by
  have hrun := aborted_eq_none_of_step hstep
  cases step_cases hstep with
  | @call t c hidle hc =>
      have howed : (c.start : Pc P n).owed = 0 := by cases c <;> rfl
      refine ⟨fun hl ha => ?_, ?_, h.accepted⟩
      · have hsum := sum_update Pc.owed s.pc t c.start
        have hcount := h.count hl ha
        simp only [hidle, howed, Pc.owed_idle, add_zero] at hsum
        simpa [hsum] using hcount
      · exact forall_update (P := fun _ (pc : Pc P n) => pc.destroying = true →
          ∀ l, pc.snapshot? = some l → l.count = 0)
          (fun _ l hl => by cases c <;> simp [Call.start, Pc.snapshot?] at hl)
          fun u _ => h.snapshot u
  | @client t o pc sh' pc' hpc hidle _ _ hclient =>
      subst hpc
      exact h.client hbase himpl hrun hidle (by simpa [LeaksAt] using hleak t) hclient
  | @clientFails t o f hf =>
      refine h.abort (clientStep_failsWith (F := (· ≠ .finishedInUse)) (fun _ _ hne => hne)
        (fun _ _ _ _ => by simp) (fun f l hpc hne => ?_) f hf)
      -- the finisher has only seen words with a count of zero
      have hzero := h.snapshot t (by simp [hpc, Pc.destroying]) l (by simp [hpc, Pc.snapshot?])
      exact absurd (FutureStatus.count_eq_zero.mp hzero) hne
  | @workerFails o f hf =>
      exact h.abort (workerStep_failsWith (F := (· ≠ .finishedInUse)) (fun _ _ hne => hne)
        (fun _ _ => by simp) (fun _ _ _ _ => by simp) f hf)
  | worker hw hworker =>
      refine h.congr ?_ ?_ ?_ ?_ rfl <;> cases hworker
      case notifyAddress | notifyEvent => all_goals (try split <;> rfl)
      all_goals first | rfl | (split <;> rfl)
  | workerCanceled | workerAcknowledge | workerSet | timerExpires | upstreamChanges =>
      exact h.congr rfl rfl rfl rfl rfl
  | downstreamDetaches hd =>
      refine ⟨fun hl ha => ?_, h.snapshot, h.accepted⟩
      have hcount := h.count hl ha
      have hpos : 1 ≤ s.shared.word.count := by omega
      have := FutureStatus.count_fetchSub hpos
      simp only
      omega
  | downstreamFails hf hd => exact ⟨fun _ ha => absurd ha (by simp), h.snapshot, by simpa using hf.1⟩

end Exact

omit [DecidableEq Tid] in
theorem exact_start {status : FutureStatus} {payload : P} {upstream : Fin n → FutureStatus} :
    Exact (State.start status payload upstream : State Tid P n) where
  count := fun _ _ => by simp [State.start, FutureStatus.count]
  snapshot := fun _ hd => by simp [State.start, Pc.destroying, Pc.waitCall?] at hd
  accepted := by simp [State.start]

/-- Over every run of a future: the `udipe_wait` calls that a thread has completed between two idle
states contribute nothing to `downstream_count` exactly when none of their steps forgets a debt; and as
long as no thread ever does, the count is zero whenever no thread is in `udipe_wait` and no downstream
future is attached, and `future_finish` never fails its assertion on the count. -/
theorem wait_conserves_count_iff {status : FutureStatus} {payload : P}
    {upstream : Fin n → FutureStatus} (hstart : status.startable = true)
    {es fs : List (Event Tid P n)}
    (hes : (future b).run (State.start status payload upstream) es = some s)
    (hfs : (future b).run s fs = some s') :
    (∀ t, s.pc t = .idle → s'.pc t = .idle → s'.shared.aborted = none →
      ((future b).tally (waitContribution t) s fs = 0 ↔
        (future b).Along (fun s e _ => ¬ LeaksAt t s e) s fs)) ∧
    ((future b).Along (fun s e _ => ∀ t, ¬ LeaksAt t s e) (State.start status payload upstream) es →
      (s.shared.liberated = false → s.shared.aborted = none → (∀ t, (s.pc t).inWait = false) →
        s.shared.downstreams = 0 → s.shared.word.downstreamCount = 0) ∧
      s.shared.aborted ≠ some .finishedInUse) := by
  have himpl := FutureStatus.startable_implemented hstart
  have hbase := base_of_run hstart hes
  refine ⟨fun t hidle hidle' halive => ?_, fun hleak => ?_⟩
  · rw [tally_waitContribution hbase himpl hfs halive hidle hidle']
    exact Machine.tally_indicator_eq_zero (M := future b) (fun s e _ => LeaksAt t s e) s fs
  · have hexact : Exact s := by
      exact (Machine.invariant_of_along (M := future b)
        (C := fun s e _ => ∀ t, ¬ LeaksAt t s e) (I := fun s => Base status.type s ∧ Exact s)
        (fun _ _ _ hI hC hstep => ⟨hI.1.step himpl hstep, hI.2.step hI.1 himpl hC hstep⟩)
        ⟨base_start hstart, exact_start⟩ hleak hes).2
    refine ⟨fun hlib halive hwait hdown => ?_, hexact.accepted⟩
    have hsum : ∑ u, (s.pc u).owed = 0 :=
      (sum_eq_zero _ _).mpr fun u => Pc.owed_eq_zero (hbase.fits u) (hwait u)
    have := hexact.count hlib halive
    exact FutureStatus.count_eq_zero.mp (by omega)

/-- Two threads register and fall asleep. One times out, the worker wakes the other one. -/
def twoWaits : List (Event (Fin 2) Unit 0) :=
  (.call 0 (.wait 7) :: List.replicate 4 (.client 0 (.calm _ _))) ++
    (.call 1 (.wait 3) :: List.replicate 5 (.client 1 (.calm _ _))) ++
    .client 1 { Oracle.calm (Fin 2) 0 with elapsed := 3 } ::
    List.replicate 2 (.client 1 (.calm _ _)) ++
    .workerCall (.trySetResult true ()) :: List.replicate 5 (.worker (.calm _ _)) ++
    List.replicate 4 (.client 0 (.calm _ _))

theorem wait_conserves_count_iff_twoWaits :
    ((future ⟨true⟩).run (State.start .startCustom () Fin.elim0) (twoWaits.take 10)).map
        (fun s => s.shared.word.downstreamCount) = some 2 ∧
      ∃ s, (future ⟨true⟩).run (State.start .startCustom () Fin.elim0) twoWaits = some s ∧
        s.shared.log = [.waited 0 true, .waited 1 false] ∧
        (∀ t, (future ⟨true⟩).tally (waitContribution t) (State.start .startCustom () Fin.elim0)
          twoWaits = 0) ∧
        s.shared.word.downstreamCount = 0 := by
  have hend : ((future ⟨true⟩).run (State.start .startCustom () Fin.elim0) twoWaits).map
      (fun s => (s.shared.log, s.shared.liberated, s.shared.aborted, s.shared.downstreams,
        decide (∀ t, (s.pc t).isIdle = true))) =
        some ([.waited 0 true, .waited 1 false], false, none, 0, true) := by decide +kernel
  obtain ⟨s, hrun, hs⟩ := Option.map_eq_some_iff.mp hend
  simp only [Prod.mk.injEq, decide_eq_true_eq, Pc.isIdle_iff] at hs
  obtain ⟨hlog, hlib, halive, hdown, hidle⟩ := hs
  have hleak : (future ⟨true⟩).Along (fun s e _ => ∀ t, ¬ LeaksAt t s e)
      (State.start .startCustom () Fin.elim0) twoWaits := by decide +kernel
  refine ⟨by decide +kernel, s, hrun, hlog, fun t => ?_, ?_⟩
  · exact ((wait_conserves_count_iff (by decide) (Machine.run_nil _ _) hrun).1 t rfl (hidle t)
      halive).mpr (hleak.mono fun _ _ _ h => h t)
  · exact ((wait_conserves_count_iff (by decide) hrun (Machine.run_nil _ _)).2 hleak).1 hlib halive
      (fun t => by rw [hidle t]; rfl) hdown

/-- A wait for a timer that times out in `ppoll`. -/
def timedOutWait : List (Event (Fin 1) Unit 0) :=
  [.call 0 (.wait 5), .client 0 (.calm _ _), .client 0 (.calm _ _),
    .client 0 { Oracle.calm (Fin 1) 0 with poll := .timedOut }, .client 0 (.calm _ _)]

/-- It leaves its count behind, and the next `udipe_finish` fails. -/
theorem timedOutWait_keeps_count :
    ∃ s, (future ⟨true⟩).run (State.start .startTimerOnce () Fin.elim0) timedOutWait = some s ∧
      s.shared.log = [.waited 0 false] ∧ (s.pc 0).inWait = false ∧ s.shared.downstreams = 0 ∧
      (future ⟨true⟩).tally (waitContribution 0) (State.start .startTimerOnce () Fin.elim0)
        timedOutWait = 1 ∧
      s.shared.word.downstreamCount ≠ 0 ∧
      ∃ s', (future ⟨true⟩).run s [.call 0 .finish, .client 0 (.calm _ _),
        .client 0 (.calm _ _)] = some s' ∧ s'.shared.aborted = some .finishedInUse :=
  ⟨_, rfl, rfl, rfl, rfl, by decide, by decide, _, rfl, rfl⟩

end Udipe

import Udipe.Future.Wakeup

/-!
# The worker and a liberated future

Reference: `future.c` (`udipe_custom_try_set_result`, `future_notify_eager_outcome`),
`future/allocator.c` (`future_liberate`).

The result is visible from the worker's compare-exchange on, before its notifications. A waiter that
sees it without being woken lets the owner finish the future while the worker is still between the two.
-/

namespace Udipe

open Function Threads

variable {Tid P : Type} {n : ℕ} [DecidableEq Tid] {b : Build}

/-- The worker's next step reads or writes the future, wakes the sleepers on its status word or signals
its event. -/
def WorkerPc.touches : WorkerPc P → Bool
  | .absent | .running _ | .done _ => false
  | .canceledLoad _ | .setLoad _ _ | .setCheck _ _ _ _ | .setCas _ _ _ | .ackLoad _ | .ackCas _ _ =>
      true
  | .notifyAddress _ status => status.notifyAddress
  | .notifyEvent _ status => status.notifyEventOrLazyLock

/-- The worker has such a step left. -/
def WorkerPc.accessLeft : WorkerPc P → Bool
  | .absent | .done _ => false
  | .running _ | .canceledLoad _ | .setLoad _ _ | .setCheck _ _ _ _ | .setCas _ _ _ | .ackLoad _
  | .ackCas _ _ => true
  | .notifyAddress _ status => status.notifyAddress || status.notifyEventOrLazyLock
  | .notifyEvent _ status => status.notifyEventOrLazyLock

/-- The step is a step of the worker that touches a future after its liberation. -/
def TouchesLiberated (s : State Tid P n) : Event Tid P n → Prop
  | .worker _ => s.shared.liberated = true ∧ s.worker.touches = true
  | _ => False

/-- The step liberates a future that the worker is not done with. -/
def LiberatesEarly (s : State Tid P n) : Event Tid P n → Prop
  | .client t _ => (∃ f r, s.pc t = .finishLiberate f r) ∧ s.worker.accessLeft = true
  | _ => False

instance (s : State Tid P n) (e : Event Tid P n) : Decidable (TouchesLiberated s e) :=
  match e with
  | .worker _ => inferInstanceAs (Decidable (_ ∧ _))
  | .call .. | .client .. | .workerCall _ | .timerExpires | .upstreamChanges .. | .downstreamDetaches =>
      inferInstanceAs (Decidable False)

/-- The next access liberates the future. -/
def Pc.liberates : Pc P n → Bool
  | .finishLiberate _ _ => true
  | _ => false

omit [DecidableEq Tid] in
theorem Pc.liberates_iff {pc : Pc P n} :
    pc.liberates = true ↔ ∃ f r, pc = .finishLiberate f r := by
  cases pc <;> simp [liberates]

instance (s : State Tid P n) (e : Event Tid P n) : Decidable (LiberatesEarly s e) :=
  match e with
  | .client t _ =>
      decidable_of_iff ((s.pc t).liberates = true ∧ s.worker.accessLeft = true)
        (and_congr_left' Pc.liberates_iff)
  | .call .. | .workerCall _ | .worker _ | .timerExpires | .upstreamChanges .. | .downstreamDetaches =>
      inferInstanceAs (Decidable False)

omit [DecidableEq Tid] in
theorem WorkerPc.accessLeft_of_touches {pc : WorkerPc P} (h : pc.touches = true) :
    pc.accessLeft = true := by
  cases pc <;> simp_all [touches, accessLeft]

omit [DecidableEq Tid] in
/-- A worker that is done with the future stays so. -/
theorem WorkerStep.accessLeft {o : Oracle Tid n} {sh sh' : Shared Tid P n} {pc pc' : WorkerPc P}
    (h : WorkerStep b o sh pc sh' pc') (hleft : pc.accessLeft = false) : pc'.accessLeft = false := by
  cases h
  case notifyAddress ret status =>
    simp only [WorkerPc.accessLeft, Bool.or_eq_false_iff] at hleft ⊢
    exact hleft.2
  case notifyEvent => rfl
  all_goals simp [WorkerPc.accessLeft] at hleft

variable [Fintype Tid] {s s' : State Tid P n} {e : Event Tid P n}

/-- The worker is done with a liberated future. -/
def WorkerDone (s : State Tid P n) : Prop :=
  s.shared.liberated = true → s.worker.accessLeft = false

theorem WorkerDone.step (h : WorkerDone s) (hsafe : ¬ LiberatesEarly s e)
    (hstep : (future b).step s e = some s') : WorkerDone s' := by
  intro hlib
  cases step_cases hstep with
  | client hpc hidle _ _ hclient =>
      subst hpc
      obtain hold | ⟨f, r, hpc, -⟩ := hclient.frame.2.2.2 hlib
      · exact h hold
      · by_contra hleft
        exact hsafe ⟨⟨f, r, hpc⟩, by simpa using hleft⟩
  | worker hw hworker =>
      subst hw
      exact hworker.accessLeft (h (hworker.frame.2.2.1 ▸ hlib))
  | workerCanceled hw | workerAcknowledge hw | workerSet hw =>
      have hleft := h hlib
      simp [hw, WorkerPc.accessLeft] at hleft
  | call | clientFails | workerFails | timerExpires | upstreamChanges | downstreamDetaches
  | downstreamFails => exact h hlib

/-- The step that liberates. -/
theorem LiberatesEarly.left (h : LiberatesEarly s e) (hstep : (future b).step s e = some s') :
    ¬ WorkerDone s' := by
  intro hdone
  cases e with
  | client t o =>
      obtain ⟨⟨f, r, hpc⟩, hleft⟩ := h
      have hcases : Step b s (.client t o) s' := step_cases hstep
      cases hcases with
      | client hpc' _ _ _ hclient =>
          rw [hpc] at hpc'
          subst hpc'
          cases hclient with
          | move hmove => cases hmove
          | liberate | liberateFails => simp [hdone rfl] at hleft
      | clientFails hfail =>
          rw [hpc, clientStep, finishLiberateStep] at hfail
          dsimp only at hfail
          split at hfail <;> cases hfail
  | call | workerCall | worker | timerExpires | upstreamChanges | downstreamDetaches => exact h

/-! ## What the worker goes on to do -/

/-- An event of the worker. -/
def Event.ofWorker : Event Tid P n → Bool
  | .workerCall _ | .worker _ => true
  | _ => false

/-- However the worker goes on by itself, it does not touch a liberated future. -/
def LeavesAlone (b : Build) (s : State Tid P n) : Prop :=
  ∀ es : List (Event Tid P n), (∀ e ∈ es, e.ofWorker = true) →
    (future b).Along (fun s e _ => ¬ TouchesLiberated s e) s es

omit [DecidableEq Tid] [Fintype Tid] in
theorem WorkerDone.not_touches (h : WorkerDone s) : ¬ TouchesLiberated s e := by
  intro htouch
  cases e with
  | worker o =>
      obtain ⟨hlib, htouches⟩ := htouch
      have hleft := WorkerPc.accessLeft_of_touches htouches
      simp [h hlib] at hleft
  | call | client | workerCall | timerExpires | upstreamChanges | downstreamDetaches => exact htouch

theorem WorkerDone.leavesAlone (h : WorkerDone s) : LeavesAlone b s := by
  intro es hes
  refine Machine.along_of_invariant (M := future b) (C := fun _ e _ => e.ofWorker = true)
    (I := WorkerDone) (fun s e s' hdone hworker hstep => hdone.step (fun hearly => ?_) hstep)
    (fun _ _ _ hdone _ _ => hdone.not_touches) h (Machine.along_of_forall_mem hes)
  cases e with
  | client => cases hworker
  | call | workerCall | worker | timerExpires | upstreamChanges | downstreamDetaches => exact hearly

theorem LeavesAlone.step (h : LeavesAlone b s) (he : e.ofWorker = true)
    (hstep : (future b).step s e = some s') : LeavesAlone b s' := fun es hes =>
  (h (e :: es) (List.forall_mem_cons.mpr ⟨he, hes⟩) s' hstep).2

/-- Nothing keeps the worker from its next access. -/
theorem LeavesAlone.not_touches (h : LeavesAlone b s) (hlib : s.shared.liberated = true)
    (halive : s.shared.aborted = none) : s.worker.touches = false := by
  by_contra htouches
  rw [Bool.not_eq_false] at htouches
  obtain ⟨s', hstep⟩ : ∃ s', (future b).step s (.worker (.calm Tid n)) = some s' := by
    rw [← Option.isSome_iff_exists]
    simp only [future, Udipe.step, halive]
    cases hw : s.worker <;> simp only [hw, WorkerPc.touches, Bool.false_eq_true] at htouches <;>
      simp only [Option.isSome_none, Bool.false_eq_true, if_false] <;> split <;> rfl
  have hfirst := h [.worker (.calm Tid n)] (by simp [Event.ofWorker]) s' hstep
  exact hfirst.1 ⟨hlib, htouches⟩

/-- A worker with an access left goes on to touch the future. -/
theorem LeavesAlone.workerDone (h : LeavesAlone b s) (halive : s.shared.aborted = none) :
    WorkerDone s := by
  intro hlib
  have htouches := h.not_touches hlib halive
  cases hw : s.worker with
  | absent | done => rfl
  | running saw =>
      have hstep : (future b).step s (.workerCall .canceled) =
          some { s with worker := .canceledLoad saw } := by simp [future, Udipe.step, halive, hw]
      exact absurd ((h.step rfl hstep).not_touches hlib halive) (by simp [WorkerPc.touches])
  | notifyAddress ret l =>
      rw [hw] at htouches
      have hstep : (future b).step s (.worker (.calm Tid n)) =
          some { s with worker := .notifyEvent ret l } := by
        have hfalse : l.notifyAddress = false := htouches
        simp [future, Udipe.step, halive, hw, workerStep, hfalse, Pure.pure, Except.pure]
      have hevent : l.notifyEventOrLazyLock = false := (h.step rfl hstep).not_touches hlib halive
      exact Bool.or_eq_false_iff.mpr ⟨htouches, hevent⟩
  | notifyEvent ret l =>
      rw [hw] at htouches
      exact htouches
  | canceledLoad | setLoad | setCheck | setCas | ackLoad | ackCas =>
      rw [hw] at htouches
      cases htouches

/-- Where assertions are compiled in, a future is only liberated early between the worker's
compare-exchange and the end of its notifications. -/
theorem LiberatesEarly.notifying (h : LiberatesEarly s e) (hb : b.assertions = true)
    (hinv : Custom b s) (hstep : (future b).step s e = some s') :
    ∃ ret l, s.worker = .notifyAddress ret l ∨ s.worker = .notifyEvent ret l := by
  cases e with
  | client t o =>
      obtain ⟨⟨f, r, hpc⟩, hleft⟩ := h
      have hlib := hinv.sound.base.liberated_eq_false (t := t) (by simp [hpc])
      have hresult := hinv.sound.wellformed.collecting hb hlib t (by simp [hpc, Pc.collecting])
      have hreturned := (hinv.race.worker hlib).returned.1.mp hresult
      cases hw : s.worker <;> simp [hw, WorkerPc.returned?, WorkerPc.accessLeft] at hreturned hleft
      case notifyAddress ret l => exact ⟨ret, l, .inl rfl⟩
      case notifyEvent ret l => exact ⟨ret, l, .inr rfl⟩
  | call | workerCall | worker | timerExpires | upstreamChanges | downstreamDetaches => exact h.elim

/-- Over every run: the worker is always done with a liberated future exactly when no step liberates it
before; and then no step of the worker touches it after its liberation, neither in the run nor however
the worker goes on. After a step that liberates it before, the worker does touch it if it goes on, unless
the step has ended the process. Where assertions are compiled in, a custom future is only liberated
before between the worker's compare-exchange and the end of its notifications. -/
theorem no_access_after_liberation_iff {status : FutureStatus} {payload : P}
    {upstream : Fin n → FutureStatus} {es : List (Event Tid P n)} :
    ((future b).Along (fun _ _ s' => WorkerDone s') (State.start status payload upstream) es ↔
      (future b).Along (fun s e _ => ¬ LiberatesEarly s e)
        (State.start status payload upstream) es) ∧
    ((future b).Along (fun s e _ => ¬ LiberatesEarly s e)
        (State.start status payload upstream) es →
      (future b).Along (fun s e s' => ¬ TouchesLiberated s e ∧ LeavesAlone b s')
        (State.start status payload upstream) es) ∧
    (future b).Along (fun s e s' => LiberatesEarly s e → s'.shared.aborted = none →
        ¬ LeavesAlone b s') (State.start status payload upstream) es ∧
    (b.assertions = true → status.startable = true → status.type = .custom →
      (∀ i, (upstream i).Counted) →
      (future b).Along (fun s e _ => LiberatesEarly s e →
          ∃ ret l, s.worker = .notifyAddress ret l ∨ s.worker = .notifyEvent ret l)
        (State.start status payload upstream) es) := by
  have hstart : WorkerDone (State.start status payload upstream : State Tid P n) := by
    intro h
    cases h
  have hkeep : ∀ (s : State Tid P n) (e : Event Tid P n) (s' : State Tid P n), WorkerDone s →
      ¬ LiberatesEarly s e → (future b).step s e = some s' → WorkerDone s' :=
    fun _ _ _ h hsafe hstep => h.step hsafe hstep
  refine ⟨⟨?_, ?_⟩, ?_, ?_, fun hb hstartable hty hup => ?_⟩
  · refine Machine.along_of_invariant (M := future b) (I := fun _ => True)
      (fun _ _ _ _ _ _ => trivial) (fun _ _ _ _ hdone hstep hearly => ?_) trivial
    exact hearly.left hstep hdone
  · exact Machine.along_of_invariant hkeep hkeep hstart
  · exact Machine.along_of_invariant hkeep (fun s e s' hdone hsafe hstep =>
      ⟨hdone.not_touches, (hdone.step hsafe hstep).leavesAlone⟩) hstart
  · exact Machine.along_of_invariant (M := future b) (I := fun _ => True)
      (fun _ _ _ _ _ _ => trivial)
      (fun _ _ _ _ _ hstep hearly halive hleaves =>
        hearly.left hstep (hleaves.workerDone halive)) trivial (Machine.along_true _ _)
  · exact Machine.along_of_invariant (M := future b) (I := Custom b)
      (fun _ _ _ hinv _ hstep => hinv.step hstep)
      (fun _ _ _ hinv _ hstep hearly => hearly.notifying hb hinv hstep)
      (Custom.start hstartable hty hup) (Machine.along_true _ _)

/-- A thread falls asleep in `udipe_wait`, the worker completes the future and wakes it, and after its
return it finishes the future. -/
def wokenThenFinished : List (Event (Fin 1) Bool 0) :=
  (.call 0 (.wait 7) :: List.replicate 4 (.client 0 (.calm _ _))) ++
    .workerCall (.trySetResult true true) :: List.replicate 5 (.worker (.calm _ _)) ++
    List.replicate 4 (.client 0 (.calm _ _)) ++
    .call 0 .finish :: List.replicate 5 (.client 0 (.calm _ _))

/-- The worker is done with the future before it is liberated. -/
theorem no_access_after_liberation_iff_wokenThenFinished :
    -- after nine steps the worker is about to wake the thread
    ((future ⟨true⟩).run (State.start .startCustom false Fin.elim0) (wokenThenFinished.take 9)).map
        (fun s => (s.worker.touches, s.shared.asleep 0)) = some (true, true) ∧
      ((future ⟨true⟩).run (State.start .startCustom false Fin.elim0) wokenThenFinished).map
        (fun s => (s.shared.liberated, s.shared.log)) =
          some (true, [.finished 0 (.typed .custom (some true)), .waited 0 true]) ∧
      (future ⟨true⟩).Along (fun _ _ s' => WorkerDone s') (State.start .startCustom false Fin.elim0)
        wokenThenFinished ∧
      (future ⟨true⟩).Along (fun s e _ => ¬ TouchesLiberated s e)
        (State.start .startCustom false Fin.elim0) wokenThenFinished := by
  have hsafe : (future ⟨true⟩).Along (fun s e _ => ¬ LiberatesEarly s e)
      (State.start .startCustom false Fin.elim0) wokenThenFinished := by decide +kernel
  refine ⟨by decide +kernel, by decide +kernel, ?_, ?_⟩
  · exact no_access_after_liberation_iff.1.mpr hsafe
  · exact (no_access_after_liberation_iff.2.1 hsafe).mono fun _ _ _ h => h.1

/-- A thread registers and sees the result before the worker's notification; it returns from
`udipe_wait`, finishes the future, and the worker goes on. -/
def finishedBeforeWake : List (Event (Fin 1) Bool 0) :=
  (.call 0 (.wait 7) :: List.replicate 3 (.client 0 (.calm _ _))) ++
    .workerCall (.trySetResult true true) :: List.replicate 3 (.worker (.calm _ _)) ++
    List.replicate 4 (.client 0 (.calm _ _)) ++
    .call 0 .finish :: List.replicate 5 (.client 0 (.calm _ _))

/-- The worker's next step wakes the sleepers on the status word of a future that was liberated. -/
theorem finishedBeforeWake_touches :
    ∃ s, (future ⟨true⟩).run (State.start .startCustom false Fin.elim0) finishedBeforeWake = some s ∧
      s.shared.log = [.finished 0 (.typed .custom (some true)), .waited 0 true] ∧
      TouchesLiberated s (.worker (.calm _ _)) ∧
      ((future ⟨true⟩).step s (.worker (.calm _ _))).isSome = true := by
  have hend : ((future ⟨true⟩).run (State.start .startCustom false Fin.elim0)
      finishedBeforeWake).map (fun s => (s.shared.log, decide (TouchesLiberated s (.worker (.calm _ _))),
        ((future ⟨true⟩).step s (.worker (.calm _ _))).isSome)) =
      some ([.finished 0 (.typed .custom (some true)), .waited 0 true], true, true) := by
    decide +kernel
  obtain ⟨s, hrun, hs⟩ := Option.map_eq_some_iff.mp hend
  simp only [Prod.mk.injEq, decide_eq_true_eq] at hs
  exact ⟨s, hrun, hs⟩

end Udipe

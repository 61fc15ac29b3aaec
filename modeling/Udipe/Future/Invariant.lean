import Udipe.Future.Count
import Udipe.Future.Inversion
import Udipe.Lib.Threads

/-!
# The invariant of every run

`Base ty` holds in every state that a future of type `ty` reaches: its word is consistent for the
type, every thread is at a point that the type allows and with a consistent copy of the word, the
debts of the threads are covered by `downstream_count`, and once a destroying call has started no
other thread is in a call. `base_of_run` is the run lemma.
-/

namespace Udipe

open Function Threads

variable {Tid P : Type} {n : ℕ}

/-- The thread is in a call that destroys the future. -/
def Pc.destroying : Pc P n → Bool
  | .cancelLoad fin | .cancelCas fin _ _ | .cancelLatch fin _ | .cancelWake fin _
  | .cancelTimer fin _ | .cancelReturn fin _ _ => fin
  | .finishLoad | .finishCas _ _ | .finishCollect _ _ | .finishUpstream _ _ | .finishDetach _ _ _
  | .finishLiberate _ _ => true
  | pc =>
    match pc.waitCall? with
    | some w =>
      match w.caller with
      | .finish _ => true
      | _ => false
    | none => false

/-! ## One step of a client -/

section

variable [DecidableEq Tid] {b : Build} {t : Tid} {o : Oracle Tid n} {sh sh' : Shared Tid P n}
  {pc pc' : Pc P n} {ty : FutureType}

omit [DecidableEq Tid] in
/-- The only eager type with an implementation. -/
theorem eq_custom_of_usesWorkerThread (himpl : ty.implemented = true)
    (h : ty.usesWorkerThread = true) : ty = .custom := by
  cases ty <;> simp_all [FutureType.implemented, FutureType.usesWorkerThread]

omit [DecidableEq Tid] in
/-- `future_wait_by_adress` returns to a thread that fits. -/
theorem fits_countedReturn {w : WaitCall} {s : FutureStatus} (h : ty = .custom ∨ ty = .join) :
    (countedReturn w s : Pc P n).Fits ty := by
  cases hp : w.policy <;> simp [countedReturn, hp, Pc.Fits, h]

omit [DecidableEq Tid] in
theorem fits_afterRelease {w : WaitCall} {s : FutureStatus} {outcome : FutureOutcome} :
    (afterRelease w s outcome : Pc P n).Fits .join := by
  unfold afterRelease
  split_ifs <;> simp [Pc.Fits]

omit [DecidableEq Tid] in
/-- The outcome of a batch stays one that the holder may publish. -/
theorem integrateUpstream_eq_ok {outcome upstream outcome' : FutureOutcome}
    (h : integrateUpstream b outcome upstream = .ok outcome') :
    upstream = .success ∧ outcome' = outcome ∨
      upstream ≠ .success ∧ upstream ≠ .unknown ∧ outcome' = .failureDependency := by
  cases upstream <;> simp only [integrateUpstream, Checked.bind_eq_ok, Checked.pure_eq_ok,
    reduceCtorEq] at h
  case success => exact .inl ⟨rfl, h.symm⟩
  all_goals
    obtain ⟨-, -, rfl⟩ := h
    simp

omit [DecidableEq Tid] in
theorem LocalMove.fits (h : LocalMove b t o sh pc pc') (hword : sh.word.Typed ty)
    (himpl : ty.implemented = true) (hfits : pc.Fits ty)
    (hsnap : ∀ l, pc.snapshot? = some l → l.Typed ty) : pc'.Fits ty := by
  have hty := hword.type
  cases h
  case waitEager hs hworker =>
    exact ⟨eq_custom_of_usesWorkerThread himpl (hty ▸ hworker), hs⟩
  case reloadReady => exact fits_countedReturn hfits
  case reloadAgain hs hlock =>
    refine ⟨hs, hfits.imp_right fun hjoin => ⟨hjoin, hlock ?_⟩⟩
    simp [hty, hjoin, FutureType.usesLazyLock]
  case addressChanged | addressWoken => exact hfits.2.imp_right And.left
  case measureDone => exact fits_countedReturn (hfits.2.imp_right And.left)
  case measureUnlocked htype hlock =>
    exact ⟨(hsnap _ rfl).type.symm.trans htype, hfits.1⟩
  case joinKnown hlock hl => exact ⟨hfits.2, .inr ⟨hfits.1, hlock⟩⟩
  case finishUpstreams htype =>
    obtain htype | htype := htype
    · exact hty.symm.trans htype
    · simp [← hty, htype, FutureType.implemented] at himpl
  all_goals simp_all [Pc.Fits]

theorem ClientStep.fits (h : ClientStep b t o sh pc sh' pc') (hword : sh.word.Typed ty)
    (himpl : ty.implemented = true) (hfits : pc.Fits ty)
    (hsnap : ∀ l, pc.snapshot? = some l → l.Typed ty) : pc'.Fits ty := by
  cases h
  case move hmove => exact hmove.fits hword himpl hfits hsnap
  case integrate hk =>
    refine ⟨hfits.1, ?_⟩
    obtain ⟨-, rfl⟩ | ⟨-, -, rfl⟩ := integrateUpstream_eq_ok hk
    · exact hfits.2
    · exact .inr rfl
  case release =>
    obtain rfl := hfits.1
    exact fits_afterRelease
  case cancel hk hpc =>
    obtain rfl : _ = ty := hfits
    obtain ⟨-, rfl⟩ | ⟨-, hjoin, rfl⟩ | ⟨-, htimer, rfl⟩ := afterCancel_eq_ok himpl hpc
    · trivial
    · exact hjoin
    · exact htimer
  case wakeSpurious => exact hfits.2.imp_right And.left
  case cancelLatch => split <;> simp_all [Pc.Fits]
  case finish => split <;> simp [Pc.Fits]
  all_goals simp_all [Pc.Fits, FutureStatus.registered, FutureStatus.inc]

/-- Each live copy of the word was the word at some time. -/
theorem ClientStep.snapshot (h : ClientStep b t o sh pc sh' pc') (himpl : ty.implemented = true)
    (hfits : pc.Fits ty) (howed : pc.owed ≤ sh.word.count) {l : FutureStatus}
    (hl : pc'.snapshot? = some l) :
    pc.snapshot? = some l ∨ l = sh.word ∨ l = sh'.word := by
  cases h
  case move hmove =>
    cases hmove
    case reloadReady w _ _ _ | measureDone w _ _ =>
      cases hp : w.policy <;> simp_all [countedReturn, WaitCall.policy, Pc.snapshot?]
    all_goals simp_all [Pc.snapshot?]
  case countDec | timerRevert =>
    simp only [Pc.snapshot?, Option.some.injEq] at hl
    exact .inr (.inr (by rw [← hl, FutureStatus.fetchSub_eq howed]))
  case timerInc ho hmax hs =>
    simp only [Pc.snapshot?, Option.some.injEq] at hl
    exact .inr (.inr (by rw [← hl, FutureStatus.fetchAdd_eq hmax]))
  case release =>
    unfold afterRelease at hl
    split_ifs at hl <;> simp_all [Pc.snapshot?]
  case cancel hk hpc =>
    obtain rfl : _ = ty := hfits
    obtain ⟨-, rfl⟩ | ⟨-, -, rfl⟩ | ⟨-, -, rfl⟩ := afterCancel_eq_ok himpl hpc <;>
      simp_all [Pc.snapshot?]
  case cancelLatch => split at hl <;> simp_all [Pc.snapshot?]
  case finish => split at hl <;> simp_all [Pc.snapshot?]
  all_goals simp_all [Pc.snapshot?]

/-- The word stays consistent for its type until the future is liberated. -/
theorem ClientStep.typed (h : ClientStep b t o sh pc sh' pc') (hword : sh.word.Typed ty)
    (himpl : ty.implemented = true) (hfits : pc.Fits ty)
    (ho : sh.word.downstreamCountOverflow = false) (howed : pc.owed ≤ sh.word.count)
    (hlib : sh'.liberated = false) : sh'.word.Typed ty := by
  have hsub : pc.owed = 1 → sh.word.fetchSub.Typed ty := fun h1 => by
    rw [FutureStatus.fetchSub_eq (h1 ▸ howed)]
    exact hword.dec
  cases h
  case eagerRegister | joinRegister => exact hword.registered
  case joinLock =>
    obtain rfl := hfits.1
    exact hword.locked
  case countDec | countDecFails | timerRevert | timerRevertFails => exact hsub rfl
  case release =>
    obtain ⟨rfl, hk⟩ := hfits
    exact hword.released hk
  case timerInc | timerIncReady | timerIncFails => exact hword.fetchAdd ho
  case publish =>
    obtain rfl : ty = .timerOnce := hfits
    exact hword.published
  case cancel | cancelFails =>
    obtain rfl : _ = ty := hfits
    exact hword.canceledAs himpl
  case finish => exact hword.unavailable
  case wakeOne => cases hw : o.wakee <;> simpa [wakeByAddressSingle] using hword
  case liberate | liberateFails => simp at hlib
  all_goals exact hword

/-- Only an addition can overflow the count, and then the process ends. -/
theorem ClientStep.overflow (h : ClientStep b t o sh pc sh' pc')
    (ho : sh.word.downstreamCountOverflow = false) (howed : pc.owed ≤ sh.word.count) :
    sh'.word.downstreamCountOverflow = false ∨ sh'.aborted.isSome := by
  have hsub : pc.owed = 1 → sh.word.fetchSub.downstreamCountOverflow = false := fun h1 => by
    rw [FutureStatus.fetchSub_eq (h1 ▸ howed)]
    exact ho
  cases h
  case countDec | timerRevert => exact .inl (hsub rfl)
  case timerInc hmax _ | timerIncReady hmax _ =>
    rw [FutureStatus.fetchAdd_eq hmax]
    exact .inl ho
  case wakeOne => cases hw : o.wakee <;> simpa [wakeByAddressSingle] using .inl ho
  case liberate => exact .inl rfl
  all_goals first | exact .inr rfl | exact .inl ho

/-- A thread stays in a destroying call until it is idle, and enters one only from the outside. -/
theorem ClientStep.destroying (h : ClientStep b t o sh pc sh' pc') (himpl : ty.implemented = true)
    (hfits : pc.Fits ty) (hd : pc'.destroying = true) : pc.destroying = true := by
  cases h
  case move hmove =>
    cases hmove
    case reloadReady w _ _ _ | measureDone w _ _ =>
      cases hp : w.policy <;>
        simp_all [countedReturn, WaitCall.policy, Pc.destroying, Pc.waitCall?]
    all_goals simp_all [Pc.destroying, Pc.waitCall?]
  case release w outcome _ _ =>
    unfold afterRelease at hd
    split_ifs at hd <;> simp_all [Pc.destroying, Pc.waitCall?]
  case cancel hk hpc =>
    obtain rfl : _ = ty := hfits
    obtain ⟨-, rfl⟩ | ⟨-, -, rfl⟩ | ⟨-, -, rfl⟩ := afterCancel_eq_ok himpl hpc <;>
      simp_all [Pc.destroying]
  case cancelLatch => split at hd <;> simp_all [Pc.destroying]
  all_goals simp_all [Pc.destroying, Pc.waitCall?]

/-- What a client never changes. -/
theorem ClientStep.frame (h : ClientStep b t o sh pc sh' pc') :
    sh'.downstreams = sh.downstreams ∧ sh'.finisher = sh.finisher ∧
      (sh'.liberated = false → sh.liberated = false) ∧
      (sh'.liberated = true → sh.liberated = true ∨ ∃ f r, pc = .finishLiberate f r ∧ pc' = .idle) := by
  cases h
  case wakeOne => cases hw : o.wakee <;> simp [wakeByAddressSingle, or_iff_not_imp_left]
  all_goals simp_all [wakeByAddressAll]

/-- A step that ends the process leaves the thread nowhere. -/
theorem ClientStep.aborted (h : ClientStep b t o sh pc sh' pc') (himpl : ty.implemented = true)
    (hfits : pc.Fits ty) :
    sh'.aborted = sh.aborted ∨ pc' = .idle ∧ ∃ f, sh'.aborted = some f ∧ f ≠ .finishedInUse := by
  cases h
  case countDecFails hf | timerIncFails hf | timerRevertFails hf | detachFails hf =>
    exact .inr ⟨rfl, _, rfl, hf.1⟩
  case liberateFails => exact .inr ⟨rfl, _, rfl, by simp⟩
  case cancelFails hpc =>
    obtain rfl : _ = ty := hfits
    exact absurd hpc (afterCancel_ne_error himpl)
  case wakeOne => cases hw : o.wakee <;> simp [wakeByAddressSingle]
  all_goals exact .inl rfl

end

/-- What the worker never changes. -/
theorem WorkerStep.frame {b : Build} {o : Oracle Tid n} {sh sh' : Shared Tid P n}
    {pc pc' : WorkerPc P} (h : WorkerStep b o sh pc sh' pc') :
    sh'.downstreams = sh.downstreams ∧ sh'.finisher = sh.finisher ∧
      sh'.liberated = sh.liberated ∧ sh'.aborted = sh.aborted ∧ sh'.log = sh.log ∧
      sh'.upstream = sh.upstream ∧ sh'.detached = sh.detached := by
  cases h
  case notifyAddress | notifyEvent => split <;> simp [wakeByAddressAll]
  all_goals simp

/-- A process that has ended makes no step. -/
theorem aborted_eq_none_of_step [DecidableEq Tid] [Fintype Tid] {b : Build}
    {s s' : State Tid P n} {e : Event Tid P n} (h : step b s e = some s') :
    s.shared.aborted = none := by
  by_contra hne
  have hsome : s.shared.aborted.isSome = true := by
    simpa [Option.isSome_iff_ne_none] using hne
  simp [step, hsome] at h

/-- A run that has not ended the process never did. -/
theorem along_alive [DecidableEq Tid] [Fintype Tid] {b : Build} {s s' : State Tid P n}
    {es : List (Event Tid P n)} (h : (future b).run s es = some s')
    (halive : s'.shared.aborted = none) :
    (future b).Along (fun _ _ t => t.shared.aborted = none) s es := by
  induction es generalizing s with
  | nil => trivial
  | cons e es ih =>
      intro t ht
      obtain ⟨t', ht', hrest⟩ := (Machine.run_cons_eq_some _).mp h
      obtain rfl : t = t' := Option.some.inj (ht.symm.trans ht')
      refine ⟨?_, ih hrest⟩
      cases es with
      | nil =>
          obtain rfl : t = s' := by simpa using hrest
          exact halive
      | cons e' es =>
          obtain ⟨_, hnext, -⟩ := (Machine.run_cons_eq_some _).mp hrest
          exact aborted_eq_none_of_step hnext

/-! ## Every state of a run -/

variable [DecidableEq Tid] [Fintype Tid]

omit [DecidableEq Tid] in
/-- The invariant of every run of a future of type `ty`. -/
structure Base (ty : FutureType) (s : State Tid P n) : Prop where
  typed : s.shared.liberated = false → s.shared.word.Typed ty
  overflow : s.shared.word.downstreamCountOverflow = false ∨ s.shared.aborted.isSome
  count : s.shared.word.downstreamCountOverflow = false → s.shared.liberated = false →
    s.shared.downstreams + ∑ u, (s.pc u).owed ≤ s.shared.word.count
  fits : ∀ u, (s.pc u).Fits ty
  snapshot : ∀ u l, (s.pc u).snapshot? = some l → l.Typed ty
  destroying : ∀ u, (s.pc u).destroying = true → s.shared.finisher = some u
  alone : ∀ t, s.shared.finisher = some t →
    s.shared.downstreams = 0 ∧ ∀ u, u ≠ t → s.pc u = .idle
  liberated : s.shared.liberated = true → s.shared.finisher.isSome ∧ ∀ u, s.pc u = .idle
  worker : ty ≠ .custom → s.worker = .absent

namespace Base

variable {b : Build} {ty : FutureType} {s s' : State Tid P n} {t : Tid} {o : Oracle Tid n}

omit [DecidableEq Tid] in
/-- A future with a thread in a call is not liberated. -/
theorem liberated_eq_false (h : Base ty s) (hidle : s.pc t ≠ .idle) : s.shared.liberated = false := by
  by_contra hlib
  exact hidle ((h.liberated (by simpa using hlib)).2 t)

omit [DecidableEq Tid] in
/-- A future that nobody destroys is not liberated. -/
theorem liberated_of_finisher (h : Base ty s) (hnone : s.shared.finisher = none) :
    s.shared.liberated = false := by
  by_contra hl
  simpa [hnone] using (h.liberated (by simpa using hl)).1

omit [DecidableEq Tid] in
/-- A future with a downstream future is not being destroyed. -/
theorem finisher_of_downstreams (h : Base ty s) (hd : 1 ≤ s.shared.downstreams) :
    s.shared.finisher = none := by
  cases hfin : s.shared.finisher with
  | none => rfl
  | some t => exact absurd (h.alone t hfin).1 (by omega)

omit [DecidableEq Tid] in
theorem owed_le (h : Base ty s) (ho : s.shared.word.downstreamCountOverflow = false)
    (hidle : s.pc t ≠ .idle) : (s.pc t).owed ≤ s.shared.word.count :=
  (le_sum Pc.owed s.pc t).trans
    ((Nat.le_add_left _ _).trans (h.count ho (h.liberated_eq_false hidle)))

omit [DecidableEq Tid] in
theorem overflow_eq_false (h : Base ty s) (hrun : s.shared.aborted = none) :
    s.shared.word.downstreamCountOverflow = false :=
  h.overflow.resolve_right (by simp [hrun])

omit [DecidableEq Tid] in
/-- A downstream future that detaches is counted. -/
theorem fetchSub_eq (h : Base ty s) (hrun : s.shared.aborted = none)
    (hd : 1 ≤ s.shared.downstreams) :
    1 ≤ s.shared.word.count ∧ s.shared.word.fetchSub = s.shared.word.dec .cycle := by
  have hcount := h.count (h.overflow_eq_false hrun)
    (h.liberated_of_finisher (h.finisher_of_downstreams hd))
  have hpos : 1 ≤ s.shared.word.count := by omega
  exact ⟨hpos, FutureStatus.fetchSub_eq hpos⟩

/-- The step lemma for clients. -/
theorem client (h : Base ty s) (himpl : ty.implemented = true)
    (hrun : s.shared.aborted = none) (hidle : s.pc t ≠ .idle) {sh' : Shared Tid P n}
    {pc' : Pc P n} (hstep : ClientStep b t o s.shared (s.pc t) sh' pc') :
    Base ty { s with shared := sh', pc := update s.pc t pc' } := by
  have hlib := h.liberated_eq_false hidle
  have hword := h.typed hlib
  have ho := h.overflow_eq_false hrun
  have howed := h.owed_le ho hidle
  obtain ⟨hdown, hfin, -, hlib'⟩ := hstep.frame
  refine ⟨fun hl => hstep.typed hword himpl (h.fits t) ho howed hl, hstep.overflow ho howed,
    fun ho' hl => ?_, ?_, ?_, ?_, ?_, fun hl => ?_, h.worker⟩
  · obtain ⟨k, hk, -⟩ := hstep.count hword himpl (h.fits t) (h.snapshot t) ho howed ho' hl
    have hsum := sum_update Pc.owed s.pc t pc'
    have hcount := h.count ho hlib
    simp only [hdown]
    omega
  · exact forall_update (P := fun _ (pc : Pc P n) => pc.Fits ty)
      (hstep.fits hword himpl (h.fits t) (h.snapshot t)) fun u _ => h.fits u
  · refine forall_update (P := fun _ (pc : Pc P n) => ∀ l, pc.snapshot? = some l → l.Typed ty)
      (fun l hl => ?_) fun u _ => h.snapshot u
    obtain hold | rfl | rfl := hstep.snapshot himpl (h.fits t) howed hl
    · exact h.snapshot t l hold
    · exact hword
    · refine hstep.typed hword himpl (h.fits t) ho howed ?_
      by_contra hl'
      obtain hl' | ⟨f, r, -, rfl⟩ := hlib' (by simpa using hl')
      · simp [hlib] at hl'
      · simp [Pc.snapshot?] at hl
  · refine forall_update (P := fun u (pc : Pc P n) => pc.destroying = true → sh'.finisher = some u)
      (fun hd => ?_) fun u _ hd => hfin ▸ h.destroying u hd
    exact hfin ▸ h.destroying t (hstep.destroying himpl (h.fits t) hd)
  · intro v hv
    obtain ⟨hzero, halone⟩ := h.alone v (hfin ▸ hv)
    refine ⟨hdown.trans hzero, fun u huv => ?_⟩
    have htv : t = v := by
      by_contra htv
      exact hidle (halone t htv)
    exact (update_of_ne (htv ▸ huv) _ _).trans (halone u huv)
  · obtain hl | ⟨f, r, hpc, rfl⟩ := hlib' hl
    · simp [hlib] at hl
    · have hfinisher : s.shared.finisher = some t := h.destroying t (by simp [hpc, Pc.destroying])
      refine ⟨by simp [hfin, hfinisher], fun u => ?_⟩
      rcases eq_or_ne u t with rfl | hut
      · simp
      · simpa [update_of_ne hut] using (h.alone t hfinisher).2 u hut

/-- A call starts. -/
theorem call (h : Base ty s) {c : Call} (hidle : s.pc t = .idle) (hc : c.allowed s = true) :
    Base ty { s with
      shared := { s.shared with finisher := if c.destroys then some t else s.shared.finisher }
      pc := update s.pc t c.start } := by
  have hnone : s.shared.finisher = none := by
    simpa [Call.allowed] using (Bool.and_eq_true_iff.mp hc).1
  have hlib := h.liberated_of_finisher hnone
  have hdestroys : c.destroys = true → s.shared.downstreams = 0 ∧ ∀ u, s.pc u = .idle := by
    intro hd
    cases c with
    | cancel fin =>
        obtain rfl : fin = true := hd
        simpa [Call.allowed, hnone] using hc
    | finish => simpa [Call.allowed, hnone] using hc
    | _ => simp [Call.destroys] at hd
  have howed : (c.start : Pc P n).owed = 0 := by cases c <;> rfl
  have hstart : (c.start : Pc P n).destroying = true → c.destroys = true := by
    cases c <;> simp [Call.start, Pc.destroying, Pc.waitCall?, Call.destroys]
  refine ⟨h.typed, h.overflow, fun ho hl => ?_, ?_, ?_, ?_, fun v hv => ?_, fun hl => ?_,
    h.worker⟩
  · have hsum := sum_update Pc.owed s.pc t c.start
    have hcount := h.count ho hlib
    simp only [hidle, howed, Pc.owed_idle, add_zero] at hsum
    simpa [hsum] using hcount
  · exact forall_update (P := fun _ (pc : Pc P n) => pc.Fits ty)
      (by cases c <;> trivial) fun u _ => h.fits u
  · exact forall_update (P := fun _ (pc : Pc P n) => ∀ l, pc.snapshot? = some l → l.Typed ty)
      (by cases c <;> simp [Call.start, Pc.snapshot?]) fun u _ => h.snapshot u
  · refine forall_update (P := fun u (pc : Pc P n) => pc.destroying = true →
      (if c.destroys then some t else s.shared.finisher) = some u) (fun hd => ?_) fun u _ hd => ?_
    · simp [hstart hd]
    · exact absurd (h.destroying u hd) (by simp [hnone])
  · cases hd : c.destroys with
    | true =>
        obtain ⟨hzero, hall⟩ := hdestroys hd
        obtain rfl : t = v := by simpa [hd] using hv
        exact ⟨hzero, fun u hut => (update_of_ne hut _ _).trans (hall u)⟩
    | false => simp [hd, hnone] at hv
  · exact absurd hl (by simp [hlib])

omit [DecidableEq Tid] in
/-- The worker moves. -/
theorem workerMove (h : Base ty s) {w w' : WorkerPc P} (hw : s.worker = w)
    {sh' : Shared Tid P n} (hstep : WorkerStep b o s.shared w sh' w') :
    Base ty { s with shared := sh', worker := w' } := by
  obtain rfl : ty = .custom := by
    by_contra hty
    rw [hw.symm.trans (h.worker hty)] at hstep
    cases hstep
  obtain ⟨hdown, hfin, hlib, haborted, -⟩ := hstep.frame
  have hcounted : sh'.word.count = s.shared.word.count ∧
      sh'.word.downstreamCountOverflow = s.shared.word.downstreamCountOverflow := by
    cases hstep
    case notifyAddress | notifyEvent => split <;> simp [wakeByAddressAll]
    all_goals simp [FutureStatus.succeeded, FutureStatus.acknowledged, FutureStatus.count]
  obtain ⟨hcount, ho⟩ := hcounted
  refine ⟨fun hl => ?_, ?_, fun ho' hl => ?_, h.fits, h.snapshot, fun u hd => ?_, fun v hv => ?_,
    fun hl => ?_, fun hne => absurd rfl hne⟩
  · have hword := h.typed (hlib ▸ hl)
    cases hstep
    case set => exact hword.succeeded
    case ack hs => exact hword.acknowledged hs
    case notifyAddress | notifyEvent => split <;> exact hword
    all_goals exact hword
  · simpa only [ho, haborted] using h.overflow
  · simpa only [hdown, hcount] using h.count (ho ▸ ho') (hlib ▸ hl)
  · exact hfin ▸ h.destroying u hd
  · simpa only [hdown] using h.alone v (hfin ▸ hv)
  · simpa only [hfin] using h.liberated (hlib ▸ hl)

omit [DecidableEq Tid] in
/-- A downstream future detaches. -/
theorem detach (h : Base ty s) (hrun : s.shared.aborted = none)
    (hd : 1 ≤ s.shared.downstreams) (a : Option Failure) :
    Base ty { s with shared := { s.shared with
      word := s.shared.word.fetchSub
      downstreams := s.shared.downstreams - 1
      aborted := a } } := by
  have hnone := h.finisher_of_downstreams hd
  have hlib := h.liberated_of_finisher hnone
  have ho := h.overflow_eq_false hrun
  have hcount := h.count ho hlib
  obtain ⟨hpos, heq⟩ := h.fetchSub_eq hrun hd
  have hsub := FutureStatus.count_fetchSub hpos
  refine ⟨fun _ => ?_, .inl ?_, fun _ _ => ?_, h.fits, h.snapshot, h.destroying, fun t ht => ?_,
    fun hl => ?_, h.worker⟩
  · exact heq ▸ (h.typed hlib).dec
  · exact heq ▸ ho
  · simp only
    omega
  · exact absurd ht (by simp [hnone])
  · exact absurd hl (by simp [hlib])

omit [DecidableEq Tid] in
/-- What the invariant does not look at. -/
theorem congr (h : Base ty s) (hword : s'.shared.word = s.shared.word)
    (hdown : s'.shared.downstreams = s.shared.downstreams)
    (hfin : s'.shared.finisher = s.shared.finisher)
    (hlib : s'.shared.liberated = s.shared.liberated)
    (haborted : s.shared.aborted.isSome → s'.shared.aborted.isSome) (hpc : s'.pc = s.pc)
    (hworker : s.worker = .absent → s'.worker = .absent) : Base ty s' := by
  refine ⟨?_, ?_, ?_, ?_, ?_, ?_, ?_, ?_, fun hne => hworker (h.worker hne)⟩
  · simpa only [hword, hlib] using h.typed
  · simpa only [hword] using h.overflow.imp_right haborted
  · simpa only [hword, hlib, hdown, hpc] using h.count
  · simpa only [hpc] using h.fits
  · simpa only [hpc] using h.snapshot
  · simpa only [hpc, hfin] using h.destroying
  · simpa only [hpc, hfin, hdown] using h.alone
  · simpa only [hpc, hfin, hlib] using h.liberated

/-- The step lemma. -/
theorem step (h : Base ty s) (himpl : ty.implemented = true) {e : Event Tid P n}
    (hstep : Udipe.step b s e = some s') : Base ty s' := by
  have hrun := aborted_eq_none_of_step hstep
  cases step_cases hstep with
  | call hidle hc => exact h.call hidle hc
  | client hpc hidle _ _ hclient =>
      subst hpc
      exact h.client himpl hrun hidle hclient
  | workerCanceled hw | workerAcknowledge hw | workerSet hw =>
      exact h.congr rfl rfl rfl rfl id rfl (by simp [hw])
  | worker hw hworker => exact h.workerMove hw hworker
  | clientFails | workerFails => exact h.congr rfl rfl rfl rfl (fun _ => rfl) rfl id
  | timerExpires | upstreamChanges => exact h.congr rfl rfl rfl rfl id rfl id
  | downstreamDetaches hd => exact h.detach hrun hd s.shared.aborted
  | downstreamFails _ hd => exact h.detach hrun hd _

end Base

/-! ## Runs -/

namespace FutureStatus

variable {status : FutureStatus}

theorem startable_implemented (h : status.startable = true) :
    status.type.implemented = true := by
  cases hty : status.type <;> simp_all [startable, FutureType.implemented]

theorem startable_debugCheck (h : status.startable = true) : status.debugCheck true = true := by
  simp only [startable, Bool.and_eq_true] at h
  exact h.1.1

theorem startable_available (h : status.startable = true) : status.available = true := by
  simp only [startable, Bool.and_eq_true] at h
  exact h.1.2

end FutureStatus

variable {b : Build} {status : FutureStatus} {payload : P} {upstream : Fin n → FutureStatus}
  {s : State Tid P n} {es : List (Event Tid P n)}

omit [DecidableEq Tid] in
theorem base_start (h : status.startable = true) :
    Base status.type (State.start status payload upstream : State Tid P n) := by
  have hcheck := FutureStatus.startable_debugCheck h
  have htyped := FutureStatus.typed_of_debugCheck hcheck
  have ho := (htyped.debugCheck_iff (FutureStatus.startable_implemented h)).mp hcheck
  refine ⟨fun _ => htyped, .inl ho.1, fun _ _ => ?_, fun _ => trivial, fun _ _ hl => ?_,
    fun _ hd => ?_, fun _ hf => ?_, fun hl => ?_, fun hne => ?_⟩
  · simp [State.start, FutureStatus.count]
  · simp [State.start, Pc.snapshot?] at hl
  · simp [State.start, Pc.destroying, Pc.waitCall?] at hd
  · simp [State.start] at hf
  · simp [State.start] at hl
  · have hworker : status.type.usesWorkerThread = false := by
      have himpl := FutureStatus.startable_implemented h
      by_contra hw
      exact hne (eq_custom_of_usesWorkerThread himpl (by simpa using hw))
    simp [State.start, hworker]

/-- The run lemma. -/
theorem base_of_run (h : status.startable = true)
    (hrun : (future b).run (State.start status payload upstream) es = some s) :
    Base status.type s :=
  Machine.invariant_of_run (M := future b)
    (fun _ _ _ hI hstep => Base.step hI (FutureStatus.startable_implemented h) hstep)
    (base_start h) hrun

end Udipe

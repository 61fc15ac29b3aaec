import Udipe.Future.Conservation
import Udipe.Future.Lifetime

/-!
# Every stored word is well-formed

Reference: `future/status_ops.c` (`future_status_debug_check`).

The words stored by the future operations all pass `future_status_debug_check(status, true)`, unless
one of two steps is made (`Malforms`): `future_downstream_count_try_inc` adds one to a count that is at
its maximum before it looks at it, and with assertions compiled out `future_finish` clears `available`
without looking at the count. Both need a count that some earlier wait forgot.
-/

namespace Udipe

open Function Threads

variable {Tid P : Type} {n : ℕ} {ty : FutureType} {b : Build}

/-- The step of a thread at this point stores a malformed word. -/
def Pc.malforms (b : Build) (sh : Shared Tid P n) (o : Oracle Tid n) : Pc P n → Prop
  | timerInc _ _ => sh.word.downstreamCount = FutureStatus.maxDownstreamCount
  | finishCas _ latest =>
      b.assertions = false ∧ sh.word = latest ∧ o.spurious = false ∧ sh.word.downstreamCount ≠ 0
  | _ => False

/-- The event stores a malformed word. -/
def Malforms (b : Build) (s : State Tid P n) : Event Tid P n → Prop
  | .client t o => (s.pc t).malforms b s.shared o
  | _ => False

instance (pc : Pc P n) (sh : Shared Tid P n) (o : Oracle Tid n) :
    Decidable (pc.malforms b sh o) := by
  cases pc <;> unfold Pc.malforms <;> infer_instance

instance (s : State Tid P n) : (e : Event Tid P n) → Decidable (Malforms b s e)
  | .client t o => inferInstanceAs (Decidable ((s.pc t).malforms b s.shared o))
  | .call _ _ | .workerCall _ | .worker _ | .timerExpires | .upstreamChanges _ _
  | .downstreamDetaches => inferInstanceAs (Decidable False)

/-- The users of the future: its downstream futures and the threads in `udipe_wait`. -/
def State.users [Fintype Tid] (s : State Tid P n) : ℕ :=
  s.shared.downstreams + ∑ u, (s.pc u).inWait.toNat

/-- The worker may still access the status word. -/
def WorkerPc.active : WorkerPc P → Bool
  | .absent | .notifyAddress _ _ | .notifyEvent _ _ | .done _ => false
  | _ => true

/-- The worker's copy of the status word. -/
def WorkerPc.snapshot? : WorkerPc P → Option FutureStatus
  | .setCheck _ _ _ s | .setCas _ _ s | .ackCas _ s => some s
  | _ => none

/-- The thread is past the wait of `future_finish`. -/
def Pc.collecting : Pc P n → Bool
  | .finishCollect _ _ | .finishUpstream _ _ | .finishDetach _ _ _ | .finishLiberate _ _ => true
  | _ => false

/-! ## The count and its flags -/

namespace FutureStatus

variable {s : FutureStatus} {p : DownstreamCountPolicy}

/-- The part of the check about the count. -/
structure CountOk (s : FutureStatus) : Prop where
  overflow : s.downstreamCountOverflow = false
  available : s.downstreamCount = 0 ∨ s.available = true

theorem Typed.check_iff (h : s.Typed ty) (himpl : ty.implemented = true) :
    s.debugCheck true = true ↔ s.CountOk := by
  rw [h.debugCheck_iff himpl]
  exact ⟨fun h => ⟨h.1, h.2⟩, fun h => ⟨h.1, h.2⟩⟩

/-- A word that is well-formed passes its check; without assertions there is no check. -/
theorem check_eq_ok (h : b.assertions = true → s.debugCheck true = true) : s.check b = .ok () :=
  Checked.assertion_eq_ok.mpr h

/-- A future that is in use is available. -/
theorem CountOk.available_of_pos (h : s.CountOk) (hpos : 1 ≤ s.count) : s.available = true :=
  h.available.resolve_left fun hz => by simp [count_eq_zero.mpr hz] at hpos

theorem CountOk.inc (h : s.CountOk) (ha : p = .cycle → s.available = true) : (s.inc p).CountOk := by
  refine ⟨h.overflow, ?_⟩
  cases p with
  | cycle => exact .inr (ha rfl)
  | keep => simpa [FutureStatus.inc, DownstreamCountPolicy.delta] using h.available

theorem CountOk.dec (h : s.CountOk) (hpos : p = .cycle → 1 ≤ s.count) : (s.dec p).CountOk := by
  refine ⟨h.overflow, ?_⟩
  cases p with
  | cycle => exact .inr (h.available_of_pos (hpos rfl))
  | keep => simpa [FutureStatus.dec, DownstreamCountPolicy.delta] using h.available

theorem one_le_count (h : s.downstreamCount ≠ 0) : 1 ≤ s.count :=
  Nat.one_le_iff_ne_zero.mpr fun hz => h (count_eq_zero.mp hz)

end FutureStatus

/-! ## One step -/

/-- A compare-exchange with the current word succeeds. -/
theorem compareExchangeWeak_current {o : Oracle Tid n} {word desired : FutureStatus}
    (ho : o.spurious = false) (hword : b.assertions = true → word.debugCheck true = true)
    (hdesired : b.assertions = true → desired.debugCheck true = true) :
    compareExchangeWeak b o word word desired = .ok .swapped := by
  simp [compareExchangeWeak, FutureStatus.check_eq_ok hword, FutureStatus.check_eq_ok hdesired, ho,
    Bind.bind, Except.bind, Pure.pure, Except.pure]

/-- A thread owes at most one decrement, and only in `udipe_wait`. -/
theorem Pc.owed_le_inWait {pc : Pc P n} (hfits : pc.Fits ty) : pc.owed ≤ pc.inWait.toNat := by
  have hweight : ∀ p : DownstreamCountPolicy, p.weight ≤ 1 := by
    intro p
    cases p <;> simp
  cases hw : pc.inWait with
  | false => simp [Pc.owed_eq_zero hfits hw]
  | true => cases pc <;> simp [Pc.owed, hweight]

theorem Pc.inWait_of_cycle {pc : Pc P n} {w : WaitCall} (hw : pc.waitCall? = some w)
    (hp : w.policy = .cycle) : pc.inWait = true := by
  simp [inWait, hw, WaitCall.policy_eq_cycle_iff.mp hp]

section

variable [DecidableEq Tid] {t : Tid} {o : Oracle Tid n} {sh sh' : Shared Tid P n}
  {pc pc' : Pc P n}

/-- The count of the word stays well-formed, except at the steps that `Malforms` describes. -/
theorem ClientStep.countOk (h : ClientStep b t o sh pc sh' pc') (hok : sh.word.CountOk)
    (hfits : pc.Fits ty) (howed : pc.owed ≤ sh.word.count)
    (hwait : pc.inWait = true → sh.word.available = true)
    (hinc : ∀ w l, pc = .timerInc w l → sh.word.downstreamCount ≠ FutureStatus.maxDownstreamCount)
    (hfinish : ∀ f, pc = .finishCas f sh.word → o.spurious = false → b.assertions = false →
      sh.word.downstreamCount = 0)
    (hlib : sh'.liberated = false) : sh'.word.CountOk := by
  have hcycle : ∀ w, pc.waitCall? = some w → w.policy = .cycle → sh.word.available = true :=
    fun w hw hp => hwait (Pc.inWait_of_cycle hw hp)
  have hsub : pc.owed = 1 → sh.word.fetchSub.CountOk := fun h1 => by
    rw [FutureStatus.fetchSub_eq (h1 ▸ howed)]
    exact hok.dec fun _ => h1 ▸ howed
  have hadd : ∀ w l, pc = .timerInc w l → sh.word.fetchAdd.CountOk := fun w l hpc => by
    subst hpc
    rw [FutureStatus.fetchAdd_eq (hinc w l rfl)]
    exact hok.inc fun _ => hcycle w rfl hfits.2
  cases h
  case eagerRegister w _ _ | joinRegister w _ _ _ _ | joinLock w _ _ _ _ =>
    exact ⟨hok.overflow, (hok.inc (hcycle w rfl)).available⟩
  case countDec | countDecFails | timerRevert | timerRevertFails => exact hsub rfl
  case timerInc | timerIncReady | timerIncFails => exact hadd _ _ rfl
  case release hcount | publish hcount =>
    exact ⟨hok.overflow,
      (hok.dec fun hp => FutureStatus.one_le_count (hcount hp)).available⟩
  case finish f hspurious hcount _ =>
    refine ⟨hok.overflow, .inl ?_⟩
    cases hb : b.assertions with
    | true => exact hcount hb
    | false => exact hfinish f rfl hspurious hb
  case cancel | cancelFails => exact ⟨hok.overflow, hok.available⟩
  case wakeOne => cases hw : o.wakee <;> simpa [wakeByAddressSingle] using hok
  case liberate | liberateFails => simp at hlib
  all_goals exact hok

/-- A thread that collects has seen the final state. -/
theorem ClientStep.collecting (h : ClientStep b t o sh pc sh' pc') (himpl : ty.implemented = true)
    (hfits : pc.Fits ty) (hb : b.assertions = true) (hc : pc'.collecting = true) :
    pc.collecting = true ∨ sh'.word.state = .result ∨
      ∃ l, pc.snapshot? = some l ∧ l.state = .result := by
  cases h
  case move hmove =>
    cases hmove
    case finishWaited hs => exact .inr (.inr ⟨_, rfl, hs hb⟩)
    case reloadReady w _ _ _ | measureDone w _ _ =>
      cases hp : w.policy <;> simp_all [countedReturn, WaitCall.policy, Pc.collecting]
    all_goals simp_all [Pc.collecting]
  case release =>
    unfold afterRelease at hc
    split_ifs at hc <;> simp [Pc.collecting] at hc
  case cancel hk hpc =>
    obtain rfl : _ = ty := hfits
    obtain ⟨-, rfl⟩ | ⟨-, -, rfl⟩ | ⟨-, -, rfl⟩ := afterCancel_eq_ok himpl hpc <;>
      simp [Pc.collecting] at hc
  case cancelLatch => split at hc <;> simp [Pc.collecting] at hc
  case finish =>
    split at hc
    · exact .inr (.inl ‹_›)
    · simp [Pc.collecting] at hc
  all_goals simp_all [Pc.collecting]

/-- A step stops at a failed check only if it met a malformed word. -/
theorem ClientStep.checked (h : ClientStep b t o sh pc sh' pc') (himpl : ty.implemented = true)
    (hfits : pc.Fits ty) (howed : pc.owed ≤ sh.word.count) (ha : sh.aborted = none)
    (hinc : ∀ w l, pc = .timerInc w l → sh.word.downstreamCount ≠ FutureStatus.maxDownstreamCount)
    (hcheck : sh.word.debugCheck true = true)
    (hcheck' : sh'.liberated = false → sh'.word.debugCheck true = true)
    (hlib : sh.liberated = false)
    (hup : ∀ f r (i : Fin n), pc = .finishDetach f r i → (sh.upstream i).Counted) :
    sh'.aborted ≠ some .statusCheck := by
  have hfetch : ∀ {s s' : FutureStatus} {f : Failure}, FetchFailure b s s' f →
      s.debugCheck true = true → s'.debugCheck true = true → f ≠ .statusCheck := by
    intro s s' f hf hs hs' heq
    obtain ⟨-, hbad | hbad⟩ := hf.2 heq
    · simp [hs] at hbad
    · simp [hs'] at hbad
  cases h
  case countDecFails hf | timerRevertFails hf =>
    have hnew := hcheck' hlib
    simp only [FutureStatus.fetchSub_eq howed] at hnew
    simpa using hfetch hf hcheck hnew
  case timerIncFails hf =>
    have hnew := hcheck' hlib
    simp only [FutureStatus.fetchAdd_eq (hinc _ _ rfl)] at hnew
    simpa using hfetch hf hcheck hnew
  case detachFails i hf =>
    have hcounted := hup _ _ i rfl
    simpa using hfetch hf hcounted.1 hcounted.dec
  case cancelFails hpc =>
    obtain rfl : _ = ty := hfits
    exact absurd hpc (afterCancel_ne_error himpl)
  case liberateFails => simp
  case wakeOne => cases hw : o.wakee <;> simp [wakeByAddressSingle, ha]
  all_goals simp [wakeByAddressAll, ha]

/-- A client changes an upstream only when it detaches it. -/
theorem ClientStep.upstream (h : ClientStep b t o sh pc sh' pc') {i : Fin n}
    (hi : sh'.detached i = 0) : sh.detached i = 0 ∧ sh'.upstream i = sh.upstream i := by
  cases h
  case detach j | detachFails j _ =>
    rcases eq_or_ne i j with rfl | hij
    · simp at hi
    · simpa [update_of_ne hij] using hi
  case wakeOne => cases hw : o.wakee <;> simpa [wakeByAddressSingle, hw] using hi
  all_goals exact ⟨hi, rfl⟩

/-- What a client can do to the state and outcome of a custom future: cancel it. -/
theorem ClientStep.custom (h : ClientStep b t o sh pc sh' pc') (hfits : pc.Fits .custom)
    (howed : pc.owed ≤ sh.word.count) (hlib : sh'.liberated = false) :
    sh'.word.state = sh.word.state ∧ sh'.word.outcome = sh.word.outcome ∨
      ∃ fin, pc = .cancelCas fin .custom sh.word ∧ sh.word.outcome = .unknown ∧
        sh'.word = sh.word.canceledAs .custom ∧
        pc' = .cancelReturn fin true (sh.word.canceledAs .custom) := by
  have hsub : pc.owed = 1 → sh.word.fetchSub.state = sh.word.state ∧
      sh.word.fetchSub.outcome = sh.word.outcome := fun h1 => by
    rw [FutureStatus.fetchSub_eq (h1 ▸ howed)]
    exact ⟨rfl, rfl⟩
  cases h
  case countDec | countDecFails | timerRevert | timerRevertFails => exact .inl (hsub rfl)
  case release | publish | timerInc | timerIncReady | timerIncFails => simp [Pc.Fits] at hfits
  case cancel hk hpc =>
    obtain rfl : _ = FutureType.custom := hfits
    obtain ⟨-, rfl⟩ | ⟨-, hty, -⟩ | ⟨-, hty, -⟩ := afterCancel_eq_ok rfl hpc
    · exact .inr ⟨_, rfl, hk, rfl, rfl⟩
    · simp at hty
    · simp at hty
  case cancelFails hk hpc =>
    obtain rfl : _ = FutureType.custom := hfits
    exact absurd hpc (afterCancel_ne_error rfl)
  case wakeOne => cases hw : o.wakee <;> exact .inl ⟨rfl, rfl⟩
  case liberate | liberateFails => simp at hlib
  all_goals exact .inl ⟨rfl, rfl⟩

omit [DecidableEq Tid] in
/-- What the worker does to the word. -/
theorem WorkerStep.word {pc pc' : WorkerPc P} (h : WorkerStep b o sh pc sh' pc') :
    (sh'.word = sh.word ∨ (sh'.word = sh.word.succeeded ∨ sh'.word = sh.word.acknowledged) ∧
      pc'.active = false) ∧ (pc'.active = true → pc.active = true) ∧
    ∀ l, pc'.snapshot? = some l → pc.snapshot? = some l ∨ l = sh.word ∧ pc.active = true := by
  cases h
  case set | ack =>
    unfold futureNotifyEagerOutcome
    split <;> simp [WorkerPc.active, WorkerPc.snapshot?]
  case notifyAddress | notifyEvent =>
    split <;> simp [WorkerPc.active, WorkerPc.snapshot?, wakeByAddressAll]
  all_goals simp [WorkerPc.active, WorkerPc.snapshot?, eq_comm]

end

/-! ## The invariant -/

/-- Every word in use is well-formed. The last three fields concern the worker, which may use the future
until it has completed it. -/
structure Wellformed (b : Build) (s : State Tid P n) : Prop where
  count : s.shared.liberated = false → s.shared.word.CountOk
  snapshot : ∀ u l, (s.pc u).snapshot? = some l → l.CountOk
  counted : ∀ u, (s.pc u).inWait = true → ∀ l, (s.pc u).snapshot? = some l → l.available = true
  checked : s.shared.aborted ≠ some .statusCheck
  upstream : ∀ i, s.shared.detached i = 0 → (s.shared.upstream i).Counted
  collecting : b.assertions = true → s.shared.liberated = false → ∀ u,
    (s.pc u).collecting = true → s.shared.word.state = .result
  worker : s.worker.active = true → s.shared.liberated = false → s.shared.word.state ≠ .result
  workerLive : b.assertions = true → s.worker.active = true → s.shared.liberated = false
  workerSnapshot : b.assertions = true → ∀ l, s.worker.snapshot? = some l →
    l.CountOk ∧ l.Typed .custom

variable [DecidableEq Tid] [Fintype Tid] {s s' : State Tid P n} {t : Tid} {o : Oracle Tid n}
  {e : Event Tid P n}

omit [DecidableEq Tid] in
/-- While a thread waits, the future is available. -/
theorem Lifetime.available_of_inWait (h : Lifetime ty s) (hbase : Base ty s)
    (hw : (s.pc t).inWait = true) : s.shared.word.available = true := by
  refine h.available ?_
  cases hfin : s.shared.finisher with
  | none => rfl
  | some v =>
      exfalso
      have hidle : s.pc t ≠ .idle := fun hpc => by simp [hpc, Pc.inWait, Pc.waitCall?] at hw
      obtain rfl : t = v := by
        by_contra hne
        exact hidle ((hbase.alone v hfin).2 t hne)
      have := Pc.inWait_of_destroying ((h.finisher t hfin).resolve_left hidle)
      simp [hw] at this

omit [DecidableEq Tid] in
/-- Until its destruction reaches them, the upstreams of a join are attached. -/
theorem Lifetime.attached (h : Lifetime .join s) (hbase : Base .join s)
    (hidle : s.pc t ≠ .idle) (hzero : (s.pc t).detachProgress = 0) (i : Fin n) :
    s.shared.detached i = 0 := by
  cases hfin : s.shared.finisher with
  | none => exact h.untouched hfin i
  | some v =>
      obtain rfl : t = v := by
        by_contra hne
        exact hidle ((hbase.alone v hfin).2 t hne)
      exact (h.progress rfl t ((h.finisher t hfin).resolve_left hidle) i).2 (by omega)

omit [DecidableEq Tid] [Fintype Tid] in
/-- Until it is detached, an upstream stays counted. -/
theorem upstreamAllowed_counted {sh : Shared Tid P n} {i j : Fin n} {status : FutureStatus}
    (hi : upstreamAllowed sh i status = true) (hzero : sh.detached j = 0)
    (hj : (sh.upstream j).Counted) : (update sh.upstream i status j).Counted := by
  rcases eq_or_ne j i with rfl | hji
  · simp only [upstreamAllowed, hzero, bne_self_eq_false, Bool.false_or, Bool.and_eq_true,
      decide_eq_true_eq] at hi
    simpa using ⟨hi.1.1, hi.1.2⟩
  · simpa [update_of_ne hji] using hj

namespace Wellformed

omit [DecidableEq Tid] in
/-- Every word that a client examines is well-formed. -/
theorem examines (h : Wellformed b s) (hbase : Base ty s) (hlife : Lifetime ty s)
    (himpl : ty.implemented = true) (hidle : s.pc t ≠ .idle) {l : FutureStatus}
    (hex : Examines b s.shared (s.pc t) l) (hb : b.assertions = true) :
    l.debugCheck true = true := by
  have hlib := hbase.liberated_eq_false hidle
  have hcheck : ∀ l : FutureStatus, l.Typed ty → l.CountOk → l.debugCheck true = true :=
    fun l hl => (hl.check_iff himpl).mpr
  have hcycle : ∀ w l, (s.pc t).waitCall? = some w → (s.pc t).snapshot? = some l →
      w.policy = .cycle → l.available = true :=
    fun w l hw hl hp => h.counted t (Pc.inWait_of_cycle hw hp) l hl
  have hfits := hbase.fits t
  have htyped := hbase.snapshot t
  have hok := h.snapshot t
  have hattached := fun hty : ty = .join => (hty ▸ hlife).attached (t := t) (hty ▸ hbase) hidle
  generalize s.pc t = pc at hex hfits htyped hok hcycle hattached
  cases hex with
  | word => exact hcheck _ (hbase.typed hlib) (h.count hlib)
  | snapshot hl => exact hcheck _ (htyped _ hl) (hok _ hl)
  | upstream => exact (h.upstream _ (hattached hfits.1 rfl _)).1
  | @eagerRegister w l | @joinRegister w l _ _ =>
      have hl := hok l rfl
      exact hcheck _ (htyped l rfl).registered
        ⟨hl.overflow, (hl.inc (hcycle w l rfl rfl)).available⟩
  | @joinLock w l _ _ =>
      obtain rfl := hfits.1
      have hl := hok l rfl
      exact hcheck _ (htyped l rfl).locked ⟨hl.overflow, (hl.inc (hcycle w l rfl rfl)).available⟩
  | @release w l _ hcount =>
      obtain ⟨rfl, hk⟩ := hfits
      have hl := hok l rfl
      exact hcheck _ ((htyped l rfl).released hk)
        ⟨hl.overflow, (hl.dec fun hp => FutureStatus.one_le_count (hcount hp)).available⟩
  | @publish w l hcount =>
      obtain rfl : ty = .timerOnce := hfits
      have hl := hok l rfl
      exact hcheck _ (htyped l rfl).published
        ⟨hl.overflow, (hl.dec fun hp => FutureStatus.one_le_count (hcount hp)).available⟩
  | @cancel _ type l _ =>
      obtain rfl : type = ty := hfits
      have hl := hok l rfl
      exact hcheck _ ((htyped l rfl).canceledAs himpl) ⟨hl.overflow, hl.available⟩
  | @finish _ l hcount =>
      exact hcheck _ (htyped l rfl).unavailable ⟨(hok l rfl).overflow, .inl (hcount hb)⟩

/-- The step lemma for clients. -/
theorem client (h : Wellformed b s) (hbase : Base ty s) (hlife : Lifetime ty s)
    (himpl : ty.implemented = true) (hrun : s.shared.aborted = none) (hidle : s.pc t ≠ .idle)
    (hsafe : ¬ Malforms b s (.client t o)) {sh' : Shared Tid P n} {pc' : Pc P n}
    (hstep : ClientStep b t o s.shared (s.pc t) sh' pc') :
    Wellformed b { s with shared := sh', pc := update s.pc t pc' } := by
  have hlib := hbase.liberated_eq_false hidle
  have hword := hbase.typed hlib
  have ho := hbase.overflow_eq_false hrun
  have howed := hbase.owed_le ho hidle
  have hok := h.count hlib
  have hwait := hlife.available_of_inWait (t := t) hbase
  obtain ⟨-, hfin, hlibmono, hlib'⟩ := hstep.frame
  have hok' : sh'.liberated = false → sh'.word.CountOk := by
    refine hstep.countOk hok (hbase.fits t) howed hwait (fun w l hpc hmax => ?_)
      fun f hpc hspurious hb => ?_
    · exact hsafe (by simpa [Malforms, Pc.malforms, hpc] using hmax)
    · by_contra hcount
      exact hsafe (by simpa [Malforms, Pc.malforms, hpc, hb, hspurious] using hcount)
  have hcheck' : sh'.liberated = false → sh'.word.debugCheck true = true := fun hl =>
    ((hstep.typed hword himpl (hbase.fits t) ho howed hl).check_iff himpl).mpr (hok' hl)
  have hlive : ∀ l, pc'.snapshot? = some l → sh'.liberated = false := fun l hl => by
    by_contra hl'
    obtain hl' | ⟨f, r, -, rfl⟩ := hlib' (by simpa using hl')
    · simp [hlib] at hl'
    · simp [Pc.snapshot?] at hl
  have hstays : s.shared.word.state = .result → sh'.liberated = false → sh'.word.state = .result :=
    fun hr hl => (hstep.result hword ho howed hr).resolve_right (by simp [hl])
  have hcustom : s.worker.active = true → ty = .custom := fun ha => by
    by_contra hty
    simp [hbase.worker hty, WorkerPc.active] at ha
  refine ⟨hok', ?_, ?_, ?_, fun i hi => ?_, fun hb hl => ?_, fun ha hl hr => ?_, fun hb ha => ?_,
    h.workerSnapshot⟩
  · refine forall_update (P := fun _ (pc : Pc P n) => ∀ l, pc.snapshot? = some l → l.CountOk)
      (fun l hl => ?_) fun u _ => h.snapshot u
    obtain hold | rfl | rfl := hstep.snapshot himpl (hbase.fits t) howed hl
    · exact h.snapshot t l hold
    · exact hok
    · exact hok' (hlive _ hl)
  · refine forall_update (P := fun _ (pc : Pc P n) => pc.inWait = true →
      ∀ l, pc.snapshot? = some l → l.available = true) (fun hw l hl => ?_) fun u _ => h.counted u
    have hw' := hstep.inWait himpl (hbase.fits t) hw
    have hd : (s.pc t).destroying = false := by
      by_contra hd
      simp [Pc.inWait_of_destroying (by simpa using hd)] at hw'
    obtain hold | rfl | rfl := hstep.snapshot himpl (hbase.fits t) howed hl
    · exact h.counted t hw' l hold
    · exact hwait hw'
    · exact (hstep.available ho howed hd).trans (hwait hw')
  · refine hstep.checked himpl (hbase.fits t) howed hrun (fun w l hpc hmax => ?_)
      ((hword.check_iff himpl).mpr hok) hcheck' hlib fun f r i hpc => ?_
    · exact hsafe (by simpa [Malforms, Pc.malforms, hpc] using hmax)
    · obtain rfl : ty = .join := by simpa [hpc, Pc.Fits] using hbase.fits t
      refine h.upstream i ?_
      exact (hlife.progress rfl t (by simp [hpc, Pc.destroying]) i).2
        (by simp [hpc, Pc.detachProgress])
  · obtain ⟨hi', hup⟩ := hstep.upstream hi
    exact hup ▸ h.upstream i hi'
  · refine forall_update (P := fun _ (pc : Pc P n) => pc.collecting = true →
      sh'.word.state = .result) (fun hc => ?_) fun u _ hc => hstays (h.collecting hb hlib u hc) hl
    obtain hc | hr | ⟨l, hsnap, hr⟩ := hstep.collecting himpl (hbase.fits t) hb hc
    · exact hstays (h.collecting hb hlib t hc) hl
    · exact hr
    · exact hstays (hlife.result hlib t l hsnap hr) hl
  · obtain rfl := hcustom ha
    obtain ⟨hs, -⟩ | ⟨fin, -, -, hw, -⟩ := hstep.custom (hbase.fits t) howed hl
    · exact h.worker ha hlib (hs ▸ hr)
    · simp [hw, FutureStatus.canceledAs, FutureType.usesWorkerThread] at hr
  · by_contra hl
    obtain hl | ⟨f, r, hpc, -⟩ := hlib' (by simpa using hl)
    · simp [hlib] at hl
    · exact h.worker ha hlib (h.collecting hb hlib t (by simp [hpc, Pc.collecting]))

omit [DecidableEq Tid] in
/-- The worker moves. -/
theorem workerMove (h : Wellformed b s) (hbase : Base ty s) {w w' : WorkerPc P}
    (hw : s.worker = w) {sh' : Shared Tid P n} (hstep : WorkerStep b o s.shared w sh' w') :
    Wellformed b { s with shared := sh', worker := w' } := by
  obtain rfl : ty = .custom := by
    by_contra hty
    rw [hw.symm.trans (hbase.worker hty)] at hstep
    cases hstep
  obtain ⟨hword, hactive, hsnap⟩ := hstep.word
  rw [← hw] at hactive hsnap
  obtain ⟨-, -, hlib, haborted, -, hup, hdet⟩ := hstep.frame
  refine ⟨fun hl => ?_, h.snapshot, h.counted, ?_, ?_, fun hb hl u hc => ?_, fun ha hl => ?_,
    fun hb ha => ?_, fun hb l hl => ?_⟩
  · have hok := h.count (hlib ▸ hl)
    obtain heq | ⟨heq | heq, -⟩ := hword
    · exact heq ▸ hok
    all_goals exact heq ▸ ⟨hok.overflow, hok.available⟩
  · simpa only [haborted] using h.checked
  · simpa only [hup, hdet] using h.upstream
  · obtain heq | ⟨heq | heq, -⟩ := hword
    · exact heq ▸ h.collecting hb (hlib ▸ hl) u hc
    all_goals exact heq ▸ rfl
  · obtain heq | ⟨-, hdone⟩ := hword
    · exact heq ▸ h.worker (hactive ha) (hlib ▸ hl)
    · simp [hdone] at ha
  · exact hlib ▸ h.workerLive hb (hactive ha)
  · obtain hold | ⟨rfl, ha⟩ := hsnap l hl
    · exact h.workerSnapshot hb l hold
    · have hlive := h.workerLive hb ha
      exact ⟨h.count hlive, hbase.typed hlive⟩

omit [DecidableEq Tid] [Fintype Tid] in
/-- The process ends, for a reason that is not a failed status check. -/
theorem abort (h : Wellformed b s) {f : Failure} (hf : f ≠ .statusCheck) :
    Wellformed b { s with shared := { s.shared with aborted := some f } } :=
  { h with checked := by simpa using hf }

omit [DecidableEq Tid] [Fintype Tid] in
/-- The worker starts a call. -/
theorem workerCall (h : Wellformed b s) {saw : Bool} (hw : s.worker = .running saw)
    {w : WorkerPc P} (hsnap : w.snapshot? = none) (given : Option (Bool × P)) :
    Wellformed b { s with worker := w, given := given } :=
  { h with
    worker := fun _ => h.worker (by simp [hw, WorkerPc.active])
    workerLive := fun hb _ => h.workerLive hb (by simp [hw, WorkerPc.active])
    workerSnapshot := fun _ l hl => by simp [hsnap] at hl }

omit [Fintype Tid] in
/-- A call starts. -/
theorem call (h : Wellformed b s) (c : Call) (finisher : Option Tid) :
    Wellformed b { s with
      shared := { s.shared with finisher := finisher }, pc := update s.pc t c.start } := by
  have hsnap : ∀ l, (c.start : Pc P n).snapshot? ≠ some l := by
    cases c <;> simp [Call.start, Pc.snapshot?]
  have hcollecting : (c.start : Pc P n).collecting = false := by
    cases c <;> simp [Call.start, Pc.collecting]
  refine { h with snapshot := ?_, counted := ?_, collecting := fun hb hl => ?_ }
  · exact forall_update (P := fun _ (pc : Pc P n) => ∀ l, pc.snapshot? = some l → l.CountOk)
      (fun l hl => absurd hl (hsnap l)) fun u _ => h.snapshot u
  · exact forall_update (P := fun _ (pc : Pc P n) => pc.inWait = true →
      ∀ l, pc.snapshot? = some l → l.available = true)
      (fun _ l hl => absurd hl (hsnap l)) fun u _ => h.counted u
  · exact forall_update (P := fun _ (pc : Pc P n) => pc.collecting = true →
      s.shared.word.state = .result)
      (fun hc => by simp [hcollecting] at hc) fun u _ => h.collecting hb hl u

omit [DecidableEq Tid] in
/-- A downstream future detaches. -/
theorem detach (h : Wellformed b s) (hbase : Base ty s) (hrun : s.shared.aborted = none)
    (hd : 1 ≤ s.shared.downstreams) {a : Option Failure} (ha : a ≠ some .statusCheck) :
    Wellformed b { s with shared := { s.shared with
      word := s.shared.word.fetchSub
      downstreams := s.shared.downstreams - 1
      aborted := a } } := by
  by_cases hlib : s.shared.liberated = true
  · exact { h with
      count := fun hl => absurd hl (by simp [hlib])
      checked := ha
      collecting := fun _ hl => absurd hl (by simp [hlib])
      worker := fun _ hl => absurd hl (by simp [hlib]) }
  · have hl : s.shared.liberated = false := by simpa using hlib
    have hcount := hbase.count (hbase.overflow_eq_false hrun) hl
    have hpos : 1 ≤ s.shared.word.count := by omega
    rw [FutureStatus.fetchSub_eq hpos]
    exact { h with
      count := fun hl => (h.count hl).dec fun _ => hpos
      checked := ha }

/-- No client stops at a status check. -/
theorem clientFails (h : Wellformed b s) (hbase : Base ty s) (hlife : Lifetime ty s)
    (himpl : ty.implemented = true) {f : Failure}
    (hf : clientStep b t o s.shared (s.pc t) = .error f) : f ≠ .statusCheck := by
  have hidle : s.pc t ≠ .idle := fun hpc => by
    rw [hpc] at hf
    exact Checked.pure_ne_error hf
  refine clientStep_failsWith (F := (· ≠ .statusCheck)) (fun _ hne _ => hne)
    (fun l hex hb hbad => ?_) (fun _ _ _ _ => by simp) f hf
  simp [h.examines hbase hlife himpl hidle hex hb] at hbad

omit [DecidableEq Tid] in
/-- Neither does the worker. -/
theorem workerFails (h : Wellformed b s) (hbase : Base ty s) {f : Failure}
    (hf : workerStep b o s.shared s.worker = .error f) : f ≠ .statusCheck := by
  cases hactive : s.worker.active with
  | false =>
      -- the notifications do not look at the status word
      cases hw : s.worker <;> simp only [hw, WorkerPc.active, Bool.true_eq_false] at hactive <;>
        simp [hw, workerStep, Checked.pure_ne_error] at hf
  | true =>
      obtain rfl : ty = .custom := by
        by_contra hty
        simp [hbase.worker hty, WorkerPc.active] at hactive
      refine workerStep_failsWith (F := (· ≠ .statusCheck)) (fun _ hne _ => hne)
        (fun hb hbad => ?_) (fun l hex hb hbad => ?_) f hf
      · have hlive := h.workerLive hb hactive
        simp [((hbase.typed hlive).check_iff rfl).mpr (h.count hlive)] at hbad
      · have hsnap := h.workerSnapshot hb
        generalize s.worker = w at hex hsnap
        have hok : l.CountOk ∧ l.Typed .custom := by
          cases hex with
          | setCheck | setCas | ackCas => exact hsnap _ rfl
          | set =>
              obtain ⟨hok, htyped⟩ := hsnap _ rfl
              exact ⟨⟨hok.overflow, hok.available⟩, htyped.succeeded⟩
          | ack hs =>
              obtain ⟨hok, htyped⟩ := hsnap _ rfl
              exact ⟨⟨hok.overflow, hok.available⟩, htyped.acknowledged hs⟩
        simp [(hok.2.check_iff rfl).mpr hok.1] at hbad

/-- The step lemma, for a step that stores no malformed word. -/
theorem step (h : Wellformed b s) (hbase : Base ty s) (hlife : Lifetime ty s)
    (himpl : ty.implemented = true) (hsafe : ¬ Malforms b s e)
    (hstep : Udipe.step b s e = some s') : Wellformed b s' := by
  have hrun := aborted_eq_none_of_step hstep
  cases step_cases hstep with
  | call => exact h.call _ _
  | client hpc hidle _ _ hclient =>
      subst hpc
      exact h.client hbase hlife himpl hrun hidle hsafe hclient
  | clientFails hf => exact h.abort (h.clientFails hbase hlife himpl hf)
  | workerCanceled hw | workerAcknowledge hw => exact h.workerCall hw rfl s.given
  | workerSet hw => exact h.workerCall hw rfl _
  | worker hw hworker => exact h.workerMove hbase hw hworker
  | workerFails hf => exact h.abort (h.workerFails hbase hf)
  | timerExpires => exact { h with }
  | @upstreamChanges i status hallowed =>
      exact { h with upstream := fun j hj => upstreamAllowed_counted hallowed hj (h.upstream j hj) }
  | downstreamDetaches hd => exact h.detach hbase hrun hd h.checked
  | downstreamFails hf hd =>
      refine h.detach hbase hrun hd fun hcheck => ?_
      have hlib := hbase.liberated_of_finisher (hbase.finisher_of_downstreams hd)
      have hcount := hbase.count (hbase.overflow_eq_false hrun) hlib
      have hword := hbase.typed hlib
      have hok := h.count hlib
      obtain ⟨-, hbad | hbad⟩ := hf.2 (by simpa using hcheck)
      · simp [(hword.check_iff himpl).mpr hok] at hbad
      · have hok' : (s.shared.word.dec .cycle).CountOk := hok.dec fun _ => by omega
        simp [(hword.dec.check_iff himpl).mpr hok'] at hbad

end Wellformed

/-! ## Runs -/

/-- A step that stores a malformed word leaves a word that fails the check. -/
theorem Malforms.stored (h : Malforms b s e) (hwf : Wellformed b s) (hbase : Base ty s)
    (himpl : ty.implemented = true) (hstep : step b s e = some s') :
    s'.shared.liberated = false ∧ s'.shared.word.debugCheck true = false := by
  have hrun := aborted_eq_none_of_step hstep
  have ho := hbase.overflow_eq_false hrun
  cases step_cases hstep
  case client t o pc sh' pc' hpc hidle _ _ hclient =>
    subst hpc
    have hlib := hbase.liberated_eq_false hidle
    have hoverflow : s.shared.word.downstreamCount = FutureStatus.maxDownstreamCount →
        s.shared.word.fetchAdd.debugCheck true = false := fun hmax => by
      rw [FutureStatus.fetchAdd_of_max ho hmax]
      simp [FutureStatus.debugCheck]
    simp only [Malforms] at h
    generalize s.pc t = pc at hclient h
    cases hclient
    case timerInc hmax _ | timerIncReady hmax _ => exact absurd h hmax
    case timerIncFails => exact ⟨hlib, hoverflow h⟩
    case finish =>
      refine ⟨hlib, ?_⟩
      by_contra hcheck
      have hok := ((hbase.typed hlib).unavailable.check_iff himpl).mp (by simpa using hcheck)
      exact h.2.2.2 (hok.available.resolve_right (by simp [FutureStatus.unavailable]))
    case move hmove =>
      cases hmove
      case finishRetry hfail =>
        obtain ⟨-, heq, hspurious, -⟩ := h
        exact absurd hfail (by simp [heq, hspurious])
      all_goals exact absurd h (by simp [Pc.malforms])
    all_goals exact absurd h (by simp [Pc.malforms])
  case clientFails t o f hf =>
    have hsnap := hwf.snapshot t
    have htyped := hbase.snapshot t
    simp only [Malforms] at h
    generalize s.pc t = pc at hf h hsnap htyped
    cases pc
    case timerInc w l =>
      -- the copy passes its check, and every later failure follows the store
      have hcheck := ((htyped l rfl).check_iff himpl).mpr (hsnap l rfl)
      simp only [clientStep, timerIncStep, Checked.bind_eq_error, FutureStatus.check, hcheck,
        Checked.assertion_eq_error] at hf
      obtain hf | ⟨-, -, hf⟩ := hf
      · simp at hf
      · unfold stored at hf
        split at hf <;> simp at hf
    case finishCas f l =>
      obtain ⟨hb, rfl, hspurious, -⟩ := h
      simp [clientStep, finishCasStep, compareExchangeWeak, FutureStatus.check, Checked.assertion,
        Checked.ensure, hb, hspurious, Bind.bind, Except.bind, Pure.pure, Except.pure] at hf
    all_goals exact absurd h (by simp [Pc.malforms])
  all_goals simp [Malforms] at h

/-- The invariants together. -/
structure Sound (b : Build) (ty : FutureType) (s : State Tid P n) : Prop where
  base : Base ty s
  lifetime : Lifetime ty s
  wellformed : Wellformed b s

theorem Sound.step (h : Sound b ty s) (himpl : ty.implemented = true) (hsafe : ¬ Malforms b s e)
    (hstep : Udipe.step b s e = some s') : Sound b ty s' where
  base := h.base.step himpl hstep
  lifetime := h.lifetime.step h.base himpl hstep
  wellformed := h.wellformed.step h.base h.lifetime himpl hsafe hstep

omit [DecidableEq Tid] in
/-- The word in use passes its check, even if the process has ended. -/
theorem Sound.word (h : Sound b ty s) (himpl : ty.implemented = true)
    (hlib : s.shared.liberated = false) : s.shared.word.debugCheck true = true :=
  ((h.base.typed hlib).check_iff himpl).mpr (h.wellformed.count hlib)

variable {status : FutureStatus} {payload : P} {upstream : Fin n → FutureStatus}

omit [DecidableEq Tid] in
theorem sound_start (h : status.startable = true) (hup : ∀ i, (upstream i).Counted) :
    Sound b status.type (State.start status payload upstream : State Tid P n) where
  base := base_start h
  lifetime := lifetime_start h
  wellformed := by
    have hbase : Base status.type (State.start status payload upstream : State Tid P n) :=
      base_start h
    have himpl := FutureStatus.startable_implemented h
    refine ⟨fun hlib => ((hbase.typed hlib).check_iff himpl).mp
      (FutureStatus.startable_debugCheck h), fun _ _ hl => ?_, fun _ hw => ?_, ?_,
      fun i _ => hup i, fun _ _ _ hc => ?_, fun ha _ => ?_, fun _ _ => rfl, fun _ l hl => ?_⟩
    · simp [State.start, Pc.snapshot?] at hl
    · simp [State.start, Pc.inWait, Pc.waitCall?] at hw
    · simp [State.start]
    · simp [State.start, Pc.collecting] at hc
    · have hworker : status.type.usesWorkerThread = true := by
        by_contra hw
        simp [State.start, hw, WorkerPc.active] at ha
      have hty := eq_custom_of_usesWorkerThread himpl hworker
      simp only [FutureStatus.startable, hty, Bool.and_eq_true, beq_iff_eq] at h
      simp [State.start, h.2]
    · simp only [State.start] at hl
      split at hl <;> simp [WorkerPc.snapshot?] at hl

omit [DecidableEq Tid] in
/-- As long as nobody forgets a debt and the users fit into the count, no malformed word is stored. -/
theorem not_malforms (hbase : Base ty s) (hexact : Exact s) (hrun : s.shared.aborted = none)
    (husers : s.users ≤ FutureStatus.maxDownstreamCount.toNat) : ¬ Malforms b s e := by
  intro h
  cases e
  case client t o =>
    simp only [Malforms] at h
    have hidle : s.pc t ≠ .idle := fun hpc => by simp [hpc, Pc.malforms] at h
    have hcount := hexact.count (hbase.liberated_eq_false hidle) hrun
    cases hpc : s.pc t <;> rw [hpc] at h
    case timerInc w l =>
      -- the thread is a user that does not count itself yet
      have hfits := hbase.fits t
      rw [hpc] at hfits
      have hlt : ∑ u, (s.pc u).owed < ∑ u, (s.pc u).inWait.toNat := by
        refine Finset.sum_lt_sum (fun u _ => Pc.owed_le_inWait (hbase.fits u))
          ⟨t, Finset.mem_univ t, ?_⟩
        have hwait : (Pc.timerInc w l : Pc P n).inWait = true := Pc.inWait_of_cycle rfl hfits.2
        simp [hpc, Pc.owed, hwait]
      have hmax : s.shared.word.count = FutureStatus.maxDownstreamCount.toNat :=
        congrArg BitVec.toNat h
      simp only [State.users] at husers
      omega
    case finishCas f l =>
      obtain ⟨hdown, hsum⟩ := hbase.sum_owed_eq_zero (t := t) (by simp [hpc, Pc.destroying])
      exact h.2.2.2 (FutureStatus.count_eq_zero.mp (by omega))
    all_goals exact absurd h (by simp [Pc.malforms])
  all_goals exact h

/-- Over every run of a future: every word it stores is well-formed exactly when no step adds one to a
count that is at its maximum, or, with assertions compiled out, finishes a future whose count is not
zero; then no status check fails either. No run makes such a step in which no thread forgets its
debt and the simultaneous users never outnumber `MAX_DOWNSTREAM_COUNT`. -/
theorem words_wellformed_iff (hstart : status.startable = true)
    (hup : ∀ i, (upstream i).Counted) {es : List (Event Tid P n)}
    (hrun : (future b).run (State.start status payload upstream) es = some s) :
    ((future b).Along (fun _ _ s' => s'.shared.liberated = false →
        s'.shared.word.debugCheck true = true) (State.start status payload upstream) es ↔
      (future b).Along (fun s e _ => ¬ Malforms b s e)
        (State.start status payload upstream) es) ∧
    ((future b).Along (fun s e _ => ¬ Malforms b s e) (State.start status payload upstream) es →
      s.shared.aborted ≠ some .statusCheck) ∧
    ((future b).Along (fun s e _ => (∀ t, ¬ LeaksAt t s e) ∧
        s.users ≤ FutureStatus.maxDownstreamCount.toNat) (State.start status payload upstream) es →
      (future b).Along (fun s e _ => ¬ Malforms b s e)
        (State.start status payload upstream) es) := by
  have himpl := FutureStatus.startable_implemented hstart
  have hsound : Sound b status.type (State.start status payload upstream : State Tid P n) :=
    sound_start hstart hup
  refine ⟨⟨?_, ?_⟩, fun hsafe => ?_, ?_⟩
  · have hnot : ∀ (s : State Tid P n) e s', Sound b status.type s →
        (s'.shared.liberated = false → s'.shared.word.debugCheck true = true) →
        (future b).step s e = some s' → ¬ Malforms b s e := fun s e s' hI hC hstep hbad => by
      obtain ⟨hlib, hcheck⟩ := hbad.stored hI.wellformed hI.base himpl hstep
      simp [hC hlib] at hcheck
    exact Machine.along_of_invariant (M := future b) (I := Sound b status.type)
      (fun s e s' hI hC hstep => hI.step himpl (hnot s e s' hI hC hstep) hstep) hnot hsound
  · exact Machine.along_of_invariant (M := future b) (I := Sound b status.type)
      (fun s e s' hI hC hstep => hI.step himpl hC hstep)
      (fun s e s' hI hC hstep hlib => (hI.step himpl hC hstep).word himpl hlib) hsound
  · exact (Machine.invariant_of_along (M := future b) (I := Sound b status.type)
      (fun s e s' hI hC hstep => hI.step himpl hC hstep) hsound hsafe hrun).wellformed.checked
  · refine Machine.along_of_invariant (M := future b)
      (I := fun s => Base status.type s ∧ Exact s)
      (fun s e s' hI hC hstep => ⟨hI.1.step himpl hstep, hI.2.step hI.1 himpl hC.1 hstep⟩)
      (fun s e s' hI hC hstep =>
        not_malforms hI.1 hI.2 (aborted_eq_none_of_step hstep) hC.2)
      ⟨hsound.base, exact_start⟩

theorem words_wellformed_iff_twoWaits :
    ∃ s, (future ⟨true⟩).run (State.start .startCustom () Fin.elim0) twoWaits = some s ∧
      (future ⟨true⟩).Along (fun _ _ s' => s'.shared.liberated = false →
        s'.shared.word.debugCheck true = true) (State.start .startCustom () Fin.elim0) twoWaits ∧
      s.shared.aborted ≠ some .statusCheck := by
  have hsome : ((future ⟨true⟩).run (State.start .startCustom () Fin.elim0)
      twoWaits).isSome = true := by decide +kernel
  obtain ⟨s, hrun⟩ := Option.isSome_iff_exists.mp hsome
  have husers : (future ⟨true⟩).Along (fun s e _ => (∀ t, ¬ LeaksAt t s e) ∧
      s.users ≤ FutureStatus.maxDownstreamCount.toNat) (State.start .startCustom () Fin.elim0)
        twoWaits := by decide +kernel
  obtain ⟨hiff, hchecks, hsafe⟩ :=
    words_wellformed_iff (b := ⟨true⟩) (by decide) (fun i => i.elim0) hrun
  exact ⟨s, hrun, hiff.mpr (hsafe husers), hchecks (hsafe husers)⟩

/-- A timer with one place left for a downstream. -/
def FutureStatus.almostFull : FutureStatus :=
  { FutureStatus.startTimerOnce with downstreamCount := 65534 }

/-- A wait for it times out in `ppoll` and keeps its place, so the next one stores a malformed word. -/
theorem secondWait_malforms :
    ∃ s, (future ⟨true⟩).run (State.start .almostFull () Fin.elim0)
        (timedOutWait ++ timedOutWait.take 3) = some s ∧
      (future ⟨true⟩).Along (fun s _ _ => s.users ≤ FutureStatus.maxDownstreamCount.toNat)
        (State.start .almostFull () Fin.elim0) (timedOutWait ++ timedOutWait.take 3) ∧
      s.shared.liberated = false ∧ s.shared.word.debugCheck true = false :=
  ⟨_, rfl, by decide, rfl, rfl⟩

end Udipe

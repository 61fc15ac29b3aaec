import Udipe.Future.Typed

/-!
# What each point of a call owes to `downstream_count`

A caller that waits with `DOWNSTREAM_COUNT_CYCLE` owes one decrement from the moment it registered.
`ClientStep.count` is the conservation law of one step: the count changes exactly as the debt of the
thread, except at the steps described by `Pc.leaks`, where a thread forgets its debt.
-/

namespace Udipe

open Function

/-- How much the policy adds to and removes from the count. -/
def DownstreamCountPolicy.weight : DownstreamCountPolicy → ℕ
  | .cycle => 1
  | .keep => 0

@[simp] theorem DownstreamCountPolicy.weight_cycle : DownstreamCountPolicy.cycle.weight = 1 := rfl

@[simp] theorem DownstreamCountPolicy.weight_keep : DownstreamCountPolicy.keep.weight = 0 := rfl

@[simp] theorem DownstreamCountPolicy.toNat_beq_cycle (p : DownstreamCountPolicy) :
    (p == .cycle).toNat = p.weight := by
  cases p <;> rfl

namespace FutureStatus

variable {s : FutureStatus} {p : DownstreamCountPolicy}

/-- `downstream_count` as a number. -/
def count (s : FutureStatus) : ℕ := s.downstreamCount.toNat

theorem count_eq_zero : s.count = 0 ↔ s.downstreamCount = 0 :=
  ⟨fun h => BitVec.eq_of_toNat_eq (by simpa [count] using h), fun h => by simp [count, h]⟩

theorem count_inc (h : p = .cycle → s.downstreamCount ≠ maxDownstreamCount) :
    (s.inc p).count = s.count + p.weight := by
  cases p with
  | cycle => exact BitVec.toNat_add_one_of_ne (by omega) (h rfl)
  | keep => simp [count, inc, DownstreamCountPolicy.delta]

theorem count_dec (h : p.weight ≤ s.count) : (s.dec p).count + p.weight = s.count := by
  cases p with
  | cycle =>
      have hne : s.downstreamCount ≠ 0 := fun hz => by
        simp [count_eq_zero.mpr hz] at h
      exact BitVec.toNat_sub_one_of_ne (by omega) hne
  | keep => simp [count, dec, DownstreamCountPolicy.delta]

@[simp] theorem count_registered : (s.registered p).count = (s.inc p).count := rfl

@[simp] theorem count_locked : (s.locked p).count = (s.inc p).count := rfl

@[simp] theorem count_released (outcome : FutureOutcome) :
    (s.released p outcome).count = (s.dec p).count := rfl

@[simp] theorem count_published : (s.published p).count = (s.dec p).count := rfl

@[simp] theorem count_canceledAs (ty : FutureType) : (s.canceledAs ty).count = s.count := rfl

@[simp] theorem count_unavailable : s.unavailable.count = s.count := rfl

@[simp] theorem count_succeeded : s.succeeded.count = s.count := rfl

@[simp] theorem count_acknowledged : s.acknowledged.count = s.count := rfl

/-- `atomic_fetch_add` on a count below the maximum. -/
theorem fetchAdd_eq (h : s.downstreamCount ≠ maxDownstreamCount) : s.fetchAdd = s.inc .cycle :=
  fetchAdd_of_ne h

/-- `atomic_fetch_sub` on a nonzero count. -/
theorem fetchSub_eq (h : 1 ≤ s.count) : s.fetchSub = s.dec .cycle :=
  fetchSub_of_ne fun hz => by simp [count_eq_zero.mpr hz] at h

end FutureStatus

variable {Tid P : Type} {n : ℕ}

namespace Pc

/-- The copy of the status word that is live at this point. -/
def snapshot? : Pc P n → Option FutureStatus
  | eagerRegister _ s | addressEnter _ s | addressWait _ s | addressBlocked _ s
  | addressReload _ s _ | addressMeasure _ s | countDec _ s | joinRegister _ s _ | joinPoll _ s _
  | joinBatch _ s _ _ | joinMeasure _ s _ | joinRelease _ s _ | joinWakeAll _ s | joinSignal _ s
  | joinWakeOne _ s | timerInc _ s | timerPoll _ s | timerPublish _ s | waitReturn _ s
  | cancelCas _ _ s | cancelLatch _ s | cancelWake _ s | cancelTimer _ s | cancelReturn _ _ s
  | finishCas _ s | finishCollect _ s => some s
  | _ => none

/-- Which points can be reached on a future of type `ty`, and with which local variables. -/
def Fits (ty : FutureType) : Pc P n → Prop
  | eagerRegister _ s => ty = .custom ∧ s.state ≠ .result
  | addressEnter _ s | addressWait _ s | addressBlocked _ s | addressMeasure _ s =>
      s.state ≠ .result ∧ (ty = .custom ∨ ty = .join ∧ s.notifyEventOrLazyLock = true)
  | addressReload _ _ _ => ty = .custom ∨ ty = .join
  | countDec w _ => (ty = .custom ∨ ty = .join) ∧ w.policy = .cycle
  | joinRegister _ s _ => ty = .join ∧ s.state ≠ .result
  | joinPoll _ _ _ | joinMeasure _ _ _ | joinWakeAll _ _ | joinSignal _ _ | joinWakeOne _ _ =>
      ty = .join
  | joinBatch _ _ outcome _ => ty = .join ∧ (outcome = .unknown ∨ outcome = .failureDependency)
  | joinRelease _ _ outcome => ty = .join ∧ (outcome = .unknown ∨ outcome = .success ∨
      outcome = .failureDependency ∨ outcome = .failureCanceled)
  | timerInc w _ | timerRevert w => ty = .timerOnce ∧ w.policy = .cycle
  | timerPoll _ _ | timerPublish _ _ => ty = .timerOnce
  | cancelCas _ type _ => type = ty
  | cancelLatch _ _ | cancelWake _ _ => ty = .join
  | cancelTimer _ _ => ty = .timerOnce
  | finishDetach _ _ _ => ty = .join
  | _ => True

/-- What the thread still has to take off `downstream_count`. -/
def owed : Pc P n → ℕ
  | addressEnter w _ | addressWait w _ | addressBlocked w _ | addressReload w _ _
  | addressMeasure w _ | joinPoll w _ _ | joinBatch w _ _ _ | joinMeasure w _ _
  | joinRelease w _ _ | timerPoll w _ | timerPublish w _ => w.policy.weight
  | countDec _ _ | timerRevert _ => 1
  | _ => 0

/-- The thread is about to leave the points where it owes a decrement without making it: a wait for a
timer that ends by a timeout, and a waiter of a join that finds `lazy_lock` free and registers
again. -/
def leaks (sh : Shared Tid P n) (o : Oracle Tid n) : Pc P n → Bool
  | timerPoll w _ =>
      w.policy == .cycle &&
        match o.poll with
        | .ready _ => false
        | .timedOut => true
        | .interrupted => decide (w.timeout ≤ o.elapsed)
  | addressReload w _ _ =>
      w.policy == .cycle && sh.word.state != .result && sh.word.type == .join &&
        !sh.word.notifyEventOrLazyLock
  | _ => false

@[simp] theorem owed_idle : (idle : Pc P n).owed = 0 := rfl

@[simp] theorem owed_countedReturn (w : WaitCall) (s : FutureStatus) :
    (countedReturn w s : Pc P n).owed = w.policy.weight := by
  cases hp : w.policy <;> simp [countedReturn, hp, owed]

@[simp] theorem owed_afterRelease (w : WaitCall) (s : FutureStatus) (outcome : FutureOutcome) :
    (afterRelease w s outcome : Pc P n).owed = 0 := by
  unfold afterRelease
  split_ifs <;> rfl

end Pc

/-- What a thread can do after its cancelation took effect. -/
theorem afterCancel_eq_ok {fin : Bool} {ty : FutureType} {s : FutureStatus} {pc : Pc P n}
    (himpl : ty.implemented = true) (h : afterCancel fin ty s = .ok pc) :
    (s.downstreamCount = 0 ∨ ty = .custom) ∧ pc = .cancelReturn fin true s ∨
      s.downstreamCount ≠ 0 ∧ ty = .join ∧ pc = .cancelLatch fin s ∨
      s.downstreamCount ≠ 0 ∧ ty = .timerOnce ∧ pc = .cancelTimer fin s := by
  simp only [afterCancel] at h
  split at h
  · rename_i hzero
    exact .inl ⟨.inl hzero, (Checked.pure_eq_ok.mp h).symm⟩
  · rename_i hne
    cases ty <;> simp only [FutureType.implemented, Bool.false_eq_true] at himpl <;>
      obtain rfl := Checked.pure_eq_ok.mp h
    case custom => exact .inl ⟨.inr rfl, rfl⟩
    case join => exact .inr (.inl ⟨hne, rfl, rfl⟩)
    case timerOnce => exact .inr (.inr ⟨hne, rfl, rfl⟩)

/-- No implemented type lacks a cancelation. -/
theorem afterCancel_ne_error {fin : Bool} {ty : FutureType} {s : FutureStatus} {f : Failure}
    (himpl : ty.implemented = true) : (afterCancel fin ty s : Except Failure (Pc P n)) ≠ .error f := by
  intro h
  simp only [afterCancel] at h
  split at h
  · exact Checked.pure_ne_error h
  · cases ty <;> simp_all [FutureType.implemented, Pure.pure, Except.pure]

section

variable [DecidableEq Tid] {b : Build} {t : Tid} {o : Oracle Tid n} {sh sh' : Shared Tid P n}
  {pc pc' : Pc P n} {ty : FutureType}

/-- Registering changes the word, unless there is nothing to count. -/
theorem weight_of_registered_eq {p : DownstreamCountPolicy} {s : FutureStatus}
    (h : s.registered p = s) : p.weight = 0 := by
  cases p with
  | keep => rfl
  | cycle =>
      have hcount : s.downstreamCount + 1#16 = s.downstreamCount :=
        congrArg FutureStatus.downstreamCount h
      exact absurd (BitVec.add_right_eq_self.mp hcount) (by decide)

/-- So does publishing. -/
theorem weight_of_published_eq {p : DownstreamCountPolicy} {s : FutureStatus}
    (h : s.published p = s) : p.weight = 0 := by
  cases p with
  | keep => rfl
  | cycle =>
      have hcount : s.downstreamCount - 1#16 = s.downstreamCount :=
        congrArg FutureStatus.downstreamCount h
      have hone : s.downstreamCount = s.downstreamCount + 1#16 := by
        conv_lhs => rw [← BitVec.sub_add_cancel s.downstreamCount 1#16, hcount]
      exact absurd (BitVec.add_right_eq_self.mp hone.symm) (by decide)

omit [DecidableEq Tid] in
/-- A move that leaves the word alone changes the debt by what it leaks. -/
theorem LocalMove.owed (h : LocalMove b t o sh pc pc') (hword : sh.word.Typed ty)
    (hfits : pc.Fits ty) (hsnap : ∀ l, pc.snapshot? = some l → l.Typed ty) :
    pc.owed = pc'.owed + (pc.leaks sh o).toNat := by
  cases h
  case measureRelease hw | measurePoll hw => simp [Pc.owed, Pc.leaks, WaitCall.policy, hw]
  case measureUnlocked he hty hlock =>
    obtain ⟨-, rfl | ⟨-, hlocked⟩⟩ := hfits
    · exact absurd ((hsnap _ rfl).type.symm.trans hty) (by simp)
    · exact absurd (hlock.symm.trans hlocked) (by simp)
  case eagerKnown hl | joinKnown hl =>
    simp [Pc.owed, Pc.leaks, weight_of_registered_eq hl]
  case publishKnown hl => simp [Pc.owed, Pc.leaks, weight_of_published_eq hl]
  case reloadReady hs =>
    rw [Pc.owed_countedReturn]
    simp [Pc.owed, Pc.leaks, hs]
  case reloadUnlocked w latest woken hs hty hlock =>
    have hne : (sh.word.state != .result) = true := by simpa using hs
    simp [Pc.owed, Pc.leaks, hne, hty, hlock]
  case reloadAgain hs hlock =>
    have hfree : (sh.word.type == .join && !sh.word.notifyEventOrLazyLock) = false := by
      rw [hword.type]
      cases hty : ty <;> simp_all [hword.type, FutureType.usesLazyLock]
    simp [Pc.owed, Pc.leaks, Bool.and_assoc, hfree]
  case measureDone he =>
    rw [Pc.owed_countedReturn]
    simp [Pc.owed, Pc.leaks, WaitCall.policy]
  case timerTimedOut ho => simp [Pc.owed, Pc.leaks, ho]
  case timerInterrupted ho he => simp [Pc.owed, Pc.leaks, ho, he]
  all_goals simp_all [Pc.owed, Pc.leaks]

/-- Adding one to the word counts up unless it overflows. -/
theorem FutureStatus.count_fetchAdd {s : FutureStatus} (ho : s.downstreamCountOverflow = false)
    (ho' : s.fetchAdd.downstreamCountOverflow = false) : s.fetchAdd.count = s.count + 1 := by
  have hne : s.downstreamCount ≠ maxDownstreamCount := fun hmax => by
    rw [fetchAdd_of_max ho hmax] at ho'
    exact absurd ho' (by simp)
  rw [fetchAdd_eq hne, count_inc fun _ => hne, DownstreamCountPolicy.weight_cycle]

/-- Subtracting one from the word counts down. -/
theorem FutureStatus.count_fetchSub {s : FutureStatus} (h : 1 ≤ s.count) :
    s.fetchSub.count + 1 = s.count := by
  rw [fetchSub_eq h]
  exact count_dec h

/-- The conservation law of one step: until the future is liberated, the count changes as the debt of
the thread does, up to what it leaks. -/
theorem ClientStep.count (h : ClientStep b t o sh pc sh' pc') (hword : sh.word.Typed ty)
    (himpl : ty.implemented = true) (hfits : pc.Fits ty)
    (hsnap : ∀ l, pc.snapshot? = some l → l.Typed ty)
    (ho : sh.word.downstreamCountOverflow = false) (howed : pc.owed ≤ sh.word.count)
    (ho' : sh'.word.downstreamCountOverflow = false) (hlib : sh'.liberated = false) :
    ∃ k, sh'.word.count + pc.owed = sh.word.count + pc'.owed + k ∧
      (sh'.aborted = none → k = (pc.leaks sh o).toNat) := by
  cases h
  case move hmove =>
    have := hmove.owed hword hfits hsnap
    exact ⟨(pc.leaks sh o).toNat, by omega, fun _ => rfl⟩
  case eagerRegister hmax | joinRegister hmax _ | joinLock hmax _ =>
    have := FutureStatus.count_inc hmax
    exact ⟨0, by simp [Pc.owed]; omega, fun _ => rfl⟩
  case countDec | countDecFails | timerRevert | timerRevertFails =>
    have := FutureStatus.count_fetchSub howed
    exact ⟨0, by simp [Pc.owed]; omega, fun _ => rfl⟩
  case release w outcome _ _ =>
    have : (sh.word.dec w.policy).count + w.policy.weight = sh.word.count :=
      FutureStatus.count_dec howed
    exact ⟨0, by rw [Pc.owed_afterRelease]; exact this, fun _ => rfl⟩
  case publish w _ _ =>
    have : (sh.word.dec w.policy).count + w.policy.weight = sh.word.count :=
      FutureStatus.count_dec howed
    exact ⟨0, this, fun _ => rfl⟩
  case timerInc w _ _ _ _ | timerIncReady w _ _ _ _ =>
    have := FutureStatus.count_fetchAdd ho ho'
    exact ⟨0, by simp [Pc.owed, hfits.2]; omega, fun _ => rfl⟩
  case timerIncFails =>
    have := FutureStatus.count_fetchAdd ho ho'
    exact ⟨1, by simp [Pc.owed]; omega, by simp⟩
  case cancel hk hpc =>
    obtain rfl : _ = ty := hfits
    obtain ⟨-, rfl⟩ | ⟨-, -, rfl⟩ | ⟨-, -, rfl⟩ := afterCancel_eq_ok himpl hpc <;>
      exact ⟨0, by simp [Pc.owed], fun _ => rfl⟩
  case cancelLatch =>
    refine ⟨0, ?_, fun _ => rfl⟩
    split <;> simp [Pc.owed]
  case finish =>
    refine ⟨0, ?_, fun _ => rfl⟩
    split <;> simp [Pc.owed]
  case wakeOne => 
    refine ⟨0, ?_, fun _ => rfl⟩
    cases hw : o.wakee <;> simp [Pc.owed, wakeByAddressSingle]
  case liberate | liberateFails => simp at hlib
  all_goals exact ⟨0, by simp [Pc.owed, wakeByAddressAll], fun _ => rfl⟩

end

end Udipe

import Udipe.Future.Invariant

/-!
# The end of a future's life

Reference: `future.c` (`future_finish`), `future/allocator.c` (`future_liberate`).

What holds around a destroying call: its thread stays in it until the future is liberated, the word is
available until it starts, a final state stays final, and the upstreams of a join are detached one by
one, each exactly once.
-/

namespace Udipe

open Function Threads

variable {Tid P : Type} {n : ℕ} {ty : FutureType} {b : Build}

/-- How many upstreams the thread has detached. -/
def Pc.detachProgress : Pc P n → ℕ
  | .finishDetach _ _ index => index
  | .finishLiberate _ _ => n
  | _ => 0

/-- Exactly the first `k` upstreams were detached, each once. -/
def Shared.DetachedUpTo (sh : Shared Tid P n) (k : ℕ) : Prop :=
  ∀ i : Fin n, (i.val < k → sh.detached i = 1) ∧ (k ≤ i.val → sh.detached i = 0)

@[simp] theorem Pc.detachProgress_countedReturn {w : WaitCall} {s : FutureStatus} :
    (countedReturn w s : Pc P n).detachProgress = 0 := by
  cases hp : w.policy <;> simp [countedReturn, hp, detachProgress]

@[simp] theorem Pc.detachProgress_afterRelease {w : WaitCall} {s : FutureStatus}
    {outcome : FutureOutcome} : (afterRelease w s outcome : Pc P n).detachProgress = 0 := by
  unfold afterRelease
  split_ifs <;> rfl

/-- An upstream that is allocated and counts its downstream. -/
def FutureStatus.Counted (s : FutureStatus) : Prop :=
  s.debugCheck true = true ∧ 1 ≤ s.count

/-- The count of a counted status can be decremented. -/
theorem FutureStatus.Counted.dec {s : FutureStatus} (h : s.Counted) :
    (s.dec .cycle).debugCheck true = true := by
  obtain ⟨hcheck, hpos⟩ := h
  have hcount := count_dec (p := .cycle) hpos
  have havailable : s.available = true := by
    have hne : s.downstreamCount ≠ 0 := fun hz => by simp [count_eq_zero.mpr hz] at hpos
    simp only [debugCheck, Bool.and_eq_true, Bool.or_eq_true, beq_iff_eq] at hcheck
    tauto
  have hbound : (s.dec .cycle).downstreamCount.toNat ≤ maxDownstreamCount.toNat := by
    have := (s.dec .cycle).downstreamCount.isLt
    simp only [maxDownstreamCount, BitVec.toNat_allOnes]
    omega
  simp only [debugCheck, Bool.and_eq_true, Bool.or_eq_true, beq_iff_eq, decide_eq_true_eq] at hcheck ⊢
  refine ⟨⟨⟨⟨⟨⟨⟨⟨⟨?_, ?_⟩, .inr havailable⟩, hbound⟩, ?_⟩, ?_⟩, ?_⟩, ?_⟩, ?_⟩, ?_⟩ <;> tauto

section

variable [DecidableEq Tid] {t : Tid} {o : Oracle Tid n} {sh sh' : Shared Tid P n}
  {pc pc' : Pc P n}

/-- A thread in a destroying call leaves it only when it becomes idle. -/
theorem ClientStep.destroying_or_idle (h : ClientStep b t o sh pc sh' pc')
    (himpl : ty.implemented = true) (hfits : pc.Fits ty) (hd : pc.destroying = true) :
    pc'.destroying = true ∨ pc' = .idle := by
  cases h
  case move hmove =>
    cases hmove
    case reloadReady w _ _ _ | measureDone w _ _ =>
      cases hp : w.policy <;>
        simp_all [countedReturn, WaitCall.policy, Pc.destroying, Pc.waitCall?]
    all_goals simp_all [Pc.destroying, Pc.waitCall?]
  case release w outcome _ _ =>
    unfold afterRelease
    split_ifs <;> simp_all [Pc.destroying, Pc.waitCall?]
  case cancel hk hpc =>
    obtain rfl : _ = ty := hfits
    obtain ⟨-, rfl⟩ | ⟨-, -, rfl⟩ | ⟨-, -, rfl⟩ := afterCancel_eq_ok himpl hpc <;>
      simp_all [Pc.destroying]
  case cancelLatch => split <;> simp_all [Pc.destroying]
  case finish => split <;> simp_all [Pc.destroying, Pc.waitCall?]
  all_goals simp_all [Pc.destroying, Pc.waitCall?]

/-- A final state stays final until the future is liberated. -/
theorem ClientStep.result (h : ClientStep b t o sh pc sh' pc') (hword : sh.word.Typed ty)
    (ho : sh.word.downstreamCountOverflow = false) (howed : pc.owed ≤ sh.word.count)
    (hr : sh.word.state = .result) : sh'.word.state = .result ∨ sh'.liberated = true := by
  have hsub : pc.owed = 1 → sh.word.fetchSub.state = .result := fun h1 => by
    rw [FutureStatus.fetchSub_eq (h1 ▸ howed)]
    exact hr
  have hadd : sh.word.fetchAdd.state = .result := by
    by_cases hmax : sh.word.downstreamCount = FutureStatus.maxDownstreamCount
    · rw [FutureStatus.fetchAdd_of_max ho hmax]
      exact hr
    · rw [FutureStatus.fetchAdd_of_ne hmax]
      exact hr
  have hknown : sh.word.outcome ≠ .unknown := fun hk => by
    simpa [hr, FutureState.hasOutcome] using hword.outcome_unknown_iff.mp hk
  cases h
  case countDec | countDecFails | timerRevert | timerRevertFails => exact .inl (hsub rfl)
  case timerInc | timerIncReady | timerIncFails => exact .inl hadd
  case cancel hk _ | cancelFails hk _ => exact absurd hk hknown
  case release => simp [FutureStatus.released, hr]
  case publish => simp [FutureStatus.published]
  case wakeOne => cases hw : o.wakee <;> simpa [wakeByAddressSingle] using .inl hr
  case liberate | liberateFails => exact .inr rfl
  all_goals exact .inl hr

/-- `available` is only cleared by `future_finish`, before the future is liberated. -/
theorem ClientStep.available (h : ClientStep b t o sh pc sh' pc')
    (ho : sh.word.downstreamCountOverflow = false) (howed : pc.owed ≤ sh.word.count)
    (hd : pc.destroying = false) : sh'.word.available = sh.word.available := by
  have hsub : pc.owed = 1 → sh.word.fetchSub.available = sh.word.available := fun h1 => by
    rw [FutureStatus.fetchSub_eq (h1 ▸ howed)]
    rfl
  have hadd : sh.word.fetchAdd.available = sh.word.available := by
    by_cases hmax : sh.word.downstreamCount = FutureStatus.maxDownstreamCount
    · rw [FutureStatus.fetchAdd_of_max ho hmax]
    · rw [FutureStatus.fetchAdd_of_ne hmax]
  cases h
  case countDec | countDecFails | timerRevert | timerRevertFails => exact hsub rfl
  case timerInc | timerIncReady | timerIncFails => exact hadd
  case wakeOne => cases hw : o.wakee <;> simp [wakeByAddressSingle]
  case finish | liberate | liberateFails => simp [Pc.destroying] at hd
  all_goals rfl

/-- What a step does to the record of detached upstreams. -/
theorem ClientStep.detach_progress (h : ClientStep b t o sh pc sh' pc')
    (hword : sh.word.Typed .join) (hfits : pc.Fits .join) (hd : pc'.destroying = true)
    (hdet : sh.DetachedUpTo pc.detachProgress) : sh'.DetachedUpTo pc'.detachProgress := by
  cases h
  case move hmove =>
    cases hmove
    case finishAlone hty => exact absurd hword.type hty
    case reloadReady | measureDone =>
      rw [Pc.detachProgress_countedReturn]
      exact hdet
    all_goals exact hdet
  case release w outcome _ _ =>
    rw [Pc.detachProgress_afterRelease]
    exact hdet
  case cancel hk hpc =>
    obtain rfl : _ = FutureType.join := hfits
    obtain ⟨-, rfl⟩ | ⟨-, -, rfl⟩ | ⟨-, -, rfl⟩ := afterCancel_eq_ok rfl hpc <;> exact hdet
  case cancelLatch fin status => cases hn : status.notifyAddress <;> exact hdet
  case finish => split <;> exact hdet
  case wakeOne => cases hw : o.wakee <;> exact hdet
  case detach j =>
    intro i
    obtain ⟨hlow, hhigh⟩ := hdet i
    simp only [Pc.detachProgress] at hlow hhigh ⊢
    rcases eq_or_ne i j with rfl | hij
    · exact ⟨fun _ => by simp [hhigh (le_refl _)], fun h => by omega⟩
    · have hne : i.val ≠ j.val := fun h => hij (Fin.ext h)
      rw [update_of_ne hij]
      exact ⟨fun h => hlow (by omega), fun h => hhigh (by omega)⟩
  case detached hi =>
    intro i
    have hlt := i.isLt
    have hlow := (hdet i).1
    simp only [Pc.detachProgress] at hlow ⊢
    exact ⟨fun _ => hlow (by omega), fun h => by omega⟩
  case countDecFails | timerIncFails | timerRevertFails | cancelFails | detachFails | waited
    | polled | liberate | liberateFails | canceled => simp [Pc.destroying, Pc.waitCall?] at hd
  all_goals exact hdet

/-- Upstreams are detached, and the future liberated, by destroying calls only. -/
theorem ClientStep.detached_eq (h : ClientStep b t o sh pc sh' pc') (hd : pc.destroying = false) :
    sh'.detached = sh.detached ∧ sh'.liberated = sh.liberated := by
  cases h
  case detach | detachFails | liberate | liberateFails => simp [Pc.destroying] at hd
  case wakeOne => cases hw : o.wakee <;> exact ⟨rfl, rfl⟩
  all_goals exact ⟨rfl, rfl⟩

end

variable [Fintype Tid]

/-- What holds around a destroying call. -/
structure Lifetime (ty : FutureType) (s : State Tid P n) : Prop where
  finisher : ∀ t, s.shared.finisher = some t → s.pc t = .idle ∨ (s.pc t).destroying = true
  available : s.shared.finisher = none → s.shared.word.available = true
  untouched : s.shared.finisher = none → ∀ i, s.shared.detached i = 0
  progress : ty = .join → ∀ u, (s.pc u).destroying = true →
    s.shared.DetachedUpTo (s.pc u).detachProgress
  complete : ty = .join → s.shared.liberated = true → ∀ i, s.shared.detached i = 1
  result : s.shared.liberated = false → ∀ u l, (s.pc u).snapshot? = some l →
    l.state = .result → s.shared.word.state = .result

namespace Lifetime

variable [DecidableEq Tid] {s s' : State Tid P n} {t : Tid} {o : Oracle Tid n}

/-- The step lemma for clients. -/
theorem client (h : Lifetime ty s) (hbase : Base ty s) (himpl : ty.implemented = true)
    (hrun : s.shared.aborted = none) (hidle : s.pc t ≠ .idle) {sh' : Shared Tid P n}
    {pc' : Pc P n} (hstep : ClientStep b t o s.shared (s.pc t) sh' pc') :
    Lifetime ty { s with shared := sh', pc := update s.pc t pc' } := by
  have hlib := hbase.liberated_eq_false hidle
  have hword := hbase.typed hlib
  have ho := hbase.overflow_eq_false hrun
  have howed := hbase.owed_le ho hidle
  obtain ⟨-, hfin, -, hlib'⟩ := hstep.frame
  -- a thread in a call is the finisher, if there is one
  have hself : ∀ v, s.shared.finisher = some v → v = t := fun v hv => by
    by_contra hne
    exact hidle ((hbase.alone v hv).2 t fun h => hne h.symm)
  have hnone : s.shared.finisher = none → (s.pc t).destroying = false := fun hnone => by
    by_contra hd
    simpa [hnone] using hbase.destroying t (by simpa using hd)
  refine ⟨fun v hv => ?_, fun hv => ?_, fun hv => ?_, fun hty => ?_, fun hty hl => ?_,
    fun hl => ?_⟩
  · rw [hfin] at hv
    obtain rfl := hself v hv
    have hd := (h.finisher v hv).resolve_left hidle
    simpa [or_comm] using hstep.destroying_or_idle himpl (hbase.fits v) hd
  · rw [hfin] at hv
    exact (hstep.available ho howed (hnone hv)).trans (h.available hv)
  · rw [hfin] at hv
    simpa [(hstep.detached_eq (hnone hv)).1] using h.untouched hv
  · subst hty
    refine forall_update (P := fun _ (pc : Pc P n) => pc.destroying = true →
      sh'.DetachedUpTo pc.detachProgress) (fun hd => ?_) fun u hut hd => ?_
    · exact hstep.detach_progress hword (hbase.fits t) hd
        (h.progress rfl t (hstep.destroying himpl (hbase.fits t) hd))
    · exact absurd (hself u (hbase.destroying u hd)) hut
  · subst hty
    obtain hl | ⟨f, r, hpc, rfl⟩ := hlib' hl
    · simp [hlib] at hl
    · intro i
      have hall := (h.progress rfl t (by simp [hpc, Pc.destroying]) i).1
        (by simp [hpc, Pc.detachProgress])
      rw [hpc] at hstep
      cases hstep
      case move hmove => cases hmove
      all_goals exact hall
  · have hstays : s.shared.word.state = .result → sh'.word.state = .result := fun hr =>
      (hstep.result hword ho howed hr).resolve_right (by simpa using hl)
    refine forall_update (P := fun _ (pc : Pc P n) => ∀ l, pc.snapshot? = some l →
      l.state = .result → sh'.word.state = .result) (fun l hsnap hr => ?_)
      fun u _ l hsnap hr => hstays (h.result hlib u l hsnap hr)
    obtain hold | rfl | rfl := hstep.snapshot himpl (hbase.fits t) howed hsnap
    · exact hstays (h.result hlib t l hold hr)
    · exact hstays hr
    · exact hr

/-- A call starts. -/
theorem call (h : Lifetime ty s) (hbase : Base ty s) {c : Call} (hc : c.allowed s = true) :
    Lifetime ty { s with
      shared := { s.shared with finisher := if c.destroys then some t else s.shared.finisher }
      pc := update s.pc t c.start } := by
  have hnone : s.shared.finisher = none := by
    simpa [Call.allowed] using (Bool.and_eq_true_iff.mp hc).1
  have hlib := hbase.liberated_of_finisher hnone
  have hd : (c.start : Pc P n).destroying = c.destroys := by
    cases c <;> simp [Call.start, Pc.destroying, Pc.waitCall?, Call.destroys]
  refine ⟨fun v hv => ?_, fun _ => h.available hnone, fun _ => h.untouched hnone, fun hty => ?_,
    fun _ hl => absurd hl (by simp [hlib]), fun _ => ?_⟩
  · cases hdes : c.destroys with
    | true =>
        obtain rfl : t = v := by simpa [hdes] using hv
        exact .inr (by simp [hd, hdes])
    | false => simp [hdes, hnone] at hv
  · refine forall_update (P := fun _ (pc : Pc P n) => pc.destroying = true →
      s.shared.DetachedUpTo pc.detachProgress) (fun _ => ?_) fun u _ hdu => ?_
    · have hzero : (c.start : Pc P n).detachProgress = 0 := by cases c <;> rfl
      rw [hzero]
      exact fun i => ⟨fun hi => absurd hi (by omega), fun _ => h.untouched hnone i⟩
    · exact absurd (hbase.destroying u hdu) (by simp [hnone])
  · exact forall_update (P := fun _ (pc : Pc P n) => ∀ l, pc.snapshot? = some l →
      l.state = .result → s.shared.word.state = .result)
      (fun l hl => by cases c <;> simp [Call.start, Pc.snapshot?] at hl)
      fun u _ => h.result hlib u

omit [DecidableEq Tid] [Fintype Tid] in
/-- A change of the word outside the clients. -/
theorem congr (h : Lifetime ty s) (hfin : s'.shared.finisher = s.shared.finisher)
    (hdet : s'.shared.detached = s.shared.detached)
    (hlib : s'.shared.liberated = s.shared.liberated) (hpc : s'.pc = s.pc)
    (havailable : s'.shared.word.available = s.shared.word.available)
    (hresult : s.shared.word.state = .result → s'.shared.word.state = .result) :
    Lifetime ty s' := by
  refine ⟨?_, ?_, ?_, ?_, ?_, fun hl u l hsnap hr => hresult ?_⟩
  · simpa only [hfin, hpc] using h.finisher
  · simpa only [hfin, havailable] using h.available
  · simpa only [hfin, hdet] using h.untouched
  · simpa only [hpc, Shared.DetachedUpTo, hdet] using h.progress
  · simpa only [hlib, hdet] using h.complete
  · exact h.result (hlib ▸ hl) u l (hpc ▸ hsnap) hr

/-- The step lemma. -/
theorem step (h : Lifetime ty s) (hbase : Base ty s) (himpl : ty.implemented = true)
    {e : Event Tid P n} (hstep : Udipe.step b s e = some s') : Lifetime ty s' := by
  have hrun := aborted_eq_none_of_step hstep
  cases step_cases hstep with
  | call _ hc => exact h.call hbase hc
  | client hpc hidle _ _ hclient =>
      subst hpc
      exact h.client hbase himpl hrun hidle hclient
  | worker hw hworker =>
      cases hworker
      case notifyAddress | notifyEvent =>
        exact h.congr (by split <;> rfl) (by split <;> rfl) (by split <;> rfl) rfl
          (by split <;> rfl) (by split <;> exact id)
      case set | ack => exact h.congr rfl rfl rfl rfl rfl fun _ => rfl
      all_goals exact h.congr rfl rfl rfl rfl rfl id
  | workerCanceled | workerAcknowledge | workerSet | clientFails | workerFails | timerExpires
  | upstreamChanges => exact h.congr rfl rfl rfl rfl rfl id
  | downstreamDetaches hd | downstreamFails _ hd =>
      obtain ⟨-, heq⟩ := hbase.fetchSub_eq hrun hd
      exact h.congr rfl rfl rfl rfl (by rw [heq]; rfl) (by rw [heq]; exact id)

end Lifetime

omit [Fintype Tid] in
theorem lifetime_start {status : FutureStatus} {payload : P} {upstream : Fin n → FutureStatus}
    (h : status.startable = true) :
    Lifetime ty (State.start status payload upstream : State Tid P n) where
  finisher := fun _ hf => by simp [State.start] at hf
  available := fun _ => FutureStatus.startable_available h
  untouched := fun _ _ => rfl
  progress := fun _ _ hd => by simp [State.start, Pc.destroying, Pc.waitCall?] at hd
  complete := fun _ hl => by simp [State.start] at hl
  result := fun _ _ _ hl => by simp [State.start, Pc.snapshot?] at hl

end Udipe

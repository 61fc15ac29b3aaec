import Udipe.Future.Invariant

/-!
# Who sleeps in a futex wait

Reference: `future/wait.c` (`future_wait_by_adress`), `address_wait.c`.

Only a thread in `future_wait_by_adress` sleeps, and while one is there `notify_address` is set in the
status word: every waiter sets it before it gets there, and no operation clears it.
-/

namespace Udipe

open Function Threads

variable {Tid P : Type} {n : ℕ} {ty : FutureType} {b : Build}

/-- The thread is in `future_wait_by_adress`. -/
def Pc.atAddress : Pc P n → Bool
  | .addressEnter _ _ | .addressWait _ _ | .addressBlocked _ _ | .addressReload _ _ _
  | .addressMeasure _ _ => true
  | _ => false

@[simp] theorem Pc.atAddress_countedReturn {w : WaitCall} {s : FutureStatus} :
    (countedReturn w s : Pc P n).atAddress = false := by
  cases hp : w.policy <;> simp [countedReturn, hp, atAddress]

@[simp] theorem Pc.atAddress_afterRelease {w : WaitCall} {s : FutureStatus}
    {outcome : FutureOutcome} : (afterRelease w s outcome : Pc P n).atAddress = false := by
  unfold afterRelease
  split_ifs <;> rfl

/-- Registering a registered waiter changes nothing only if the flag is set. -/
theorem FutureStatus.notifyAddress_of_registered_eq {p : DownstreamCountPolicy} {s : FutureStatus}
    (h : s.registered p = s) : s.notifyAddress = true := by
  rw [← h]
  rfl

section

variable [DecidableEq Tid] {t : Tid} {o : Oracle Tid n} {sh sh' : Shared Tid P n}
  {pc pc' : Pc P n}

/-- No operation clears `notify_address`. -/
theorem ClientStep.notifyAddress (h : ClientStep b t o sh pc sh' pc')
    (ho : sh.word.downstreamCountOverflow = false) (howed : pc.owed ≤ sh.word.count)
    (hlib : sh'.liberated = false) (hn : sh.word.notifyAddress = true) :
    sh'.word.notifyAddress = true := by
  have hsub : pc.owed = 1 → sh.word.fetchSub.notifyAddress = true := fun h1 => by
    rw [FutureStatus.fetchSub_eq (h1 ▸ howed)]
    exact hn
  have hadd : sh.word.fetchAdd.notifyAddress = true := by
    by_cases hmax : sh.word.downstreamCount = FutureStatus.maxDownstreamCount
    · rw [FutureStatus.fetchAdd_of_max ho hmax]
      exact hn
    · rw [FutureStatus.fetchAdd_of_ne hmax]
      exact hn
  cases h
  case countDec | countDecFails | timerRevert | timerRevertFails => exact hsub rfl
  case timerInc | timerIncReady | timerIncFails => exact hadd
  case eagerRegister | joinRegister => rfl
  case wakeOne => cases hw : o.wakee <;> exact hn
  case liberate | liberateFails => simp at hlib
  all_goals exact hn

/-- A thread enters `future_wait_by_adress` with `notify_address` set. -/
theorem ClientStep.atAddress (h : ClientStep b t o sh pc sh' pc') (himpl : ty.implemented = true)
    (hfits : pc.Fits ty) (ha : pc'.atAddress = true) :
    pc.atAddress = true ∨ sh'.word.notifyAddress = true ∨
      ∃ l, pc.snapshot? = some l ∧ l.notifyAddress = true := by
  cases h
  case move hmove =>
    cases hmove
    case reloadReady | measureDone => simp at ha
    case eagerKnown hl | joinKnown hl =>
      exact .inr (.inr ⟨_, rfl, FutureStatus.notifyAddress_of_registered_eq hl⟩)
    all_goals first | exact .inl rfl | simp [Pc.atAddress] at ha
  case eagerRegister | joinRegister => exact .inr (.inl rfl)
  case sleep | wakeSpurious | wakeTimeout => exact .inl rfl
  case release => simp at ha
  case cancel hk hpc =>
    obtain rfl : _ = ty := hfits
    obtain ⟨-, rfl⟩ | ⟨-, -, rfl⟩ | ⟨-, -, rfl⟩ := afterCancel_eq_ok himpl hpc <;>
      simp [Pc.atAddress] at ha
  case cancelLatch => split at ha <;> simp [Pc.atAddress] at ha
  case finish => split at ha <;> simp [Pc.atAddress] at ha
  all_goals simp [Pc.atAddress] at ha

/-- A thread falls asleep on a status word that it has just compared, and a blocked thread that moves is
awake. -/
theorem ClientStep.asleep (h : ClientStep b t o sh pc sh' pc') {u : Tid}
    (hu : sh'.asleep u = true) :
    (sh.asleep u = true ∧ (u = t → ∀ w l, pc ≠ .addressBlocked w l)) ∨
      u = t ∧ ∃ w, pc = .addressWait w sh.word ∧ pc' = .addressBlocked w sh.word ∧
        sh'.word = sh.word := by
  cases h
  case move hmove =>
    refine .inl ⟨hu, fun hut w l hpc => ?_⟩
    subst hpc hut
    cases hmove
    case addressWoken ha => simp [ha] at hu
  case sleep w hw =>
    rcases eq_or_ne u t with rfl | hut
    · exact .inr ⟨rfl, w, rfl, rfl, rfl⟩
    · exact .inl ⟨by simpa [update_of_ne hut] using hu, fun h => absurd h hut⟩
  case wakeSpurious | wakeTimeout =>
    rcases eq_or_ne u t with rfl | hut
    · simp at hu
    · exact .inl ⟨by simpa [update_of_ne hut] using hu, fun h => absurd h hut⟩
  case wakeAll | cancelWake => simp [wakeByAddressAll] at hu
  case wakeOne =>
    cases hw : o.wakee with
    | none => exact .inl ⟨by simpa [wakeByAddressSingle, hw] using hu, by simp⟩
    | some v =>
        rcases eq_or_ne u v with rfl | huv
        · simp [wakeByAddressSingle, hw] at hu
        · exact .inl ⟨by simpa [wakeByAddressSingle, hw, update_of_ne huv] using hu, by simp⟩
  all_goals exact .inl ⟨hu, by simp⟩

end

/-- The worker wakes threads, and keeps `notify_address`. -/
theorem WorkerStep.asleep {o : Oracle Tid n} {sh sh' : Shared Tid P n} {pc pc' : WorkerPc P}
    (h : WorkerStep b o sh pc sh' pc') : sh'.word.notifyAddress = sh.word.notifyAddress ∧
      ∀ u, sh'.asleep u = true → sh.asleep u = true := by
  cases h
  case notifyAddress => split <;> simp [wakeByAddressAll]
  case notifyEvent => split <;> simp
  all_goals exact ⟨rfl, fun _ hu => hu⟩

/-! ## The invariant -/

/-- Sleepers are in a futex wait, and `notify_address` announces them. -/
structure Sleep (s : State Tid P n) : Prop where
  blocked : ∀ u, s.shared.asleep u = true → ∃ w l, s.pc u = .addressBlocked w l
  flag : s.shared.liberated = false → ∀ u l, (s.pc u).snapshot? = some l →
    l.notifyAddress = true → s.shared.word.notifyAddress = true
  address : s.shared.liberated = false → ∀ u, (s.pc u).atAddress = true →
    s.shared.word.notifyAddress = true

namespace Sleep

variable [DecidableEq Tid] [Fintype Tid] {s s' : State Tid P n} {t : Tid} {o : Oracle Tid n}
  {e : Event Tid P n}

omit [DecidableEq Tid] [Fintype Tid] in
/-- A sleeper is announced. -/
theorem announced (h : Sleep s) (hlib : s.shared.liberated = false)
    (hu : s.shared.asleep t = true) : s.shared.word.notifyAddress = true := by
  obtain ⟨w, l, hpc⟩ := h.blocked t hu
  exact h.address hlib t (by rw [hpc]; rfl)

omit [Fintype Tid] in
/-- A thread that moves is awake after its step, unless it has just fallen asleep. -/
theorem asleep_step (h : Sleep s) {sh' : Shared Tid P n} {pc' : Pc P n}
    (hstep : ClientStep b t o s.shared (s.pc t) sh' pc') {u : Tid} (hu : sh'.asleep u = true) :
    (u ≠ t ∧ s.shared.asleep u = true) ∨
      u = t ∧ ∃ w, s.pc t = .addressWait w s.shared.word ∧
        pc' = .addressBlocked w s.shared.word ∧ sh'.word = s.shared.word := by
  obtain ⟨hold, hmoved⟩ | hnew := hstep.asleep hu
  · refine .inl ⟨fun hut => ?_, hold⟩
    subst hut
    obtain ⟨w, l, hpc⟩ := h.blocked u hold
    exact hmoved rfl w l hpc
  · exact .inr hnew

/-- The step lemma for clients. -/
theorem client (h : Sleep s) (hbase : Base ty s) (himpl : ty.implemented = true)
    (hrun : s.shared.aborted = none) (hidle : s.pc t ≠ .idle) {sh' : Shared Tid P n} {pc' : Pc P n}
    (hstep : ClientStep b t o s.shared (s.pc t) sh' pc') :
    Sleep { s with shared := sh', pc := update s.pc t pc' } := by
  have hlib := hbase.liberated_eq_false hidle
  have ho := hbase.overflow_eq_false hrun
  have howed := hbase.owed_le ho hidle
  have hkeep : sh'.liberated = false → s.shared.word.notifyAddress = true →
      sh'.word.notifyAddress = true := hstep.notifyAddress ho howed
  refine ⟨fun u hu => ?_, fun hl => ?_, fun hl => ?_⟩
  · obtain ⟨hut, hold⟩ | ⟨rfl, w, -, rfl, -⟩ := h.asleep_step hstep hu
    · simpa [update_of_ne hut] using h.blocked u hold
    · exact ⟨w, s.shared.word, by simp⟩
  · refine forall_update (P := fun _ (pc : Pc P n) => ∀ l, pc.snapshot? = some l →
      l.notifyAddress = true → sh'.word.notifyAddress = true) (fun l hsnap hn => ?_)
      fun u _ l hsnap hn => hkeep hl (h.flag hlib u l hsnap hn)
    obtain hold | rfl | rfl := hstep.snapshot himpl (hbase.fits t) howed hsnap
    · exact hkeep hl (h.flag hlib t l hold hn)
    · exact hkeep hl hn
    · exact hn
  · refine forall_update (P := fun _ (pc : Pc P n) => pc.atAddress = true →
      sh'.word.notifyAddress = true) (fun ha => ?_) fun u _ ha => hkeep hl (h.address hlib u ha)
    obtain ha | hn | ⟨l, hsnap, hn⟩ := hstep.atAddress himpl (hbase.fits t) ha
    · exact hkeep hl (h.address hlib t ha)
    · exact hn
    · exact hkeep hl (h.flag hlib t l hsnap hn)

omit [DecidableEq Tid] [Fintype Tid] in
/-- The word changes outside the clients, who may be woken. -/
theorem congr (h : Sleep s) (hn : s'.shared.word.notifyAddress = s.shared.word.notifyAddress)
    (hasleep : ∀ u, s'.shared.asleep u = true → s.shared.asleep u = true)
    (hlib : s'.shared.liberated = s.shared.liberated) (hpc : s'.pc = s.pc) : Sleep s' := by
  refine ⟨fun u hu => ?_, ?_, ?_⟩
  · simpa only [hpc] using h.blocked u (hasleep u hu)
  · simpa only [hlib, hpc, hn] using h.flag
  · simpa only [hlib, hpc, hn] using h.address

/-- The step lemma. -/
theorem step (h : Sleep s) (hbase : Base ty s) (himpl : ty.implemented = true)
    (hstep : (future b).step s e = some s') : Sleep s' := by
  have hrun := aborted_eq_none_of_step hstep
  cases step_cases hstep with
  | @call t c hidle hc =>
      refine ⟨fun u hu => ?_, fun hl => ?_, fun hl => ?_⟩
      · have hut : u ≠ t := fun hut => by
          obtain ⟨w, l, hpc⟩ := h.blocked u hu
          simp [hut, hidle] at hpc
        simpa [update_of_ne hut] using h.blocked u hu
      · exact forall_update (P := fun _ (pc : Pc P n) => ∀ l, pc.snapshot? = some l →
          l.notifyAddress = true → s.shared.word.notifyAddress = true)
          (fun l hl => by cases c <;> simp [Call.start, Pc.snapshot?] at hl)
          fun u _ => h.flag hl u
      · exact forall_update (P := fun _ (pc : Pc P n) => pc.atAddress = true →
          s.shared.word.notifyAddress = true)
          (fun ha => by cases c <;> simp [Call.start, Pc.atAddress] at ha)
          fun u _ => h.address hl u
  | client hpc hidle _ _ hclient =>
      subst hpc
      exact h.client hbase himpl hrun hidle hclient
  | worker _ hworker =>
      obtain ⟨hn, hasleep⟩ := hworker.asleep
      exact h.congr hn hasleep hworker.frame.2.2.1 rfl
  | workerCanceled | workerAcknowledge | workerSet | clientFails | workerFails | timerExpires
  | upstreamChanges => exact h.congr rfl (fun _ hu => hu) rfl rfl
  | downstreamDetaches hd | downstreamFails _ hd =>
      obtain ⟨-, heq⟩ := hbase.fetchSub_eq hrun hd
      exact h.congr (by rw [heq]; rfl) (fun _ hu => hu) rfl rfl

end Sleep

theorem sleep_start {status : FutureStatus} {payload : P} {upstream : Fin n → FutureStatus} :
    Sleep (State.start status payload upstream : State Tid P n) where
  blocked := fun _ hu => by simp [State.start] at hu
  flag := fun _ _ _ hl => by simp [State.start, Pc.snapshot?] at hl
  address := fun _ _ ha => by simp [State.start, Pc.atAddress] at ha

end Udipe

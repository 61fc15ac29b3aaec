import Udipe.Future.Answers

/-!
# The race between cancelation and completion of a custom future

Reference: `future.c` (`udipe_cancel`, `udipe_custom_try_set_result`,
`udipe_custom_acknowledge_cancel`).

`WorkerPc.Agrees` ties the point that the worker has reached to the state and the outcome in the status
word, and `Race` adds the answers that clients hold. One step of a client either leaves state and
outcome alone or cancels a future that is processing; one step of the worker completes a future
that nobody can complete or cancel after it.
-/

namespace Udipe

open Function Threads

variable {Tid P : Type} {n : ℕ} {b : Build}

/-- How the worker ended, once its compare-exchange has completed the future. -/
def WorkerPc.returned? : WorkerPc P → Option WorkerReturn
  | .notifyAddress ret _ | .notifyEvent ret _ | .done ret => some ret
  | _ => none

/-- The worker's point agrees with the shared state. `given` are the arguments of
`udipe_custom_try_set_result`. -/
def WorkerPc.Agrees (sh : Shared Tid P n) (given : Option (Bool × P)) : WorkerPc P → Prop
  | .absent => False
  | .running saw | .canceledLoad saw =>
      sh.word.state ≠ .result ∧ (saw = true → sh.word.outcome = .failureCanceled)
  | .setLoad successful payload => sh.word.state ≠ .result ∧ given = some (successful, payload)
  | .setCheck successful payload payloadSet status =>
      sh.word.state ≠ .result ∧ given = some (successful, payload) ∧
        (payloadSet = true → sh.payload = payload) ∧
        (status.state = .canceling → sh.word.outcome = .failureCanceled)
  | .setCas successful payload _ =>
      sh.word.state ≠ .result ∧ given = some (successful, payload) ∧ sh.payload = payload
  | .ackLoad ret | .ackCas ret _ =>
      sh.word.state ≠ .result ∧ sh.word.outcome = .failureCanceled ∧ ret ≠ some true
  | .notifyAddress ret _ | .notifyEvent ret _ | .done ret =>
      sh.word.state = .result ∧
        if ret = some true then
          sh.word.outcome = .success ∧ ∃ successful, given = some (successful, sh.payload)
        else sh.word.outcome = .failureCanceled

namespace WorkerPc.Agrees

variable {sh sh' : Shared Tid P n} {given : Option (Bool × P)} {pc pc' : WorkerPc P}

/-- Only the state, the outcome and the payload matter. -/
theorem congr (h : pc.Agrees sh given) (hstate : sh'.word.state = sh.word.state)
    (houtcome : sh'.word.outcome = sh.word.outcome) (hpayload : sh'.payload = sh.payload) :
    pc.Agrees sh' given := by
  cases pc
  case absent => exact h
  all_goals
    simp only [Agrees, hstate, houtcome, hpayload] at h ⊢
    exact h

/-- A future that is canceled was not completed. -/
theorem cancel (h : pc.Agrees sh given) (hk : sh.word.outcome = .unknown)
    (hword : sh'.word = sh.word.canceledAs .custom) (hpayload : sh'.payload = sh.payload) :
    pc.Agrees sh' given := by
  have hstate : sh'.word.state = .canceling := by
    simp [hword, FutureStatus.canceledAs, FutureType.usesWorkerThread]
  have houtcome : sh'.word.outcome = .failureCanceled := by rw [hword]; rfl
  cases pc
  case absent => exact h
  case notifyAddress ret status | notifyEvent ret status | done ret =>
    -- a completed future has an outcome
    have hdone := h.2
    rw [hk] at hdone
    split at hdone <;> simp at hdone
  all_goals simp_all [Agrees]

/-- The word was completed exactly when the worker's compare-exchange is past. -/
theorem returned (h : pc.Agrees sh given) :
    (sh.word.state = .result ↔ pc.returned?.isSome = true) ∧
      ∀ ret, pc.returned? = some ret →
        if ret = some true then
          sh.word.outcome = .success ∧ ∃ successful, given = some (successful, sh.payload)
        else sh.word.outcome = .failureCanceled := by
  cases pc
  case absent => exact h.elim
  case notifyAddress | notifyEvent | done =>
    exact ⟨by simp [h.1, returned?], fun ret hret => by
      obtain rfl := Option.some.inj hret
      exact h.2⟩
  all_goals exact ⟨by simp [h.1, returned?], fun _ hret => by simp [returned?] at hret⟩

/-- One step of the worker. A canceling future has the canceled outcome. -/
theorem step {o : Oracle Tid n} (h : pc.Agrees sh given)
    (hcanceling : sh.word.state = .canceling → sh.word.outcome = .failureCanceled)
    (hstep : WorkerStep b o sh pc sh' pc') : pc'.Agrees sh' given := by
  cases hstep
  case canceledLoad saw hs =>
    refine ⟨h.1, fun hsaw => ?_⟩
    obtain hsaw | hsaw := Bool.or_eq_true_iff.mp hsaw
    · exact h.2 hsaw
    · exact hcanceling (by simpa using hsaw)
  case setLoad => exact ⟨h.1, h.2, by simp, hcanceling⟩
  case setCanceled hs => exact ⟨h.1, h.2.2.2 hs, by simp⟩
  case setAgain => exact ⟨h.1, h.2.1, h.2.2.1 rfl⟩
  case setPayload => exact ⟨h.1, h.2.1, rfl⟩
  case set successful payload ho =>
    obtain ⟨-, hgiven, rfl⟩ := h
    unfold futureNotifyEagerOutcome
    split <;> exact ⟨rfl, by rw [if_pos rfl]; exact ⟨rfl, successful, hgiven⟩⟩
  case setRetry => exact ⟨h.1, h.2.1, fun _ => h.2.2, hcanceling⟩
  case ackLoad | ackRetry => exact h
  case ack ret ho hs =>
    obtain ⟨-, houtcome, hret⟩ := h
    unfold futureNotifyEagerOutcome
    split <;> exact ⟨rfl, by rw [if_neg hret]; exact houtcome⟩
  case notifyAddress | notifyEvent => split <;> exact h

end WorkerPc.Agrees

/-- The worker completes the future by one of two compare-exchanges, and writes the payload before. -/
theorem WorkerStep.completes {o : Oracle Tid n} {sh sh' : Shared Tid P n} {pc pc' : WorkerPc P}
    (h : WorkerStep b o sh pc sh' pc') :
    sh'.word = sh.word ∧ pc'.returned? = pc.returned? ∧ (pc.returned?.isSome → sh'.payload = sh.payload) ∨
      sh'.payload = sh.payload ∧
        ((∃ successful payload, pc = .setCas successful payload sh.word ∧
            sh'.word = sh.word.succeeded ∧ pc' = futureNotifyEagerOutcome (some true) sh'.word) ∨
          ∃ ret, pc = .ackCas ret sh.word ∧ sh.word.state = .canceling ∧
            sh'.word = sh.word.acknowledged ∧ pc' = futureNotifyEagerOutcome ret sh'.word) := by
  cases h
  case set => exact .inr ⟨rfl, .inl ⟨_, _, rfl, rfl, rfl⟩⟩
  case ack hs => exact .inr ⟨rfl, .inr ⟨_, rfl, hs, rfl, rfl⟩⟩
  case notifyAddress | notifyEvent =>
    split <;> exact .inl ⟨rfl, rfl, fun _ => rfl⟩
  all_goals exact .inl ⟨rfl, rfl, fun hsome => by simp [WorkerPc.returned?] at hsome ⊢⟩

/-- The worker tries to complete a future only after it has seen it processing. -/
theorem WorkerStep.processing {o : Oracle Tid n} {sh sh' : Shared Tid P n} {pc pc' : WorkerPc P}
    (h : WorkerStep b o sh pc sh' pc') {successful : Bool} {payload : P} {l : FutureStatus}
    (hpc : pc' = .setCas successful payload l) : l.state = .processing := by
  cases h
  case setAgain hs | setPayload hs =>
    obtain ⟨-, -, rfl⟩ := WorkerPc.setCas.inj hpc
    exact hs
  case set | ack =>
    unfold futureNotifyEagerOutcome at hpc
    split at hpc <;> simp at hpc
  all_goals simp at hpc

/-! ## The invariant -/

namespace FutureStatus.Typed

variable {l : FutureStatus}

/-- A custom future fails only by its worker or by a cancelation. -/
theorem outcome_custom (h : l.Typed .custom) : l.outcome ≠ .failureDependency := by
  intro ho
  have houtcome := h.outcome
  simp [outcomeCheck, ho, h.type, FutureType.hasDependencies] at houtcome

/-- Only a completed future is successful. -/
theorem state_of_success {ty : FutureType} (h : l.Typed ty) (ho : l.outcome = .success) :
    l.state = .result := by
  have houtcome := h.outcome
  simp only [outcomeCheck, ho, Bool.and_eq_true, beq_iff_eq] at houtcome
  exact houtcome.2

/-- A future that is being canceled has the canceled outcome. -/
theorem outcome_of_canceling (h : l.Typed .custom) (hne : l.outcome ≠ .failureInternal)
    (hs : l.state = .canceling) : l.outcome = .failureCanceled := by
  have houtcome := h.outcome
  cases ho : l.outcome <;>
    simp_all [outcomeCheck, FutureState.hasOutcome, FutureType.hasDependencies, h.type]

end FutureStatus.Typed

/-- State, outcome, answers and the worker's point fit together. -/
structure Race [Fintype Tid] (s : State Tid P n) : Prop where
  outcome : s.shared.liberated = false → s.shared.word.outcome ≠ .failureInternal
  worker : s.shared.liberated = false → s.worker.Agrees s.shared s.given
  processing : ∀ successful payload l, s.worker = .setCas successful payload l →
    l.state = .processing
  dead : s.shared.liberated = true → s.shared.word.state = .uninitialized
  final : s.shared.liberated = false → ∀ u l, (s.pc u).snapshot? = some l →
    l.outcome ≠ .unknown → s.shared.word.outcome = l.outcome
  answers : s.shared.liberated = false → s.shared.aborted = none →
    s.cancelations = if s.shared.word.outcome = .failureCanceled then 1 else 0
  few : s.shared.cancelations ≤ 1
  collected : s.shared.liberated = false → ∀ u r, (s.pc u).collected? = some r →
    r = .failureCanceled ∧ s.shared.word.outcome = .failureCanceled ∨
      r = .typed .custom (some s.shared.payload) ∧ s.shared.word.outcome = .success
  unreported : s.shared.liberated = false → ∀ v r, .finished v r ∉ s.shared.log
  reported : s.shared.liberated = true → ∀ v r, .finished v r ∈ s.shared.log →
    r = .failureCanceled ∧ s.shared.cancelations = 1 ∨
      s.shared.cancelations = 0 ∧ s.worker.returned? = some (some true) ∧
        ∃ successful payload, s.given = some (successful, payload) ∧
          r = .typed .custom (some payload)
  ended : s.shared.liberated = true → s.shared.aborted = none → ∀ ret,
    s.worker.returned? = some ret → s.shared.cancelations = if ret = some true then 0 else 1

namespace Race

variable [DecidableEq Tid] [Fintype Tid] {s s' : State Tid P n} {t : Tid} {o : Oracle Tid n}
  {e : Event Tid P n}

omit [DecidableEq Tid] in
/-- A future that is being canceled has the canceled outcome. -/
theorem canceling (h : Race s) (hbase : Base .custom s) (hlib : s.shared.liberated = false)
    (hs : s.shared.word.state = .canceling) : s.shared.word.outcome = .failureCanceled :=
  (hbase.typed hlib).outcome_of_canceling (h.outcome hlib) hs

omit [DecidableEq Tid] in
/-- A collected answer is the outcome of the future. -/
theorem collect (h : Race s) (hbase : Base .custom s) (hlib : s.shared.liberated = false)
    {l : FutureStatus} (hpc : s.pc t = .finishCollect .finish l) {r : Result P}
    (hr : collectResult b l s.shared.payload = .ok r) :
    r = .failureCanceled ∧ s.shared.word.outcome = .failureCanceled ∨
      r = .typed .custom (some s.shared.payload) ∧ s.shared.word.outcome = .success := by
  have hsnap : (s.pc t).snapshot? = some l := by rw [hpc]; rfl
  have hl := hbase.snapshot t l hsnap
  have hfinal := h.final hlib t l hsnap
  obtain ⟨ho, rfl⟩ | ⟨ho, -⟩ | ⟨ho, specific, rfl, hspecific⟩ := collectResult_eq_ok hl rfl hr
  · exact .inl ⟨rfl, (hfinal (by simp [ho])).trans ho⟩
  · exact absurd ho hl.outcome_custom
  · obtain ho | ho := ho
    · exact .inr ⟨by rw [hspecific rfl], (hfinal (by simp [ho])).trans ho⟩
    · exact absurd ((hfinal (by simp [ho])).trans ho) (h.outcome hlib)

/-- The answers after a client's step. -/
theorem answers_step (h : Race s) (hbase : Base .custom s) (hrun : s.shared.aborted = none)
    (hidle : s.pc t ≠ .idle) {sh' : Shared Tid P n} {pc' : Pc P n}
    (hstep : ClientStep b t o s.shared (s.pc t) sh' pc')
    (hmachine : (future b).step s (.client t o) =
      some { s with shared := sh', pc := update s.pc t pc' }) (halive : sh'.aborted = none) :
    ({ s with shared := sh', pc := update s.pc t pc' } : State Tid P n).cancelations =
      if sh'.liberated = true then
        if s.shared.word.outcome = .failureCanceled then 1 else 0
      else if sh'.word.outcome = .failureCanceled then 1 else 0 := by
  have hlib := hbase.liberated_eq_false hidle
  have howed := hbase.owed_le (hbase.overflow_eq_false hrun) hidle
  have hanswers := h.answers hlib hrun
  have hlaw := cancelations_step hbase rfl hmachine halive
  cases hl : sh'.liberated with
  | true =>
      obtain ⟨-, f, r, hpc⟩ := hstep.liberated hlib hl
      simp only [Event.cancels, hpc, Bool.toNat_false] at hlaw
      rw [if_pos rfl, ← hanswers]
      omega
  | false =>
      rw [if_neg (by simp)]
      obtain ⟨-, heq⟩ | ⟨fin, hpc, hk, hword, -⟩ := hstep.custom (hbase.fits t) howed hl
      · have hnot : (Event.client t o : Event Tid P n).cancels s
            { s with shared := sh', pc := update s.pc t pc' } = false := by
          simp only [Event.cancels]
          split
          · rw [heq]
            cases s.shared.word.outcome <;> rfl
          · rfl
        rw [hnot, hanswers, Bool.toNat_false, Nat.cast_zero, add_zero] at hlaw
        rw [heq]
        exact_mod_cast hlaw
      · have hyes : (Event.client t o : Event Tid P n).cancels s
            { s with shared := sh', pc := update s.pc t pc' } = true := by
          simp [Event.cancels, hpc, hk, hword, FutureStatus.canceledAs]
        rw [hyes, hanswers, hk] at hlaw
        rw [hword, FutureStatus.canceledAs, if_pos rfl]
        simpa using hlaw

/-- The step lemma for clients. -/
theorem client (h : Race s) (hbase : Base .custom s) (hrun : s.shared.aborted = none)
    (hidle : s.pc t ≠ .idle) {sh' : Shared Tid P n} {pc' : Pc P n}
    (hstep : ClientStep b t o s.shared (s.pc t) sh' pc')
    (hmachine : (future b).step s (.client t o) =
      some { s with shared := sh', pc := update s.pc t pc' }) :
    Race { s with shared := sh', pc := update s.pc t pc' } := by
  have hlib := hbase.liberated_eq_false hidle
  have hfits := hbase.fits t
  have howed := hbase.owed_le (hbase.overflow_eq_false hrun) hidle
  have hpayload := hstep.payload
  have hcustom := hstep.custom hfits howed
  have hbase' := hbase.client rfl hrun hidle hstep
  obtain ⟨-, hfin, -, hlib'⟩ := hstep.frame
  -- a known outcome is final
  have hkeep : sh'.liberated = false → s.shared.word.outcome ≠ .unknown →
      sh'.word.outcome = s.shared.word.outcome := fun hl hk => by
    obtain ⟨-, heq⟩ | ⟨_, -, hunknown, -⟩ := hcustom hl
    · exact heq
    · exact absurd hunknown hk
  -- all answers are in the log when the future is liberated
  have hlogged : sh'.liberated = true → sh'.aborted = none → sh'.cancelations =
      if s.shared.word.outcome = .failureCanceled then 1 else 0 := fun hl ha => by
    have hall := h.answers_step hbase hrun hidle hstep hmachine ha
    rw [if_pos hl] at hall
    rw [← hall]
    have hnone : ∀ u, update s.pc t pc' u = .idle := (hbase'.liberated hl).2
    simp [State.cancelations, hnone, Pc.holdsCancel, Pc.waitCall?]
  refine ⟨fun hl => ?_, fun hl => ?_, h.processing, fun hl => ?_, fun hl => ?_, fun hl ha => ?_, ?_,
    fun hl => ?_, fun hl v r hr => ?_, fun hl v r hr => ?_, fun hl ha ret hret => ?_⟩
  · obtain ⟨-, heq⟩ | ⟨_, -, -, heq, -⟩ := hcustom hl
    · rw [heq]
      exact h.outcome hlib
    · rw [heq]
      simp [FutureStatus.canceledAs]
  · obtain ⟨hs, heq⟩ | ⟨_, -, hk, heq, -⟩ := hcustom hl
    · exact (h.worker hlib).congr hs heq hpayload
    · exact (h.worker hlib).cancel hk heq hpayload
  · rw [(hstep.liberated hlib hl).1]
    rfl
  · refine forall_update (P := fun _ (pc : Pc P n) => ∀ l, pc.snapshot? = some l →
      l.outcome ≠ .unknown → sh'.word.outcome = l.outcome) (fun l hsnap hk => ?_)
      fun u _ l hsnap hk => ?_
    · obtain hold | rfl | rfl := hstep.snapshot rfl hfits howed hsnap
      · have heq := h.final hlib t l hold hk
        rw [hkeep hl (heq ▸ hk), heq]
      · exact hkeep hl hk
      · rfl
    · have heq := h.final hlib u l hsnap hk
      rw [hkeep hl (heq ▸ hk), heq]
  · have hall := h.answers_step hbase hrun hidle hstep hmachine ha
    rw [if_neg (by simp [show sh'.liberated = false from hl])] at hall
    exact hall
  · have hfew := h.few
    have hle := Threads.le_sum (fun pc : Pc P n => pc.holdsCancel.toNat) s.pc t
    have hone : s.cancelations ≤ 1 := by
      rw [h.answers hlib hrun]
      split <;> simp
    obtain ⟨_, -, -, -, hsame, -⟩ | ⟨-, hlog, -⟩ := hstep.cancelations rfl hfits
    · exact hsame ▸ hfew
    · simp only [State.cancelations] at hone ⊢
      omega
  · refine forall_update (P := fun _ (pc : Pc P n) => ∀ r, pc.collected? = some r →
      r = .failureCanceled ∧ sh'.word.outcome = .failureCanceled ∨
        r = .typed .custom (some sh'.payload) ∧ sh'.word.outcome = .success)
      (fun r hr => ?_) fun u _ r hr => ?_
    · have hold : r = .failureCanceled ∧ s.shared.word.outcome = .failureCanceled ∨
          r = .typed .custom (some s.shared.payload) ∧ s.shared.word.outcome = .success := by
        obtain hr | ⟨l, hpc, hr⟩ := hstep.collected rfl hfits hr
        · exact h.collected hlib t r hr
        · exact h.collect hbase hlib hpc hr
      rw [hpayload, hkeep hl (by obtain ⟨-, ho⟩ | ⟨-, ho⟩ := hold <;> simp [ho])]
      exact hold
    · have hold := h.collected hlib u r hr
      rw [hpayload, hkeep hl (by obtain ⟨-, ho⟩ | ⟨-, ho⟩ := hold <;> simp [ho])]
      exact hold
  · obtain hr | ⟨-, hl', -⟩ := hstep.finished hr
    · exact h.unreported hlib v r hr
    · simp [show sh'.liberated = false from hl] at hl'
  · obtain hr | ⟨hpc, -, ha⟩ := hstep.finished hr
    · exact absurd hr (h.unreported hlib v r)
    · have hcount := hlogged hl (ha.trans hrun)
      have hworker := (h.worker hlib).returned
      obtain ⟨rfl, hk⟩ | ⟨rfl, hk⟩ := h.collected hlib t r (by rw [hpc]; rfl)
      · exact .inl ⟨rfl, by rw [hcount, if_pos hk]⟩
      · refine .inr ⟨by rw [hcount, hk]; rfl, ?_⟩
        have hdone := hworker.1.mp ((hbase.typed hlib).state_of_success hk)
        obtain ⟨ret, hret⟩ := Option.isSome_iff_exists.mp hdone
        have hend := hworker.2 ret hret
        split at hend
        · rename_i htrue
          obtain ⟨-, successful, hgiven⟩ := hend
          exact ⟨htrue ▸ hret, successful, _, hgiven, rfl⟩
        · rw [hk] at hend
          simp at hend
  · have hcount := hlogged hl ha
    have hend := (h.worker hlib).returned.2 ret hret
    split at hend
    · rename_i htrue
      rw [hcount, if_pos htrue, hend.1]
      rfl
    · rename_i hfalse
      rw [hcount, if_neg hfalse, if_pos hend]

omit [DecidableEq Tid] in
/-- The step lemma for the worker. -/
theorem workerMove (h : Race s) (hbase : Base .custom s) {w w' : WorkerPc P} (hw : s.worker = w)
    {sh' : Shared Tid P n} (hstep : WorkerStep b o s.shared w sh' w') :
    Race { s with shared := sh', worker := w' } := by
  subst hw
  obtain ⟨-, -, hlib, haborted, hlog, -⟩ := hstep.frame
  have hcanceling := h.canceling hbase
  have hsame : ({ s with shared := sh', worker := w' } : State Tid P n).cancelations =
      s.cancelations := by simp [State.cancelations, Shared.cancelations, hlog]
  have hsame' : sh'.cancelations = s.shared.cancelations := by
    simp [Shared.cancelations, hlog]
  have hagrees : sh'.liberated = false → w'.Agrees sh' s.given := fun hl =>
    (h.worker (hlib ▸ hl)).step (hcanceling (hlib ▸ hl)) hstep
  have hcas : ∀ successful payload l, w' = .setCas successful payload l → l.state = .processing :=
    fun _ _ _ hw' => hstep.processing hw'
  obtain ⟨hword, hret, hpayload⟩ | ⟨hpayload, hdone⟩ := hstep.completes
  · -- the word stays as it is
    refine ⟨?_, hagrees, hcas, ?_, ?_, ?_, ?_, fun hl u r hr => ?_, ?_, ?_, ?_⟩
    · simpa only [hlib, hword] using h.outcome
    · simpa only [hlib, hword] using h.dead
    · simpa only [hlib, hword] using h.final
    · simpa only [hsame, hlib, haborted, hword] using h.answers
    · simpa only [hsame'] using h.few
    · have hold := h.collected (hlib ▸ hl) u r hr
      have hworker := h.worker (hlib ▸ hl)
      simp only [hword]
      obtain hold | ⟨hr, hk⟩ := hold
      · exact .inl hold
      · have hresult := (hbase.typed (hlib ▸ hl)).state_of_success hk
        exact .inr ⟨by rw [hpayload (hworker.returned.1.mp hresult)]; exact hr, hk⟩
    · simpa only [hlib, hlog] using h.unreported
    · simpa only [hlib, hlog, hsame', hret] using h.reported
    · simpa only [hlib, haborted, hsame', hret] using h.ended
  · -- the worker completes the future, which is live
    have hlive : s.shared.liberated = false := by
      by_contra hl
      have hdead := h.dead (by simpa using hl)
      obtain ⟨successful, payload, hw, -⟩ | ⟨ret, -, hs, -⟩ := hdone
      · simp [h.processing _ _ _ hw] at hdead
      · simp [hs] at hdead
    -- a set future had no outcome, an acknowledged one keeps it
    have houtcome : s.shared.word.outcome = .unknown ∧ sh'.word.outcome = .success ∨
        s.shared.word.outcome = .failureCanceled ∧ sh'.word.outcome = .failureCanceled := by
      obtain ⟨successful, payload, hw, hword, -⟩ | ⟨ret, -, hs, hword, -⟩ := hdone
      · have hs := h.processing _ _ _ hw
        refine .inl ⟨(hbase.typed hlive).outcome_unknown_iff.mpr (by rw [hs]; rfl), ?_⟩
        rw [hword]
        rfl
      · have hk := hcanceling hlive hs
        exact .inr ⟨hk, by rw [hword]; exact hk⟩
    have hl' : sh'.liberated = true → False := fun hl => by simp [hlib, hlive] at hl
    refine ⟨fun _ => ?_, hagrees, hcas, fun hl => (hl' hl).elim, fun _ u l hl hk => ?_,
      fun _ ha => ?_, ?_, fun _ u r hr => ?_, fun _ => hlog ▸ h.unreported hlive,
      fun hl => (hl' hl).elim, fun hl => (hl' hl).elim⟩
    · obtain ⟨-, ho⟩ | ⟨-, ho⟩ := houtcome <;> simp [ho]
    · have heq := h.final hlive u l hl hk
      obtain ⟨ho, -⟩ | ⟨ho, ho'⟩ := houtcome
      · exact absurd (heq.symm.trans ho) hk
      · rw [ho', ← ho, heq]
    · rw [hsame, h.answers hlive (haborted ▸ ha)]
      obtain ⟨ho, ho'⟩ | ⟨ho, ho'⟩ := houtcome <;> simp [ho, ho']
    · simpa only [hsame'] using h.few
    · have hold := h.collected hlive u r hr
      simp only [hpayload]
      obtain ⟨ho, -⟩ | ⟨ho, ho'⟩ := houtcome
      · simp [ho] at hold
      · simpa [ho, ho'] using hold

omit [DecidableEq Tid] in
/-- What the invariant does not look at. -/
theorem congr (h : Race s) (hword : s'.shared.word.state = s.shared.word.state ∧
      s'.shared.word.outcome = s.shared.word.outcome)
    (hpayload : s'.shared.payload = s.shared.payload) (hlog : s'.shared.log = s.shared.log)
    (hlib : s'.shared.liberated = s.shared.liberated) (hpc : s'.pc = s.pc)
    (haborted : s'.shared.aborted = none → s.shared.aborted = none)
    (hworker : s'.shared.liberated = false → s'.worker.Agrees s'.shared s'.given)
    (hcas : ∀ successful payload l, s'.worker = .setCas successful payload l →
      l.state = .processing)
    (hret : s'.worker.returned? = s.worker.returned?)
    (hgiven : s.worker.returned?.isSome → s'.given = s.given) : Race s' := by
  obtain ⟨hstate, houtcome⟩ := hword
  have hsame : s'.shared.cancelations = s.shared.cancelations := by
    simp [Shared.cancelations, hlog]
  have hsame' : s'.cancelations = s.cancelations := by simp [State.cancelations, hsame, hpc]
  refine ⟨?_, hworker, hcas, ?_, ?_, fun hl ha => ?_, ?_, ?_, ?_, fun hl v r hr => ?_,
    fun hl ha => ?_⟩
  · simpa only [hlib, houtcome] using h.outcome
  · simpa only [hlib, hstate] using h.dead
  · simpa only [hlib, hpc, houtcome] using h.final
  · rw [hsame', houtcome]
    exact h.answers (hlib ▸ hl) (haborted ha)
  · simpa only [hsame] using h.few
  · simpa only [hlib, hpc, houtcome, hpayload] using h.collected
  · simpa only [hlib, hlog] using h.unreported
  · obtain hold | ⟨hnone, htrue, successful, payload, hg, hr⟩ :=
      h.reported (hlib ▸ hl) v r (hlog ▸ hr)
    · exact .inl (hsame ▸ hold)
    · exact .inr ⟨hsame ▸ hnone, hret ▸ htrue, successful, payload,
        by rw [hgiven (by simp [htrue])]; exact hg, hr⟩
  · rw [hsame, hret]
    exact h.ended (hlib ▸ hl) (haborted ha)

/-- The step lemma. -/
theorem step (h : Race s) (hbase : Base .custom s) (hstep : (future b).step s e = some s') :
    Race s' := by
  have hrun := aborted_eq_none_of_step hstep
  cases step_cases hstep with
  | @call t c hidle hc =>
      have hholds : (c.start : Pc P n).holdsCancel = false := by cases c <;> rfl
      have hsnap : ∀ l, (c.start : Pc P n).snapshot? ≠ some l := by
        cases c <;> simp [Call.start, Pc.snapshot?]
      have hcollected : ∀ r, (c.start : Pc P n).collected? ≠ some r := by
        cases c <;> simp [Call.start, Pc.collected?]
      refine { h with final := fun hl => ?_, answers := fun hl ha => ?_, collected := fun hl => ?_ }
      · exact forall_update (P := fun _ (pc : Pc P n) => ∀ l, pc.snapshot? = some l →
          l.outcome ≠ .unknown → s.shared.word.outcome = l.outcome)
          (fun l hl => absurd hl (hsnap l)) fun u _ => h.final hl u
      · have hsum := sum_update (fun pc : Pc P n => pc.holdsCancel.toNat) s.pc t c.start
        have hold : (Pc.idle : Pc P n).holdsCancel = false := rfl
        rw [hidle, hholds, hold] at hsum
        rw [← h.answers hl ha]
        simpa [State.cancelations, Shared.cancelations] using hsum
      · exact forall_update (P := fun _ (pc : Pc P n) => ∀ r, pc.collected? = some r →
          r = .failureCanceled ∧ s.shared.word.outcome = .failureCanceled ∨
            r = .typed .custom (some s.shared.payload) ∧ s.shared.word.outcome = .success)
          (fun r hr => absurd hr (hcollected r)) fun u _ => h.collected hl u
  | client hpc hidle _ _ hclient =>
      subst hpc
      exact h.client hbase hrun hidle hclient hstep
  | worker hw hworker => exact h.workerMove hbase hw hworker
  | workerCanceled hw =>
      exact h.congr ⟨rfl, rfl⟩ rfl rfl rfl rfl id
        (fun hl => by simpa [WorkerPc.Agrees, hw] using h.worker hl) (by simp)
        (by simp [hw, WorkerPc.returned?]) fun _ => rfl
  | workerAcknowledge hw =>
      exact h.congr ⟨rfl, rfl⟩ rfl rfl rfl rfl id
        (fun hl => by simpa [WorkerPc.Agrees, hw] using h.worker hl) (by simp)
        (by simp [hw, WorkerPc.returned?]) fun _ => rfl
  | workerSet hw =>
      refine h.congr ⟨rfl, rfl⟩ rfl rfl rfl rfl id (fun hl => ?_) (by simp)
        (by simp [hw, WorkerPc.returned?]) fun hret => ?_
      · have hworker := h.worker hl
        rw [hw] at hworker
        exact ⟨hworker.1, rfl⟩
      · simp [hw, WorkerPc.returned?] at hret
  | clientFails | workerFails | timerExpires | upstreamChanges =>
      exact h.congr ⟨rfl, rfl⟩ rfl rfl rfl rfl (fun _ => hrun) h.worker h.processing rfl fun _ => rfl
  | downstreamDetaches hd | downstreamFails _ hd =>
      have hlib := hbase.liberated_of_finisher (hbase.finisher_of_downstreams hd)
      obtain ⟨-, heq⟩ := hbase.fetchSub_eq hrun hd
      refine h.congr ⟨by rw [heq]; rfl, by rw [heq]; rfl⟩ rfl rfl rfl rfl (fun _ => hrun)
        (fun hl => ?_) h.processing rfl fun _ => rfl
      exact (h.worker hlib).congr (by rw [heq]; rfl) (by rw [heq]; rfl) rfl

end Race

/-! ## Runs -/

variable [Fintype Tid] {s : State Tid P n}

omit [Fintype Tid] in
/-- A logged answer. -/
theorem Shared.cancelations_pos {sh : Shared Tid P n} :
    0 < sh.cancelations ↔ ∃ t, .canceled t true ∈ sh.log := by
  rw [cancelations, List.countP_pos_iff]
  constructor
  · rintro ⟨r, hr, hcancel⟩
    cases r with
    | canceled t answer =>
        obtain rfl : answer = true := hcancel
        exact ⟨t, hr⟩
    | _ => simp [Response.isCancelation] at hcancel
  · rintro ⟨t, ht⟩
    exact ⟨_, ht, rfl⟩

/-- An answer that is logged or held. -/
theorem State.cancelations_pos : 0 < s.cancelations ↔
    (∃ t, .canceled t true ∈ s.shared.log) ∨ ∃ u, (s.pc u).holdsCancel = true := by
  have hsum : 0 < ∑ u, (s.pc u).holdsCancel.toNat ↔ ∃ u, (s.pc u).holdsCancel = true := by
    rw [Nat.pos_iff_ne_zero, ne_eq, sum_eq_zero (fun pc : Pc P n => pc.holdsCancel.toNat)]
    simp
  rw [cancelations, ← Shared.cancelations_pos, ← hsum]
  omega

theorem race_start {status : FutureStatus} {payload : P} {upstream : Fin n → FutureStatus}
    (h : status.startable = true) (hty : status.type = .custom) :
    Race (State.start status payload upstream : State Tid P n) := by
  have hstate : status.state = .processing := by
    simp only [FutureStatus.startable, hty, Bool.and_eq_true, beq_iff_eq] at h
    exact h.2
  have houtcome : status.outcome = .unknown := by
    have htyped := FutureStatus.typed_of_debugCheck (FutureStatus.startable_debugCheck h)
    exact htyped.outcome_unknown_iff.mpr (by rw [hstate]; rfl)
  refine ⟨fun _ => ?_, fun _ => ?_, fun _ _ _ hw => ?_, fun hl => ?_, fun _ _ _ hl => ?_,
    fun _ _ => ?_, ?_, fun _ _ _ hr => ?_, fun _ _ _ hr => ?_, fun hl => ?_, fun hl => ?_⟩
  · simp [State.start, houtcome]
  · simp [State.start, hty, FutureType.usesWorkerThread, WorkerPc.Agrees, hstate]
  · simp [State.start, hty, FutureType.usesWorkerThread] at hw
  · simp [State.start] at hl
  · simp [State.start, Pc.snapshot?] at hl
  · simp [State.start, State.cancelations, Shared.cancelations, Pc.holdsCancel, Pc.waitCall?,
      houtcome]
  · simp [State.start, Shared.cancelations]
  · simp [State.start, Pc.collected?] at hr
  · simp [State.start] at hr
  · simp [State.start] at hl
  · simp [State.start] at hl

variable [DecidableEq Tid]

omit [DecidableEq Tid] in
/-- The worker's answer and the answers of `udipe_cancel` fit together. -/
theorem Race.cancelations_of_returned (h : Race s) (hbase : Base .custom s)
    (halive : s.shared.aborted = none) {ret : WorkerReturn} (hret : s.worker.returned? = some ret) :
    s.cancelations = if ret = some true then 0 else 1 := by
  cases hl : s.shared.liberated with
  | true =>
      rw [← h.ended hl halive ret hret]
      simp [State.cancelations, (hbase.liberated hl).2, Pc.holdsCancel, Pc.waitCall?]
  | false =>
      rw [h.answers hl halive]
      have hend := (h.worker hl).returned.2 ret hret
      split at hend
      · rename_i htrue
        rw [hend.1, if_pos htrue]
        rfl
      · rename_i hfalse
        rw [if_pos hend, if_neg hfalse]

/-- Only the worker ends the canceling state. -/
theorem Race.leaves_canceling {s' : State Tid P n} {e : Event Tid P n} (h : Race s)
    (hbase : Base .custom s) (hstep : (future b).step s e = some s')
    (hs : s.shared.word.state = .canceling) (hs' : s'.shared.word.state ≠ .canceling)
    (hlib : s'.shared.liberated = false) : ∃ o, e = .worker o := by
  have hrun := aborted_eq_none_of_step hstep
  cases step_cases hstep with
  | client hpc hidle _ _ hclient =>
      subst hpc
      have howed := hbase.owed_le (hbase.overflow_eq_false hrun) hidle
      obtain ⟨hsame, -⟩ | ⟨_, -, hk, -⟩ := hclient.custom (hbase.fits _) howed hlib
      · exact absurd (hsame.trans hs) hs'
      · have hcanceled := h.canceling hbase (hbase.liberated_eq_false hidle) hs
        simp [hk] at hcanceled
  | worker | workerFails => exact ⟨_, rfl⟩
  | call | clientFails | workerCanceled | workerAcknowledge | workerSet | timerExpires
  | upstreamChanges => exact absurd hs hs'
  | downstreamDetaches hd | downstreamFails _ hd =>
      obtain ⟨-, heq⟩ := hbase.fetchSub_eq hrun hd
      exact absurd (by rw [heq]; exact hs) hs'

/-- The run lemma. -/
theorem race_of_run {status : FutureStatus} {payload : P} {upstream : Fin n → FutureStatus}
    (hstart : status.startable = true) (hty : status.type = .custom) {es : List (Event Tid P n)}
    (hrun : (future b).run (State.start status payload upstream) es = some s) :
    Base .custom s ∧ Race s :=
  Machine.invariant_of_run (M := future b) (I := fun s => Base .custom s ∧ Race s)
    (fun _ _ _ hI hstep => ⟨hI.1.step (b := b) rfl hstep, hI.2.step hI.1 hstep⟩)
    ⟨hty ▸ base_start hstart, race_start hstart hty⟩ hrun

/-- The race law of custom futures, over every run: at most one `udipe_cancel` call returns true;
`udipe_custom_try_set_result` returns false exactly if a `udipe_cancel` call took effect; only the
worker ends the canceling state; a completed future is canceled exactly if some `udipe_cancel` call
returned or will return true, and successful otherwise; and `udipe_finish` reports the cancelation in
that case, else the payload of the `udipe_custom_try_set_result` call that succeeded. -/
theorem custom_race_law {status : FutureStatus} {payload : P} {upstream : Fin n → FutureStatus}
    (hstart : status.startable = true) (hty : status.type = .custom) {es : List (Event Tid P n)}
    (hrun : (future b).run (State.start status payload upstream) es = some s) :
    s.shared.log.countP Response.isCancelation ≤ 1 ∧
    (s.shared.aborted = none → ∀ answer, s.worker = .done (some answer) →
      (answer = false ↔ (future b).tally (fun s e s' => (e.cancels s s').toNat)
        (State.start status payload upstream) es = 1)) ∧
    (future b).Along (fun s e s' => s.shared.word.state = .canceling →
      s'.shared.word.state ≠ .canceling → s'.shared.liberated = false → ∃ o, e = .worker o)
      (State.start status payload upstream) es ∧
    (s.shared.liberated = false → s.shared.aborted = none → s.shared.word.state = .result →
      (s.shared.word.outcome = .failureCanceled ∨ s.shared.word.outcome = .success) ∧
      (s.shared.word.outcome = .failureCanceled ↔
        (∃ t, .canceled t true ∈ s.shared.log) ∨ ∃ u, (s.pc u).holdsCancel = true)) ∧
    ∀ v r, .finished v r ∈ s.shared.log →
      r = .failureCanceled ∧ (∃ t, .canceled t true ∈ s.shared.log) ∨
        (∀ t, .canceled t true ∉ s.shared.log) ∧ s.worker.returned? = some (some true) ∧
          ∃ successful given, s.given = some (successful, given) ∧
            r = .typed .custom (some given) := by
  obtain ⟨hbase, hrace⟩ := race_of_run hstart hty hrun
  refine ⟨hrace.few, fun halive answer hw => ?_, ?_, fun hlib halive hs => ?_, fun v r hr => ?_⟩
  · have hret : s.worker.returned? = some (some answer) := by rw [hw]; rfl
    rw [tally_cancels hstart hrun halive, hrace.cancelations_of_returned hbase halive hret]
    cases answer <;> simp
  · exact Machine.along_of_invariant (M := future b) (I := fun s => Base .custom s ∧ Race s)
      (fun _ _ _ hI _ hstep => ⟨hI.1.step (b := b) rfl hstep, hI.2.step hI.1 hstep⟩)
      (fun _ _ _ hI _ hstep => hI.2.leaves_canceling hI.1 hstep)
      ⟨hty ▸ base_start hstart, race_start hstart hty⟩ (Machine.along_true _ _)
  · obtain ⟨ret, hret⟩ := Option.isSome_iff_exists.mp ((hrace.worker hlib).returned.1.mp hs)
    have hend := (hrace.worker hlib).returned.2 ret hret
    refine ⟨?_, ?_⟩
    · split at hend
      · exact .inr hend.1
      · exact .inl hend
    · rw [← State.cancelations_pos, hrace.answers hlib halive]
      split <;> simp_all
  · have hlib : s.shared.liberated = true := by
      by_contra hl
      exact hrace.unreported (by simpa using hl) v r hr
    obtain ⟨hr, hone⟩ | ⟨hzero, hret, hgiven⟩ := hrace.reported hlib v r hr
    · exact .inl ⟨hr, Shared.cancelations_pos.mp (by omega)⟩
    · refine .inr ⟨fun t ht => ?_, hret, hgiven⟩
      have hpos := Shared.cancelations_pos.mpr ⟨t, ht⟩
      omega

/-- Thread 1 sleeps in `udipe_wait` while thread 0 calls `udipe_cancel` twice. Then the worker comes to
set its result, and after the return of thread 1 thread 0 finishes the future. -/
def canceledRun : List (Event (Fin 2) Bool 0) :=
  (.call 1 (.wait 7) :: List.replicate 4 (.client 1 (.calm _ _))) ++
    (.call 0 (.cancel false) :: List.replicate 3 (.client 0 (.calm _ _))) ++
    (.call 0 (.cancel false) :: List.replicate 3 (.client 0 (.calm _ _))) ++
    .workerCall (.trySetResult true true) :: List.replicate 6 (.worker (.calm _ _)) ++
    List.replicate 4 (.client 1 (.calm _ _)) ++
    .call 0 .finish :: List.replicate 5 (.client 0 (.calm _ _))

theorem custom_race_law_canceledRun :
    ∃ s, (future ⟨true⟩).run (State.start .startCustom false Fin.elim0) canceledRun = some s ∧
      s.shared.log = [.finished 0 .failureCanceled, .waited 1 true, .canceled 0 false,
        .canceled 0 true] ∧
      s.worker = .done (some false) ∧
      s.shared.log.countP Response.isCancelation ≤ 1 ∧
      (future ⟨true⟩).tally (fun s e s' => (e.cancels s s').toNat)
        (State.start .startCustom false Fin.elim0) canceledRun = 1 ∧
      ∃ t, .canceled t true ∈ s.shared.log := by
  have hend : ((future ⟨true⟩).run (State.start .startCustom false Fin.elim0) canceledRun).map
      (fun s => (s.shared.log, s.shared.aborted, s.worker)) =
        some ([.finished 0 .failureCanceled, .waited 1 true, .canceled 0 false, .canceled 0 true],
          none, .done (some false)) := by decide +kernel
  obtain ⟨s, hrun, hs⟩ := Option.map_eq_some_iff.mp hend
  simp only [Prod.mk.injEq] at hs
  obtain ⟨hlog, halive, hw⟩ := hs
  obtain ⟨hfew, hfalse, -, -, hreported⟩ := custom_race_law (by decide) rfl hrun
  refine ⟨s, hrun, hlog, hw, hfew, (hfalse halive false hw).mp rfl, ?_⟩
  obtain ⟨-, hcanceled⟩ | ⟨-, -, successful, given, -, hr⟩ :=
    hreported 0 .failureCanceled (by simp [hlog])
  · exact hcanceled
  · cases hr

end Udipe

import Udipe.Future.Answers
import Udipe.Future.LazyLock

/-!
# The outcome of a lazy future is final

Reference: `future/wait.c` (`future_wait_join`, `future_wait_timer_once`), `future.c`
(`udipe_cancel`).

Whoever resolves a timer keeps an outcome that is known. The lock holder of a join does not: it computes
an outcome from its batch, and the loop in which it publishes that outcome reloads the status word
without looking at the outcome that a canceler may have stored in the meantime. As long as no holder
overwrites a known outcome, an outcome never changes, and a cancelation is what `udipe_finish`
reports.
-/

namespace Udipe

open Function Threads

variable {Tid P : Type} {n : ℕ} {ty : FutureType} {b : Build}

/-- The holder of `lazy_lock` replaces a known outcome of the join by another one. -/
def Pc.overwrites (sh : Shared Tid P n) (o : Oracle Tid n) : Pc P n → Prop
  | joinRelease _ latest outcome =>
      latest = sh.word ∧ o.spurious = false ∧ outcome ≠ .unknown ∧
        sh.word.outcome ≠ .unknown ∧ outcome ≠ sh.word.outcome
  | _ => False

/-- The event replaces a known outcome by another one. -/
def Overwrites (s : State Tid P n) : Event Tid P n → Prop
  | .client t o => (s.pc t).overwrites s.shared o
  | _ => False

instance (sh : Shared Tid P n) (o : Oracle Tid n) : (pc : Pc P n) → Decidable (pc.overwrites sh o)
  | .joinRelease _ _ _ => inferInstanceAs (Decidable (_ ∧ _ ∧ _ ∧ _ ∧ _))
  | .idle | .waitLoad _ | .eagerRegister _ _ | .addressEnter _ _ | .addressWait _ _
  | .addressBlocked _ _ | .addressReload _ _ _ | .addressMeasure _ _ | .countDec _ _
  | .joinRegister _ _ _ | .joinPoll _ _ _ | .joinBatch _ _ _ _ | .joinMeasure _ _ _
  | .joinWakeAll _ _ | .joinSignal _ _ | .joinWakeOne _ _ | .timerInc _ _ | .timerRevert _
  | .timerPoll _ _ | .timerPublish _ _ | .waitReturn _ _ | .cancelLoad _ | .cancelCas _ _ _
  | .cancelLatch _ _ | .cancelWake _ _ | .cancelTimer _ _ | .cancelReturn _ _ _ | .finishLoad
  | .finishCas _ _ | .finishCollect _ _ | .finishUpstream _ _ | .finishDetach _ _ _
  | .finishLiberate _ _ => inferInstanceAs (Decidable False)

instance (s : State Tid P n) : (e : Event Tid P n) → Decidable (Overwrites s e)
  | .client t o => inferInstanceAs (Decidable ((s.pc t).overwrites s.shared o))
  | .call _ _ | .workerCall _ | .worker _ | .timerExpires | .upstreamChanges _ _
  | .downstreamDetaches => inferInstanceAs (Decidable False)

/-- The step keeps a known outcome, as long as the future is in use. -/
def KeepsOutcome (s s' : State Tid P n) : Prop :=
  s'.shared.liberated = false → s.shared.word.outcome ≠ .unknown →
    s'.shared.word.outcome = s.shared.word.outcome

section

variable [DecidableEq Tid] {t : Tid} {o : Oracle Tid n} {sh sh' : Shared Tid P n}
  {pc pc' : Pc P n}

/-- What a client can do to a known outcome. -/
theorem ClientStep.outcome (h : ClientStep b t o sh pc sh' pc') (howed : pc.owed ≤ sh.word.count)
    (ho : sh.word.downstreamCountOverflow = false) (hlib : sh'.liberated = false)
    (hk : sh.word.outcome ≠ .unknown) :
    sh'.word.outcome = sh.word.outcome ∨ pc.overwrites sh o := by
  have hsub : pc.owed = 1 → sh.word.fetchSub.outcome = sh.word.outcome := fun h1 => by
    rw [FutureStatus.fetchSub_eq (h1 ▸ howed)]
    rfl
  have hadd : sh.word.fetchAdd.outcome = sh.word.outcome := by
    by_cases hmax : sh.word.downstreamCount = FutureStatus.maxDownstreamCount
    · rw [FutureStatus.fetchAdd_of_max ho hmax]
    · rw [FutureStatus.fetchAdd_of_ne hmax]
  cases h
  case countDec | countDecFails | timerRevert | timerRevertFails => exact .inl (hsub rfl)
  case timerInc | timerIncReady | timerIncFails => exact .inl hadd
  case release w outcome hspurious _ =>
    by_cases hu : outcome = .unknown
    · exact .inl (by simp [FutureStatus.released, FutureStatus.dec, hu])
    · by_cases hsame : outcome = sh.word.outcome
      · exact .inl (by simp [FutureStatus.released, hsame])
      · exact .inr ⟨rfl, hspurious, hu, hk, hsame⟩
  case publish => exact .inl (by simp [FutureStatus.published, FutureStatus.dec, hk])
  case cancel hu _ | cancelFails hu _ => exact absurd hu hk
  case wakeOne => cases hw : o.wakee <;> exact .inl rfl
  case liberate | liberateFails => simp at hlib
  all_goals exact .inl rfl

end

variable [DecidableEq Tid] [Fintype Tid] {s s' : State Tid P n} {e : Event Tid P n}

/-- A step that overwrites nothing keeps the outcome. -/
theorem keepsOutcome_of_not_overwrites (hbase : Base ty s) (hty : ty ≠ .custom)
    (hstep : (future b).step s e = some s') (hnot : ¬ Overwrites s e) : KeepsOutcome s s' := by
  have hrun := aborted_eq_none_of_step hstep
  intro hlib hk
  cases step_cases hstep with
  | client hpc hidle _ _ hclient =>
      subst hpc
      have ho := hbase.overflow_eq_false hrun
      exact (hclient.outcome (hbase.owed_le ho hidle) ho hlib hk).resolve_right hnot
  | worker hw hworker =>
      rw [← hw, hbase.worker hty] at hworker
      cases hworker
  | call | workerCanceled | workerAcknowledge | workerSet | clientFails | workerFails
  | timerExpires | upstreamChanges => rfl
  | downstreamDetaches hd | downstreamFails _ hd =>
      obtain ⟨-, heq⟩ := hbase.fetchSub_eq hrun hd
      rw [heq]
      rfl

/-! ## What follows from finality -/

/-- What holds as long as no known outcome was overwritten. -/
structure Final (s : State Tid P n) : Prop where
  snapshot : s.shared.liberated = false → ∀ u l, (s.pc u).snapshot? = some l →
    l.outcome ≠ .unknown → s.shared.word.outcome = l.outcome
  canceled : s.shared.liberated = false → 0 < s.cancelations →
    s.shared.word.outcome = .failureCanceled
  collected : ∀ u r, (s.pc u).collected? = some r → 0 < s.cancelations → r = .failureCanceled
  ended : ∀ v r, .finished v r ∈ s.shared.log → s.shared.liberated = true
  finished : ∀ v r, .finished v r ∈ s.shared.log → 0 < s.cancelations → r = .failureCanceled

namespace Final

variable {t : Tid} {o : Oracle Tid n}

omit [DecidableEq Tid] in
/-- A thread that holds an answer of `udipe_finish` is alone. -/
theorem destroying_of_collected {pc : Pc P n} {r : Result P} (h : pc.collected? = some r) :
    pc.destroying = true := by
  cases pc <;> simp [Pc.collected?] at h <;> rfl

/-- The step lemma for clients. -/
theorem client (h : Final s) (hbase : Base ty s) (himpl : ty.implemented = true)
    (hidle : s.pc t ≠ .idle) (hrun : s.shared.aborted = none) {sh' : Shared Tid P n}
    {pc' : Pc P n} (hstep : ClientStep b t o s.shared (s.pc t) sh' pc')
    (hkeep : KeepsOutcome s { s with shared := sh', pc := update s.pc t pc' }) :
    Final { s with shared := sh', pc := update s.pc t pc' } := by
  have hlib := hbase.liberated_eq_false hidle
  have ho := hbase.overflow_eq_false hrun
  have howed := hbase.owed_le ho hidle
  have hsum := sum_update (fun pc : Pc P n => pc.holdsCancel.toNat) s.pc t pc'
  -- either the call takes effect at this step, or a call took effect before it
  have hbefore : 0 < ({ s with shared := sh', pc := update s.pc t pc' } : State Tid P n).cancelations →
      (∃ fin, s.pc t = .cancelCas fin ty s.shared.word ∧
        sh'.word = s.shared.word.canceledAs ty) ∨ 0 < s.cancelations := fun hpos => by
    obtain ⟨fin, hpc, -, hword, -⟩ | ⟨-, hle, -⟩ := hstep.cancelations himpl (hbase.fits t)
    · exact .inl ⟨fin, hpc, hword⟩
    · right
      simp only [State.cancelations] at hpos ⊢
      omega
  refine ⟨fun hl => ?_, fun hl hpos => ?_, fun u r hr hpos => ?_, fun v r hr => ?_,
    fun v r hr hpos => ?_⟩
  · refine forall_update (P := fun _ (pc : Pc P n) => ∀ l, pc.snapshot? = some l →
      l.outcome ≠ .unknown → sh'.word.outcome = l.outcome) (fun l hsnap hk => ?_)
      fun u _ l hsnap hk => ?_
    · obtain hold | rfl | rfl := hstep.snapshot himpl (hbase.fits t) howed hsnap
      · have heq := h.snapshot hlib t l hold hk
        exact (hkeep hl (heq ▸ hk)).trans heq
      · exact hkeep hl hk
      · rfl
    · have heq := h.snapshot hlib u l hsnap hk
      exact (hkeep hl (heq ▸ hk)).trans heq
  · obtain ⟨fin, -, hword⟩ | hpos := hbefore hpos
    · exact hword ▸ rfl
    · have hcanceled := h.canceled hlib hpos
      exact (hkeep hl (by simp [hcanceled])).trans hcanceled
  · have hr : (update s.pc t pc' u).collected? = some r := hr
    rcases eq_or_ne u t with rfl | hut
    · rw [update_self] at hr
      obtain hold | ⟨l, hpc, hcollect⟩ := hstep.collected himpl (hbase.fits u) hr
      · obtain ⟨fin, hpc, -⟩ | hpos := hbefore hpos
        · simp [hpc, Pc.collected?] at hold
        · exact h.collected u r hold hpos
      · obtain ⟨fin, hpc', -⟩ | hpos := hbefore hpos
        · simp [hpc] at hpc'
        · have hsnap : (s.pc u).snapshot? = some l := by rw [hpc]; rfl
          have heq := h.canceled hlib hpos
          obtain ⟨-, rfl⟩ | ⟨hl, -⟩ | ⟨hl, -⟩ :=
            collectResult_eq_ok (hbase.snapshot u l hsnap) himpl hcollect
          · rfl
          · rw [h.snapshot hlib u l hsnap (by simp [hl]), hl] at heq
            simp at heq
          · rw [h.snapshot hlib u l hsnap (by rcases hl with hl | hl <;> simp [hl])] at heq
            rcases hl with hl | hl <;> simp [hl] at heq
    · rw [update_of_ne hut] at hr
      have hfin := hbase.destroying u (destroying_of_collected hr)
      exact absurd ((hbase.alone u hfin).2 t hut.symm) hidle
  · obtain hr | ⟨-, hl, -⟩ := hstep.finished hr
    · simp [h.ended v r hr] at hlib
    · exact hl
  · obtain hr | ⟨hpc, -, -⟩ := hstep.finished hr
    · simp [h.ended v r hr] at hlib
    · obtain ⟨fin, hpc', -⟩ | hpos := hbefore hpos
      · simp [hpc] at hpc'
      · exact h.collected t r (by rw [hpc]; rfl) hpos

omit [DecidableEq Tid] in
/-- A change that touches neither the outcome nor an answer. -/
theorem congr (h : Final s) (houtcome : s'.shared.word.outcome = s.shared.word.outcome)
    (hlib : s'.shared.liberated = s.shared.liberated) (hlog : s'.shared.log = s.shared.log)
    (hpc : s'.pc = s.pc) : Final s' := by
  have hcancelations : s'.cancelations = s.cancelations := by
    simp only [State.cancelations, Shared.cancelations, hlog, hpc]
  refine ⟨?_, ?_, ?_, ?_, ?_⟩
  · simpa only [hlib, hpc, houtcome] using h.snapshot
  · simpa only [hlib, houtcome, hcancelations] using h.canceled
  · simpa only [hpc, hcancelations] using h.collected
  · simpa only [hlog, hlib] using h.ended
  · simpa only [hlog, hcancelations] using h.finished

/-- A call starts. -/
theorem call (h : Final s) {c : Call} (hidle : s.pc t = .idle) (finisher : Option Tid) :
    Final { s with
      shared := { s.shared with finisher := finisher }
      pc := update s.pc t c.start } := by
  have hsum := sum_update (fun pc : Pc P n => pc.holdsCancel.toNat) s.pc t c.start
  have hstart : (c.start : Pc P n).holdsCancel = false := by cases c <;> rfl
  have hold : (Pc.idle : Pc P n).holdsCancel = false := rfl
  simp only [hidle, hstart, hold, Bool.toNat_false, add_zero] at hsum
  have hcancelations : ({ s with
      shared := { s.shared with finisher := finisher }
      pc := update s.pc t c.start } : State Tid P n).cancelations = s.cancelations := by
    simp only [State.cancelations, Shared.cancelations, hsum]
  refine ⟨fun hl => ?_, ?_, ?_, h.ended, ?_⟩
  · exact forall_update (P := fun _ (pc : Pc P n) => ∀ l, pc.snapshot? = some l →
      l.outcome ≠ .unknown → s.shared.word.outcome = l.outcome)
      (fun l hl => by cases c <;> simp [Call.start, Pc.snapshot?] at hl)
      fun u _ => h.snapshot hl u
  · simpa only [hcancelations] using h.canceled
  · rw [hcancelations]
    exact forall_update (P := fun _ (pc : Pc P n) => ∀ r, pc.collected? = some r →
      0 < s.cancelations → r = .failureCanceled)
      (fun l hl => by cases c <;> simp [Call.start, Pc.collected?] at hl)
      fun u _ => h.collected u
  · simpa only [hcancelations] using h.finished

/-- The step lemma. -/
theorem step (h : Final s) (hbase : Base ty s) (himpl : ty.implemented = true) (hty : ty ≠ .custom)
    (hstep : (future b).step s e = some s') (hkeep : KeepsOutcome s s') : Final s' := by
  have hrun := aborted_eq_none_of_step hstep
  cases step_cases hstep with
  | call hidle => exact h.call hidle _
  | client hpc hidle _ _ hclient =>
      subst hpc
      exact h.client hbase himpl hidle hrun hclient hkeep
  | worker hw hworker =>
      rw [← hw, hbase.worker hty] at hworker
      cases hworker
  | workerCanceled | workerAcknowledge | workerSet | clientFails | workerFails | timerExpires
  | upstreamChanges => exact h.congr rfl rfl rfl rfl
  | downstreamDetaches hd | downstreamFails _ hd =>
      obtain ⟨-, heq⟩ := hbase.fetchSub_eq hrun hd
      exact h.congr (by rw [heq]; rfl) rfl rfl rfl

end Final

/-! ## The step that overwrites an outcome -/

section

variable {t : Tid} {o : Oracle Tid n} {sh : Shared Tid P n}

omit [DecidableEq Tid] [Fintype Tid] in
/-- `prepare_downstream_count_dec` succeeds on a well-formed word with something to count down. -/
theorem prepareDownstreamCountDec_ok {l : FutureStatus} {p : DownstreamCountPolicy}
    (hcheck : b.assertions = true → l.debugCheck true = true)
    (ho : l.downstreamCountOverflow = false) (hcount : p.weight ≤ l.count) :
    prepareDownstreamCountDec b l p = .ok (l.dec p) := by
  cases p with
  | cycle =>
      have hpos : 1 ≤ l.downstreamCount.toNat := hcount
      simp [prepareDownstreamCountDec, FutureStatus.check_eq_ok hcheck, ho, Checked.ensure, hpos,
        FutureStatus.dec, DownstreamCountPolicy.delta, Bind.bind, Except.bind, Pure.pure,
        Except.pure]
  | keep =>
      have hkeep : l.dec .keep = l := by simp [FutureStatus.dec, DownstreamCountPolicy.delta]
      rw [hkeep]
      simp [prepareDownstreamCountDec, FutureStatus.check_eq_ok hcheck, ho, Checked.ensure,
        Bind.bind, Except.bind, Pure.pure, Except.pure]

omit [DecidableEq Tid] [Fintype Tid] in
variable (sh) in
/-- The release of `lazy_lock` with the current word succeeds. -/
theorem joinReleaseStep_current {w : WaitCall} (outcome : FutureOutcome) (ho : o.spurious = false)
    (hcheck : b.assertions = true → sh.word.debugCheck true = true)
    (hdesired : b.assertions = true → (sh.word.released w.policy outcome).debugCheck true = true)
    (hoverflow : sh.word.downstreamCountOverflow = false)
    (hcount : w.policy.weight ≤ sh.word.count)
    (hlock : sh.word.notifyEventOrLazyLock = true) :
    joinReleaseStep b o sh w sh.word outcome =
      .ok ({ sh with word := sh.word.released w.policy outcome },
        afterRelease w (sh.word.released w.policy outcome) outcome) := by
  have hreleased : sh.word.released w.policy outcome =
      { (if outcome ≠ .unknown then
          { sh.word.dec w.policy with state := .result, outcome := outcome }
        else sh.word.dec w.policy) with notifyEventOrLazyLock := false } := by
    by_cases hu : outcome = .unknown <;> simp [FutureStatus.released, hu, FutureStatus.dec]
  rw [joinReleaseStep, prepareDownstreamCountDec_ok hcheck hoverflow hcount]
  rw [hreleased] at hdesired ⊢
  simp only [Bind.bind, Except.bind, hlock, Checked.assertion, Bool.or_true, Checked.ensure, if_true,
    FutureStatus.check_eq_ok hdesired, compareExchangeWeak_current ho hcheck hdesired, Pure.pure,
    Except.pure]

end

/-- The invariants of a lazy future. Without assertions no check depends on the word. -/
structure Lazy (b : Build) (ty : FutureType) (s : State Tid P n) : Prop where
  base : Base ty s
  sleep : Sleep s
  lifetime : Lifetime ty s
  checked : ty = .join → b.assertions = true → Wellformed b s
  lock : ty = .join → LazyLock s

omit [DecidableEq Tid] in
/-- With assertions, a join never stores a malformed word. -/
theorem not_malforms_of_join (hbase : Base .join s) (hb : b.assertions = true) :
    ¬ Malforms b s e := by
  intro h
  cases e
  case client t o =>
    have hfits := hbase.fits t
    simp only [Malforms] at h
    cases hpc : s.pc t <;> rw [hpc] at h hfits
    case timerInc => exact absurd hfits.1 (by simp)
    case finishCas => exact absurd (hb.symm.trans h.1) (by simp)
    all_goals exact h
  all_goals exact h

theorem Lazy.step (h : Lazy b ty s) (himpl : ty.implemented = true)
    (hstep : (future b).step s e = some s') : Lazy b ty s' where
  base := h.base.step himpl hstep
  sleep := h.sleep.step h.base himpl hstep
  lifetime := h.lifetime.step h.base himpl hstep
  checked := fun hty hb => (h.checked hty hb).step h.base h.lifetime himpl
    (not_malforms_of_join (hty ▸ h.base) hb) hstep
  lock := fun hty => (h.lock hty).step (hty ▸ h.base) h.sleep hstep

/-- A holder that overwrites an outcome does so. -/
theorem Overwrites.changes (h : Overwrites s e) (hlazy : Lazy b ty s)
    (himpl : ty.implemented = true) (hstep : (future b).step s e = some s') :
    ¬ KeepsOutcome s s' := by
  cases e
  case client t o =>
    have hmachine : Udipe.step b s (.client t o) = some s' := hstep
    have hrun := aborted_eq_none_of_step hmachine
    have ho := hlazy.base.overflow_eq_false hrun
    obtain ⟨w, l, outcome, hpc⟩ : ∃ w l outcome, s.pc t = .joinRelease w l outcome := by
      cases hpc : s.pc t
      case joinRelease w l outcome => exact ⟨w, l, outcome, rfl⟩
      all_goals simp [Overwrites, hpc, Pc.overwrites] at h
    simp only [Overwrites, hpc, Pc.overwrites] at h
    obtain ⟨rfl, hspurious, hu, hk, hne⟩ := h
    have hidle : s.pc t ≠ .idle := by simp [hpc]
    have hlib := hlazy.base.liberated_eq_false hidle
    have hfits := hlazy.base.fits t
    have howed := hlazy.base.owed_le ho hidle
    rw [hpc] at hfits howed
    obtain ⟨rfl, hfits⟩ := hfits
    have hword := hlazy.base.typed hlib
    have hcount : b.assertions = true → s.shared.word.CountOk := fun hb =>
      (hlazy.checked rfl hb).count hlib
    have hweight : w.policy = .cycle → 1 ≤ s.shared.word.count := fun hp => by
      simpa [Pc.owed, hp] using howed
    have hcurrent := joinReleaseStep_current (b := b) s.shared outcome hspurious
      (fun hb => (hword.check_iff rfl).mpr (hcount hb))
      (fun hb => ((hword.released hfits).check_iff rfl).mpr
        ⟨((hcount hb).dec hweight).overflow, ((hcount hb).dec hweight).available⟩)
      ho howed ((hlazy.lock rfl).holder_unique hlib (t := t) (by rw [hpc]; rfl)).1
    intro hkeep
    cases step_cases hmachine with
    | client hpc' _ _ _ hclient =>
        rw [← hpc', hpc] at hclient
        cases hclient
        case move hmove =>
          cases hmove
          case releaseRetry hfail => simp [hspurious] at hfail
        case release =>
          have hsame := hkeep hlib hk
          simp only [FutureStatus.released, hu, if_false] at hsame
          exact hne hsame
    | clientFails hf =>
        rw [hpc] at hf
        exact absurd (hcurrent.symm.trans hf) (by simp)
  all_goals exact h.elim

/-! ## Runs -/

variable {status : FutureStatus} {payload : P} {upstream : Fin n → FutureStatus}

omit [DecidableEq Tid] in
theorem lazy_start (hstart : status.startable = true) (hup : ∀ i, (upstream i).Counted) :
    Lazy b status.type (State.start status payload upstream : State Tid P n) where
  base := base_start hstart
  sleep := sleep_start
  lifetime := lifetime_start hstart
  checked := fun _ _ => (sound_start hstart hup).wellformed
  lock := fun hty => lazyLock_start hstart hty

omit [DecidableEq Tid] in
theorem final_start : Final (State.start status payload upstream : State Tid P n) where
  snapshot := fun _ _ _ hl => by simp [State.start, Pc.snapshot?] at hl
  canceled := fun _ hpos => by
    simp [State.start, State.cancelations, Shared.cancelations, Pc.holdsCancel,
      Pc.waitCall?] at hpos
  collected := fun _ _ hr => by simp [State.start, Pc.collected?] at hr
  ended := fun _ _ hr => by simp [State.start] at hr
  finished := fun _ _ hr => by simp [State.start] at hr

/-- Over every run of a join or a timer: a known outcome never changes, as long as the future is in use,
exactly when no lock holder replaces a known outcome by another one. Then a future of which a
`udipe_cancel` call returned true has the canceled outcome, and `udipe_finish` reports it. -/
theorem outcome_final_iff (hstart : status.startable = true)
    (hty : status.type = .join ∨ status.type = .timerOnce) (hup : ∀ i, (upstream i).Counted)
    {es : List (Event Tid P n)}
    (hrun : (future b).run (State.start status payload upstream) es = some s) :
    ((future b).Along (fun s _ s' => KeepsOutcome s s') (State.start status payload upstream) es ↔
      (future b).Along (fun s e _ => ¬ Overwrites s e) (State.start status payload upstream) es) ∧
    ((future b).Along (fun s e _ => ¬ Overwrites s e) (State.start status payload upstream) es →
      ∀ t, .canceled t true ∈ s.shared.log →
        (s.shared.liberated = false → s.shared.word.outcome = .failureCanceled) ∧
          ∀ v r, .finished v r ∈ s.shared.log → r = .failureCanceled) := by
  have himpl := FutureStatus.startable_implemented hstart
  have hcustom : status.type ≠ .custom := by rcases hty with hty | hty <;> simp [hty]
  have hlazy : Lazy b status.type (State.start status payload upstream : State Tid P n) :=
    lazy_start hstart hup
  refine ⟨⟨?_, ?_⟩, fun hsafe t ht => ?_⟩
  · exact Machine.along_of_invariant (M := future b) (I := Lazy b status.type)
      (fun _ _ _ hI _ hstep => hI.step himpl hstep)
      (fun _ _ _ hI hC hstep hbad => hbad.changes hI himpl hstep hC) hlazy
  · exact Machine.along_of_invariant (M := future b) (I := Base status.type)
      (fun _ _ _ hI _ hstep => hI.step himpl hstep)
      (fun _ _ _ hI hC hstep => keepsOutcome_of_not_overwrites hI hcustom hstep hC) hlazy.base
  · obtain ⟨-, hfinal⟩ := Machine.invariant_of_along (M := future b)
      (I := fun s => Base status.type s ∧ Final s)
      (fun _ _ _ hI hC hstep => ⟨hI.1.step himpl hstep, hI.2.step hI.1 himpl hcustom hstep
        (keepsOutcome_of_not_overwrites hI.1 hcustom hstep hC)⟩)
      ⟨hlazy.base, final_start⟩ hsafe hrun
    have hpos : 0 < s.cancelations := by
      have hlog : 0 < s.shared.cancelations :=
        List.countP_pos_iff.mpr ⟨_, ht, rfl⟩
      simp only [State.cancelations]
      omega
    exact ⟨fun hl => hfinal.canceled hl hpos, fun v r hr => hfinal.finished v r hr hpos⟩

/-- A join is canceled, then finished. -/
def canceledJoin : List (Event (Fin 2) Bool 1) :=
  let calm := Oracle.calm (Fin 2) 1
  [.call 1 (.cancel false), .client 1 calm, .client 1 calm, .client 1 calm, .call 0 .finish,
    .client 0 calm, .client 0 calm, .client 0 calm, .client 0 calm, .client 0 calm,
    .client 0 calm, .client 0 calm]

theorem outcome_final_iff_canceledJoin :
    ∃ s, (future ⟨true⟩).run (State.start .startJoin false fun _ => .counted) canceledJoin =
        some s ∧
      s.shared.log = [.finished 0 .failureCanceled, .canceled 1 true] ∧
      ∀ v r, .finished v r ∈ s.shared.log → r = .failureCanceled := by
  have hlog : ((future ⟨true⟩).run (State.start .startJoin false fun _ => .counted)
      canceledJoin).map (fun s => s.shared.log) =
        some [.finished 0 .failureCanceled, .canceled 1 true] := by decide +kernel
  obtain ⟨s, hrun, hs⟩ := Option.map_eq_some_iff.mp hlog
  have hcanceled : .canceled 1 true ∈ s.shared.log := by simp [hs]
  exact ⟨s, hrun, hs, ((outcome_final_iff (by decide) (.inl rfl)
    (fun _ => ⟨by decide, by decide⟩) hrun).2 (by decide +kernel) 1 hcanceled).2⟩

/-- One thread waits for a join of one upstream and takes the lock, the upstream succeeds and the thread
integrates it; meanwhile another thread cancels the join. Then the join is finished. -/
def canceledBatch : List (Event (Fin 2) Bool 1) :=
  let calm := Oracle.calm (Fin 2) 1
  let ready : FutureStatus := { FutureStatus.startCustom with
    downstreamCount := 1, state := .result, outcome := .success }
  [.call 0 (.wait 9), .client 0 calm, .client 0 calm, .upstreamChanges 0 ready,
    .client 0 { calm with poll := .ready [.upstream 0] }, .client 0 calm, .client 0 calm,
    .call 1 (.cancel false), .client 1 calm, .client 1 calm, .client 0 calm, .client 0 calm,
    .client 1 calm, .client 1 calm, .client 0 calm, .call 0 .finish, .client 0 calm,
    .client 0 calm, .client 0 calm, .client 0 calm, .client 0 calm, .client 0 calm,
    .client 0 calm]

instance (s s' : State Tid P n) : Decidable (KeepsOutcome s s') := by
  unfold KeepsOutcome
  infer_instance

/-- The holder replaces the canceled outcome: `udipe_cancel` returns true, and `udipe_finish` reports a
success. -/
theorem canceledBatch_overwritten :
    ∃ s, (future ⟨true⟩).run (State.start .startJoin false fun _ => .counted) canceledBatch =
        some s ∧
      .canceled 1 true ∈ s.shared.log ∧ .finished 0 (.typed .join none) ∈ s.shared.log ∧
      ¬ (future ⟨true⟩).Along (fun s _ s' => KeepsOutcome s s')
        (State.start .startJoin false fun _ => .counted) canceledBatch := by
  have hlog : ((future ⟨true⟩).run (State.start .startJoin false fun _ => .counted)
      canceledBatch).map (fun s => s.shared.log) =
        some [.finished 0 (.typed .join none), .waited 0 true, .canceled 1 true] := by
    decide +kernel
  obtain ⟨s, hrun, hs⟩ := Option.map_eq_some_iff.mp hlog
  exact ⟨s, hrun, by simp [hs], by simp [hs], by decide +kernel⟩

end Udipe

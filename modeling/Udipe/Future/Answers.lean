import Udipe.Future.Wellformed

/-!
# What `udipe_cancel` and `udipe_finish` answer

Reference: `future.c` (`udipe_cancel`, `future_finish`).

A `udipe_cancel` call takes effect when its compare-exchange stores the canceled outcome. From then on
its thread holds the answer `true` until it is logged, so the number of logged and held answers is
the number of calls that took effect. `udipe_finish` computes its answer from its last copy of the
word, and keeps it until the future is liberated. This holds for every type of future.
-/

namespace Udipe

open Function Threads

variable {Tid P : Type} {n : ℕ} {ty : FutureType} {b : Build}

/-- The caller of `future_finish` is a `udipe_cancel` call that took effect. -/
def FinishCaller.holdsCancel : FinishCaller → Bool
  | .finish => false
  | .cancel canceled => canceled

/-- The thread is in a `udipe_cancel` call that took effect. -/
def Pc.holdsCancel : Pc P n → Bool
  | .cancelLatch _ _ | .cancelWake _ _ | .cancelTimer _ _ => true
  | .cancelReturn _ canceled _ => canceled
  | .finishCas f _ | .finishCollect f _ | .finishUpstream f _ | .finishDetach f _ _
  | .finishLiberate f _ => f.holdsCancel
  | pc =>
    match pc.waitCall? with
    | some w =>
      match w.caller with
      | .finish f => f.holdsCancel
      | _ => false
    | none => false

/-- `udipe_cancel` returned true. -/
def Response.isCancelation : Response Tid P → Bool
  | .canceled _ answer => answer
  | _ => false

/-- How many `udipe_cancel` calls returned true. -/
def Shared.cancelations (sh : Shared Tid P n) : ℕ := sh.log.countP Response.isCancelation

/-- How many `udipe_cancel` calls returned or will return true. -/
def State.cancelations [Fintype Tid] (s : State Tid P n) : ℕ :=
  s.shared.cancelations + ∑ u, (s.pc u).holdsCancel.toNat

/-- The answer that the thread collected for `udipe_finish`. -/
def Pc.collected? : Pc P n → Option (Result P)
  | .finishUpstream .finish result | .finishDetach .finish result _
  | .finishLiberate .finish result => result
  | _ => none

/-- The event is the step at which a `udipe_cancel` call takes effect. -/
def Event.cancels (s : State Tid P n) (e : Event Tid P n) (s' : State Tid P n) : Bool :=
  match e with
  | .client t _ =>
    match s.pc t with
    | .cancelCas _ _ _ =>
        s.shared.word.outcome == .unknown && s'.shared.word.outcome == .failureCanceled
    | _ => false
  | _ => false

theorem Pc.holdsCancel_of_waitCall? {pc : Pc P n} {w : WaitCall} (h : pc.waitCall? = some w) :
    pc.holdsCancel = match w.caller with
      | .finish f => f.holdsCancel
      | _ => false := by
  cases pc <;> simp only [waitCall?, Option.some.injEq, reduceCtorEq] at h <;> subst h <;> rfl

@[simp] theorem Pc.holdsCancel_countedReturn {w : WaitCall} {s : FutureStatus} :
    (countedReturn w s : Pc P n).holdsCancel = match w.caller with
      | .finish f => f.holdsCancel
      | _ => false :=
  Pc.holdsCancel_of_waitCall? waitCall?_countedReturn

@[simp] theorem Pc.holdsCancel_afterRelease {w : WaitCall} {s : FutureStatus}
    {outcome : FutureOutcome} : (afterRelease w s outcome : Pc P n).holdsCancel = match w.caller with
      | .finish f => f.holdsCancel
      | _ => false :=
  Pc.holdsCancel_of_waitCall? waitCall?_afterRelease

section

variable [DecidableEq Tid] {t : Tid} {o : Oracle Tid n} {sh sh' : Shared Tid P n}
  {pc pc' : Pc P n}

omit [DecidableEq Tid] in
/-- A move that leaves the shared state alone keeps the thread's answer. -/
theorem LocalMove.holdsCancel (h : LocalMove b t o sh pc pc') :
    pc'.holdsCancel = pc.holdsCancel := by
  cases h
  case reloadReady | measureDone => rw [Pc.holdsCancel_countedReturn]; rfl
  case measureRelease hw | measurePoll hw => simp [Pc.holdsCancel, Pc.waitCall?, hw]
  case finishWaited hw _ => simp [Pc.holdsCancel, Pc.waitCall?, hw]
  all_goals rfl

omit [DecidableEq Tid] in
@[simp] theorem Pc.collected?_countedReturn {w : WaitCall} {s : FutureStatus} :
    (countedReturn w s : Pc P n).collected? = none := by
  cases hp : w.policy <;> simp [countedReturn, hp, collected?]

omit [DecidableEq Tid] in
@[simp] theorem Pc.collected?_afterRelease {w : WaitCall} {s : FutureStatus}
    {outcome : FutureOutcome} : (afterRelease w s outcome : Pc P n).collected? = none := by
  unfold afterRelease
  split_ifs <;> rfl

/-- Where the answer of `udipe_finish` comes from. -/
theorem ClientStep.collected (h : ClientStep b t o sh pc sh' pc') (himpl : ty.implemented = true)
    (hfits : pc.Fits ty) {r : Result P} (hr : pc'.collected? = some r) :
    pc.collected? = some r ∨
      ∃ l, pc = .finishCollect .finish l ∧ collectResult b l sh.payload = .ok r := by
  cases h
  case move hmove =>
    cases hmove
    case reloadReady | measureDone => simp at hr
    case finishCollect f l result hcollects =>
      cases f with
      | cancel canceled => simp [Pc.collected?] at hr
      | finish =>
          obtain rfl : result = some r := hr
          exact .inr ⟨l, rfl, hcollects.2⟩
    case finishUpstreams f result _ | finishAlone f result _ => cases f <;> exact .inl hr
    all_goals simp [Pc.collected?] at hr
  case cancel hk hpc =>
    obtain rfl : _ = ty := hfits
    obtain ⟨-, rfl⟩ | ⟨-, -, rfl⟩ | ⟨-, -, rfl⟩ := afterCancel_eq_ok himpl hpc <;>
      simp [Pc.collected?] at hr
  case release => simp at hr
  case cancelLatch => split at hr <;> simp [Pc.collected?] at hr
  case finish => split at hr <;> simp [Pc.collected?] at hr
  case detach f _ _ | detached f _ _ _ => cases f <;> exact .inl hr
  all_goals simp [Pc.collected?] at hr

/-- `udipe_finish` logs the answer that it collected when it liberates the future. -/
theorem ClientStep.finished (h : ClientStep b t o sh pc sh' pc') {v : Tid} {r : Result P}
    (hr : .finished v r ∈ sh'.log) : .finished v r ∈ sh.log ∨
      pc = .finishLiberate .finish (some r) ∧ sh'.liberated = true ∧ sh'.aborted = sh.aborted := by
  cases h
  case wakeOne => cases hw : o.wakee <;> simp_all [wakeByAddressSingle]
  case waited | polled | canceled => exact .inl (by simpa using hr)
  case liberate f result =>
    cases f with
    | cancel canceled => exact .inl (by simpa [finishResponse] using hr)
    | finish =>
        cases result with
        | none => exact .inl (by simpa [finishResponse] using hr)
        | some r' =>
            simp only [finishResponse, Option.toList_some, List.map_cons, List.map_nil,
              List.cons_append, List.nil_append, List.mem_cons, Response.finished.injEq] at hr
            obtain ⟨rfl, rfl⟩ | hr := hr
            · exact .inr ⟨rfl, rfl, rfl⟩
            · exact .inl hr
  all_goals exact .inl hr

/-- Liberating a future resets its word. -/
theorem ClientStep.liberated (h : ClientStep b t o sh pc sh' pc') (hl : sh.liberated = false)
    (hl' : sh'.liberated = true) : sh'.word = .ofWord 0 ∧ ∃ f r, pc = .finishLiberate f r := by
  cases h
  case liberate | liberateFails => exact ⟨rfl, _, _, rfl⟩
  case wakeOne => cases hw : o.wakee <;> simp_all [wakeByAddressSingle]
  all_goals simp_all [wakeByAddressAll]

/-- A client never writes the payload. -/
theorem ClientStep.payload (h : ClientStep b t o sh pc sh' pc') : sh'.payload = sh.payload := by
  cases h
  case wakeOne => cases hw : o.wakee <;> rfl
  all_goals rfl

omit [DecidableEq Tid] in
/-- The answer of `udipe_finish` follows the outcome that it saw. -/
theorem collectResult_eq_ok {l : FutureStatus} (hl : l.Typed ty) (himpl : ty.implemented = true)
    {payload : P} {r : Result P} (h : collectResult b l payload = .ok r) :
    l.outcome = .failureCanceled ∧ r = .failureCanceled ∨
      l.outcome = .failureDependency ∧ r = .failureDependency ∨
      (l.outcome = .success ∨ l.outcome = .failureInternal) ∧
        ∃ specific, r = .typed ty specific ∧ (ty = .custom → specific = some payload) := by
  unfold collectResult at h
  rw [hl.type] at h
  cases ho : l.outcome <;> simp only [ho, reduceCtorEq] at h
  case failureCanceled => exact .inl ⟨rfl, (Checked.pure_eq_ok.mp h).symm⟩
  case failureDependency => exact .inr (.inl ⟨rfl, (Checked.pure_eq_ok.mp h).symm⟩)
  all_goals
    refine .inr (.inr ⟨by simp, ?_⟩)
    cases ty <;> simp only [FutureType.implemented, Bool.false_eq_true] at himpl
    case custom => exact ⟨_, (Checked.pure_eq_ok.mp h).symm, fun _ => rfl⟩
    all_goals
      obtain ⟨-, -, h⟩ := Checked.bind_eq_ok.mp h
      exact ⟨_, (Checked.pure_eq_ok.mp h).symm, by simp⟩

/-- What a step does to the answers of `udipe_cancel` calls. -/
theorem ClientStep.cancelations (h : ClientStep b t o sh pc sh' pc') (himpl : ty.implemented = true)
    (hfits : pc.Fits ty) :
    (∃ fin, pc = .cancelCas fin ty sh.word ∧ sh.word.outcome = .unknown ∧
        sh'.word = sh.word.canceledAs ty ∧ sh'.cancelations = sh.cancelations ∧
        pc'.holdsCancel = true) ∨
      ((∀ fin type l, pc = .cancelCas fin type l → sh'.word = sh.word) ∧
        sh'.cancelations + pc'.holdsCancel.toNat ≤ sh.cancelations + pc.holdsCancel.toNat ∧
        (sh'.aborted = none →
          sh'.cancelations + pc'.holdsCancel.toNat =
            sh.cancelations + pc.holdsCancel.toNat)) := by
  cases h
  case move hmove => exact .inr ⟨fun _ _ _ _ => rfl, by rw [hmove.holdsCancel], fun _ => by
    rw [hmove.holdsCancel]⟩
  case cancel hk hpc =>
    obtain rfl : _ = ty := hfits
    refine .inl ⟨_, rfl, hk, rfl, rfl, ?_⟩
    obtain ⟨-, rfl⟩ | ⟨-, -, rfl⟩ | ⟨-, -, rfl⟩ := afterCancel_eq_ok himpl hpc <;> rfl
  case cancelFails hk hpc =>
    obtain rfl : _ = ty := hfits
    exact absurd hpc (afterCancel_ne_error himpl)
  case waited hw | polled hw =>
    refine .inr ⟨by simp, ?_⟩
    simp [Shared.cancelations, Response.isCancelation, Pc.holdsCancel, Pc.waitCall?, hw]
  case canceled answer status =>
    refine .inr ⟨by simp, ?_⟩
    cases answer <;>
      simp [Shared.cancelations, List.countP_cons, Response.isCancelation, Pc.holdsCancel,
        Pc.waitCall?]
  case release =>
    refine .inr ⟨by simp, ?_⟩
    rw [Pc.holdsCancel_afterRelease]
    simp [Pc.holdsCancel, Pc.waitCall?, Shared.cancelations]
  case cancelLatch fin status =>
    refine .inr ⟨by simp, ?_⟩
    cases hn : status.notifyAddress <;> simp [Pc.holdsCancel, Shared.cancelations]
  case finish f _ _ _ =>
    refine .inr ⟨by simp, ?_⟩
    split <;> simp [Pc.holdsCancel, Pc.waitCall?, Shared.cancelations]
  case wakeOne =>
    refine .inr ⟨by simp, ?_⟩
    cases hw : o.wakee <;>
      simp [Pc.holdsCancel, Pc.waitCall?, Shared.cancelations, wakeByAddressSingle]
  case liberate f result =>
    refine .inr ⟨by simp, ?_⟩
    cases f with
    | finish =>
        cases result <;> simp [Pc.holdsCancel, Pc.waitCall?, Shared.cancelations, finishResponse,
          FinishCaller.holdsCancel, Response.isCancelation]
    | cancel canceled =>
        cases canceled <;> simp [Pc.holdsCancel, Pc.waitCall?, Shared.cancelations, finishResponse,
          FinishCaller.holdsCancel, List.countP_cons, Response.isCancelation]
  all_goals
    refine .inr ⟨by simp, ?_⟩
    simp [Pc.holdsCancel, Pc.waitCall?, Shared.cancelations, wakeByAddressAll]

end

variable [DecidableEq Tid] [Fintype Tid] {s s' : State Tid P n} {e : Event Tid P n}

/-- A step that logs an answer already held it, and holds the answers that it adds. -/
theorem cancelations_step (hbase : Base ty s) (himpl : ty.implemented = true)
    (hstep : (future b).step s e = some s') (halive : s'.shared.aborted = none) :
    (s'.cancelations : ℤ) = s.cancelations + (e.cancels s s').toNat := by
  cases step_cases hstep with
  | @call t c hidle hc =>
      have hsum := sum_update (fun pc : Pc P n => pc.holdsCancel.toNat) s.pc t c.start
      have hstart : (c.start : Pc P n).holdsCancel = false := by cases c <;> rfl
      have hold : (Pc.idle : Pc P n).holdsCancel = false := rfl
      simp only [hidle, hstart, hold, Bool.toNat_false, add_zero] at hsum
      simp [State.cancelations, Shared.cancelations, Event.cancels, hsum]
  | @client t o pc sh' pc' hpc hidle _ _ h =>
      subst hpc
      have hsum := sum_update (fun pc : Pc P n => pc.holdsCancel.toNat) s.pc t pc'
      have hfits := hbase.fits t
      obtain ⟨fin, hpc, hk, hword, hlog, hholds⟩ | ⟨hsame, -, hlog⟩ :=
        h.cancelations himpl hfits
      · have hcancels : (Event.client t o : Event Tid P n).cancels s
            { s with shared := sh', pc := update s.pc t pc' } = true := by
          simp [Event.cancels, hpc, hk, hword, FutureStatus.canceledAs]
        have hbefore : (s.pc t).holdsCancel = false := by rw [hpc]; rfl
        simp only [hbefore, hholds, Bool.toNat_false, Bool.toNat_true] at hsum
        simp only [State.cancelations, hcancels, Bool.toNat_true]
        omega
      · have hlog := hlog halive
        have hcancels : (Event.client t o : Event Tid P n).cancels s
            { s with shared := sh', pc := update s.pc t pc' } = false := by
          simp only [Event.cancels]
          split
          · rename_i fin type l hpc
            rw [hsame fin type l hpc]
            cases s.shared.word.outcome <;> rfl
          · rfl
        simp only [State.cancelations, hcancels, Bool.toNat_false]
        omega
  | worker _ hworker =>
      obtain ⟨-, -, -, -, hlog, -⟩ := hworker.frame
      simp [State.cancelations, Shared.cancelations, Event.cancels, hlog]
  | clientFails | workerFails | downstreamFails => simp at halive
  | workerCanceled | workerAcknowledge | workerSet | timerExpires | upstreamChanges
  | downstreamDetaches =>
      simp [State.cancelations, Shared.cancelations, Event.cancels]

/-- Over a run, the answers counted are the `udipe_cancel` calls that took effect. -/
theorem tally_cancels {status : FutureStatus} {payload : P} {upstream : Fin n → FutureStatus}
    (hstart : status.startable = true) {es : List (Event Tid P n)}
    (hrun : (future b).run (State.start status payload upstream) es = some s)
    (halive : s.shared.aborted = none) :
    (future b).tally (fun s e s' => (e.cancels s s').toNat) (State.start status payload upstream) es
      = s.cancelations := by
  have hlaw := Machine.tally_of_run (M := future b) (I := Base status.type)
    (φ := fun s : State Tid P n => (s.cancelations : ℤ))
    (w := fun s e s' => (e.cancels s s').toNat)
    (fun _ _ _ hI _ hstep => hI.step (FutureStatus.startable_implemented hstart) hstep)
    (fun _ _ _ hI hC hstep =>
      cancelations_step hI (FutureStatus.startable_implemented hstart) hstep hC)
    (base_start hstart) (along_alive hrun halive) hrun
  have hzero : (State.start status payload upstream : State Tid P n).cancelations = 0 := by
    simp [State.cancelations, Shared.cancelations, State.start, Pc.holdsCancel, Pc.waitCall?]
  rw [hlaw, hzero]
  simp

end Udipe

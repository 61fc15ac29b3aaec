import Udipe.Future.Finality
import Mathlib.Algebra.BigOperators.Group.Finset.Piecewise

/-!
# What a join makes of its upstreams

Reference: `future/wait.c` (`future_wait_join`), `future/collective_upstream.h`,
`future/allocator.c` (`future_upstream_detach`).

The lock holder of a join integrates the upstreams that the inpoll reports. The number of upstreams in the
inpoll is `remaining`; those that have left it are in their final state, and successful as long as the
join is unresolved and no holder carries a failure. So a join succeeds only if all of its upstreams
did, and fails for a dependency only if one of them did not.
-/

namespace Udipe

open Function Threads

variable {Tid P : Type} {n : ℕ} {b : Build}

namespace FutureStatus

/-- The future is completed with a success. -/
def Succeeded (s : FutureStatus) : Prop := s.state = .result ∧ s.outcome = .success

/-- The future is completed with a failure. -/
def Failed (s : FutureStatus) : Prop :=
  s.state = .result ∧ s.outcome ≠ .success ∧ s.outcome ≠ .unknown

instance (s : FutureStatus) : Decidable s.Succeeded := by unfold Succeeded; infer_instance

instance (s : FutureStatus) : Decidable s.Failed := by unfold Failed; infer_instance

/-- The outcome of a join is known in its final state only. -/
theorem Typed.result_of_join {s : FutureStatus} (h : s.Typed .join) (hk : s.outcome ≠ .unknown) :
    s.state = .result := by
  by_contra hs
  exact hk (h.outcome_unknown_iff.mpr (by rw [h.state_join hs]; rfl))

end FutureStatus

namespace Pc

/-- The lock holder knows of no failed upstream and of no cancelation. -/
def clean : Pc P n → Bool
  | joinPoll _ _ _ | joinBatch _ _ .unknown _ | joinMeasure _ _ _ | joinRelease _ _ .unknown => true
  | _ => false

/-- The lock holder knows of a failed upstream. -/
def failing : Pc P n → Bool
  | joinBatch _ _ .failureDependency _ | joinRelease _ _ .failureDependency => true
  | _ => false

/-- The lock holder found that every upstream succeeded. -/
def completing : Pc P n → Bool
  | joinRelease _ _ .success => true
  | _ => false

/-- The thread has seen the join resolved. -/
def settled : Pc P n → Bool
  | cancelLatch _ _ | cancelWake _ _ | cancelReturn _ _ _ | finishUpstream _ _
  | finishDetach _ _ _ | finishLiberate _ _ => true
  | finishCas f _ | finishCollect f _ => f != .finish
  | pc =>
    match pc.waitCall? with
    | some w =>
      match w.caller with
      | .finish f => f != .finish
      | _ => false
    | none => false

theorem holdsLock_of_clean {pc : Pc P n} (h : pc.clean = true) : pc.holdsLock = true := by
  cases pc <;> simp_all [clean, holdsLock]

theorem holdsLock_of_failing {pc : Pc P n} (h : pc.failing = true) : pc.holdsLock = true := by
  cases pc <;> simp_all [failing, holdsLock]

theorem holdsLock_of_completing {pc : Pc P n} (h : pc.completing = true) : pc.holdsLock = true := by
  cases pc <;> simp_all [completing, holdsLock]

theorem settled_of_waitCall? {pc : Pc P n} {w : WaitCall} (h : pc.waitCall? = some w) :
    pc.settled = match w.caller with
      | .finish f => f != .finish
      | _ => false := by
  cases pc <;> simp only [waitCall?, Option.some.injEq, reduceCtorEq] at h <;> subst h <;> rfl

end Pc

/-! ## One step of a client -/

section

variable [DecidableEq Tid] {t : Tid} {o : Oracle Tid n} {sh sh' : Shared Tid P n}
  {pc pc' : Pc P n}

/-- The step by which a lock holder integrates upstream `i`. -/
structure Integrates (b : Build) (sh : Shared Tid P n) (pc : Pc P n) (sh' : Shared Tid P n)
    (pc' : Pc P n) (i : Fin n) : Prop where
  attached : sh'.attached = update sh.attached i false
  remaining : 1 ≤ sh.remaining ∧ sh'.remaining = sh.remaining - 1
  state : (sh.upstream i).state = .result
  move : ∃ w l outcome outcome' rest, pc = .joinBatch w l outcome (.upstream i :: rest) ∧
    pc' = .joinBatch w l outcome' rest ∧
    integrateUpstream b outcome (sh.upstream i).outcome = .ok outcome'

/-- What a step does to the inpoll and to `remaining`. -/
theorem ClientStep.attached (h : ClientStep b t o sh pc sh' pc') :
    (∃ i, Integrates b sh pc sh' pc' i) ∨
      sh'.attached = sh.attached ∧
        (sh'.remaining = sh.remaining ∨ ∃ f r, pc' = .finishLiberate f r) := by
  cases h
  case integrate w l outcome outcome' i rest hs hr hk =>
    exact .inl ⟨i, rfl, ⟨hr, rfl⟩, hs, w, l, outcome, outcome', rest, rfl, rfl, hk⟩
  case detached => exact .inr ⟨rfl, .inr ⟨_, _, rfl⟩⟩
  case wakeOne => cases hw : o.wakee <;> exact .inr ⟨rfl, .inl rfl⟩
  all_goals exact .inr ⟨rfl, .inl rfl⟩

/-- The identifiers of a batch come from the inpoll. -/
theorem ClientStep.batch (h : ClientStep b t o sh pc sh' pc') (hfits : pc.Fits .join)
    {w : WaitCall} {l : FutureStatus} {outcome : FutureOutcome} {ids : List (InpollId n)}
    (hpc : pc' = .joinBatch w l outcome ids) :
    (∃ w l p, pc = .joinPoll w l p ∧ o.poll = .ready ids ∧ sh'.attached = sh.attached) ∨
      (∃ w l outcome id, pc = .joinBatch w l outcome (id :: ids) ∧
        (sh'.attached = sh.attached ∨
          ∃ i, id = .upstream i ∧ sh'.attached = update sh.attached i false)) := by
  have hlocked := h.lockedStep hfits (by rw [hpc]; rfl)
  cases hlocked
  case pollReady ho =>
    obtain ⟨-, -, -, rfl⟩ := Pc.joinBatch.inj hpc
    exact .inl ⟨_, _, _, rfl, ho, rfl⟩
  case skip =>
    obtain ⟨-, -, -, rfl⟩ := Pc.joinBatch.inj hpc
    exact .inr ⟨_, _, _, _, rfl, .inl rfl⟩
  case integrate i _ _ _ _ =>
    obtain ⟨-, -, -, rfl⟩ := Pc.joinBatch.inj hpc
    exact .inr ⟨_, _, _, _, rfl, .inr ⟨i, rfl, rfl⟩⟩
  all_goals simp at hpc

/-- A holder stays clean as long as it integrates successes. -/
theorem ClientStep.clean (h : ClientStep b t o sh pc sh' pc') (hfits : pc.Fits .join)
    (hc : pc'.clean = true) :
    (pc.clean = true ∨ sh.word.notifyEventOrLazyLock = false ∧ sh.word.state ≠ .result) ∧
      (sh'.attached = sh.attached ∨
        ∃ i, sh'.attached = update sh.attached i false ∧ (sh.upstream i).Succeeded) := by
  cases h.lockedStep hfits (Pc.holdsLock_of_clean hc)
  case lock hs hlock => exact ⟨.inr ⟨hlock, hs⟩, .inl rfl⟩
  case integrate outcome outcome' i rest hs hr hk =>
    obtain ⟨hsuccess, rfl⟩ | ⟨-, -, rfl⟩ := integrateUpstream_eq_ok hk
    · cases outcome' <;> simp [Pc.clean] at hc
      exact ⟨.inl rfl, .inr ⟨i, rfl, hs, hsuccess⟩⟩
    · simp [Pc.clean] at hc
  case skip outcome _ _ _ =>
    cases outcome <;> simp [Pc.clean] at hc
    exact ⟨.inl rfl, .inl rfl⟩
  case retry outcome =>
    cases outcome <;> simp [Pc.clean] at hc
    exact ⟨.inl rfl, .inl rfl⟩
  case failed | complete | latch => simp [Pc.clean] at hc
  all_goals exact ⟨.inl rfl, .inl rfl⟩

/-- A holder carries a failure only if it integrated one. -/
theorem ClientStep.failing (h : ClientStep b t o sh pc sh' pc') (hfits : pc.Fits .join)
    (hf : pc'.failing = true) :
    pc.failing = true ∨ ∃ i, (sh.upstream i).Failed := by
  cases h.lockedStep hfits (Pc.holdsLock_of_failing hf)
  case failed => exact .inl rfl
  case integrate outcome outcome' i rest hs hr hk =>
    obtain ⟨-, rfl⟩ | ⟨hne, hknown, -⟩ := integrateUpstream_eq_ok hk
    · left
      cases outcome' <;> simp [Pc.failing] at hf
      rfl
    · exact .inr ⟨i, hs, hne, hknown⟩
  case skip outcome _ _ _ =>
    cases outcome <;> simp [Pc.failing] at hf
    exact .inl rfl
  case retry outcome =>
    cases outcome <;> simp [Pc.failing] at hf
    exact .inl rfl
  all_goals simp [Pc.failing] at hf

/-- A holder claims a success only with a clean batch and nothing left to wait for. -/
theorem ClientStep.completing (h : ClientStep b t o sh pc sh' pc') (hfits : pc.Fits .join)
    (hc : pc'.completing = true) :
    pc.completing = true ∨ pc.clean = true ∧ sh.remaining = 0 := by
  cases h.lockedStep hfits (Pc.holdsLock_of_completing hc)
  case complete hr => exact .inr ⟨rfl, hr⟩
  case retry outcome =>
    cases outcome <;> simp [Pc.completing] at hc
    exact .inl rfl
  all_goals simp [Pc.completing] at hc

/-- A thread settles when it sees the join in its final state. -/
theorem ClientStep.settled (h : ClientStep b t o sh pc sh' pc') (hfits : pc.Fits .join)
    (hsnap : ∀ l, pc.snapshot? = some l → l.Typed .join) (hs : pc'.settled = true) :
    pc.settled = true ∨ sh'.word.state = .result ∨
      ∃ l, pc.snapshot? = some l ∧ l.state = .result := by
  cases h
  case move hmove =>
    cases hmove
    case reloadReady | measureDone =>
      rw [Pc.settled_of_waitCall? waitCall?_countedReturn] at hs
      exact .inl hs
    case measureRelease hw | measurePoll hw =>
      simp only [Pc.settled, Pc.waitCall?, hw] at hs
      exact .inl hs
    case cancelKnown hk => exact .inr (.inr ⟨_, rfl, (hsnap _ rfl).result_of_join hk⟩)
    case finishWaited hw _ =>
      left
      simpa [Pc.settled, Pc.waitCall?, hw] using hs
    case finishCollect f l result hr =>
      cases f with
      | cancel canceled => exact .inl rfl
      | finish =>
          cases result with
          | none => simp [Collects] at hr
          | some r =>
              obtain ⟨-, hcollect⟩ := hr
              refine .inr (.inr ⟨l, rfl, (hsnap l rfl).result_of_join ?_⟩)
              obtain ⟨hl, -⟩ | ⟨hl, -⟩ | ⟨hl | hl, -⟩ :=
                collectResult_eq_ok (hsnap l rfl) rfl hcollect <;> simp [hl]
    all_goals first | exact .inl rfl | exact .inl hs
  case release =>
    rw [Pc.settled_of_waitCall? waitCall?_afterRelease] at hs
    exact .inl hs
  case cancel hk hpc =>
    obtain rfl : _ = FutureType.join := hfits
    exact .inr (.inl rfl)
  case cancelTimer => simp [Pc.Fits] at hfits
  case finish =>
    split at hs
    · exact .inr (.inl ‹_›)
    · exact .inl (by simpa [Pc.settled, Pc.waitCall?] using hs)
  all_goals first | exact .inl rfl | exact .inl hs | simp [Pc.settled, Pc.waitCall?] at hs

/-- How a join reaches an outcome that is not a cancelation. -/
theorem ClientStep.reaches (h : ClientStep b t o sh pc sh' pc') (hfits : pc.Fits .join)
    (howed : pc.owed ≤ sh.word.count) (hlib : sh'.liberated = false) {outcome : FutureOutcome}
    (hk : outcome = .success ∨ outcome = .failureDependency)
    (hs : ¬ (sh.word.state = .result ∧ sh.word.outcome = outcome))
    (hs' : sh'.word.state = .result ∧ sh'.word.outcome = outcome) :
    (∃ w, pc = .joinRelease w sh.word outcome) ∧ sh'.upstream = sh.upstream := by
  have hsub : pc.owed = 1 → ¬ (sh.word.fetchSub.state = .result ∧
      sh.word.fetchSub.outcome = outcome) := fun h1 => by
    rw [FutureStatus.fetchSub_eq (h1 ▸ howed)]
    exact hs
  cases h
  case countDec | countDecFails => exact absurd hs' (hsub rfl)
  case release w outcome' _ _ =>
    by_cases hu : outcome' = .unknown
    · simp only [FutureStatus.released, FutureStatus.dec, hu, if_true] at hs'
      exact absurd hs' hs
    · obtain rfl : outcome' = outcome := by simpa [FutureStatus.released, hu] using hs'
      exact ⟨⟨w, rfl⟩, rfl⟩
  case timerInc | timerIncReady | timerIncFails | timerRevert | timerRevertFails | publish =>
    simp [Pc.Fits] at hfits
  case cancel | cancelFails => rcases hk with rfl | rfl <;> simp [FutureStatus.canceledAs] at hs'
  case wakeOne =>
    cases hw : o.wakee <;>
    · rw [hw] at hs'
      exact absurd hs' hs
  case liberate | liberateFails => simp at hlib
  all_goals exact absurd hs' hs

end

/-! ## The invariant -/

section

variable [Fintype Tid]

omit [Fintype Tid] in
/-- Until a thread is past the first round of the loop of `future_upstream_detach`, no upstream was
detached. -/
theorem Lifetime.detached_eq_zero {s : State Tid P n} {t : Tid} (h : Lifetime .join s)
    (halone : ∀ v, s.shared.finisher = some v → v ≠ t → s.pc t = .idle) (hidle : s.pc t ≠ .idle)
    (hp : (s.pc t).detachProgress = 0) (i : Fin n) : s.shared.detached i = 0 := by
  cases hfin : s.shared.finisher with
  | none => exact h.untouched hfin i
  | some v =>
      obtain rfl : v = t := by
        by_contra hne
        exact hidle (halone v hfin hne)
      have hd := (h.finisher v hfin).resolve_left hidle
      exact (h.progress rfl v hd i).2 (by simp [hp])

/-- While another thread holds the lock, a client touches neither the inpoll nor an upstream. -/
theorem Join.holder_frame [DecidableEq Tid] {s : State Tid P n} {t u : Tid} {o : Oracle Tid n}
    (hjoin : Join s) (hidle : s.pc t ≠ .idle) {sh' : Shared Tid P n} {pc' : Pc P n}
    (hstep : ClientStep b t o s.shared (s.pc t) sh' pc') (hut : u ≠ t)
    (hu : (s.pc u).holdsLock = true) :
    sh'.attached = s.shared.attached ∧
      ∀ i, sh'.detached i = 0 ∧ sh'.upstream i = s.shared.upstream i := by
  have hbase := hjoin.base
  have hlib := hbase.liberated_eq_false hidle
  have hidle' : s.pc u ≠ .idle := fun hpc => by simp [hpc, Pc.holdsLock] at hu
  have hnone : s.shared.finisher = none := by
    cases hfin : s.shared.finisher with
    | none => rfl
    | some v =>
        rcases eq_or_ne v t with rfl | hvt
        · exact absurd ((hbase.alone v hfin).2 u hut) hidle'
        · exact absurd ((hbase.alone v hfin).2 t hvt.symm) hidle
  have hd : (s.pc t).destroying = false := by
    by_contra hd
    simp [hbase.destroying t (by simpa using hd)] at hnone
  refine ⟨?_, fun i => ?_⟩
  · obtain ⟨i, hi⟩ | ⟨hsame, -⟩ := hstep.attached
    · obtain ⟨w, l, outcome, outcome', rest, hpc, -⟩ := hi.move
      exact absurd ((hjoin.lock.holder_unique hlib hu).2 t (by rw [hpc]; rfl)) hut.symm
    · exact hsame
  · have hzero : sh'.detached i = 0 := by
      rw [(hstep.detached_eq hd).1]
      exact hjoin.lifetime.untouched hnone i
    exact ⟨hzero, (hstep.upstream hzero).2⟩

/-- Neither does a client that holds the lock after its step touch an upstream. -/
theorem Join.holder_own [DecidableEq Tid] {s : State Tid P n} {t : Tid} {o : Oracle Tid n}
    (hjoin : Join s) (hidle : s.pc t ≠ .idle) {sh' : Shared Tid P n} {pc' : Pc P n}
    (hstep : ClientStep b t o s.shared (s.pc t) sh' pc') (hpc' : pc'.holdsLock = true)
    (i : Fin n) :
    sh'.detached i = 0 ∧ s.shared.detached i = 0 ∧ sh'.upstream i = s.shared.upstream i := by
  have hlocked := hstep.lockedStep (hjoin.base.fits t) hpc'
  have hzero : s.shared.detached i = 0 := by
    refine hjoin.lifetime.detached_eq_zero
      (fun v hv hvt => (hjoin.base.alone v hv).2 t hvt.symm) hidle ?_ i
    generalize s.pc t = pc at hlocked
    cases hlocked <;> rfl
  refine ⟨?_, hzero, ?_⟩
  · generalize s.pc t = pc at hlocked
    cases hlocked <;> exact hzero
  · generalize s.pc t = pc at hlocked
    cases hlocked <;> rfl

omit [Fintype Tid] in
/-- Until it is detached, an upstream in its final state keeps state and outcome. -/
theorem upstreamAllowed_keeps {sh : Shared Tid P n} {i j : Fin n} {status : FutureStatus}
    (hi : upstreamAllowed sh i status = true) (hzero : sh.detached j = 0)
    (hr : (sh.upstream j).state = .result) :
    (update sh.upstream i status j).state = .result ∧
      (update sh.upstream i status j).outcome = (sh.upstream j).outcome := by
  rcases eq_or_ne j i with rfl | hji
  · simp only [upstreamAllowed, hzero, bne_self_eq_false, Bool.false_or, Bool.and_eq_true,
      Bool.or_eq_true, bne_iff_ne, beq_iff_eq] at hi
    simpa using hi.2.resolve_left (not_not_intro hr)
  · simp [update_of_ne hji, hr]

/-- What the lock holders of a join know about its upstreams. -/
structure Upstreams (s : State Tid P n) : Prop where
  batch : ∀ u w l outcome ids, s.pc u = .joinBatch w l outcome ids →
    ids.Nodup ∧ ∀ i, .upstream i ∈ ids → s.shared.attached i = true
  remaining : s.shared.liberated = false → (∀ u f r, s.pc u ≠ .finishLiberate f r) →
    s.shared.remaining = ∑ i, (s.shared.attached i).toNat
  clean : s.shared.liberated = false →
    ((∃ u, (s.pc u).clean = true) ∨
      s.shared.word.notifyEventOrLazyLock = false ∧ s.shared.word.state ≠ .result) →
    ∀ i, s.shared.attached i = false → s.shared.detached i = 0 → (s.shared.upstream i).Succeeded
  failing : ∀ u, (s.pc u).failing = true →
    ∃ i, s.shared.detached i = 0 ∧ (s.shared.upstream i).Failed
  completing : ∀ u, (s.pc u).completing = true →
    ∀ i, s.shared.detached i = 0 ∧ (s.shared.upstream i).Succeeded
  settled : s.shared.liberated = false → ∀ u, (s.pc u).settled = true →
    s.shared.word.state = .result

namespace Upstreams

variable [DecidableEq Tid] {s s' : State Tid P n} {t : Tid} {o : Oracle Tid n} {e : Event Tid P n}

/-- The step lemma for clients. -/
theorem client (h : Upstreams s) (hjoin : Join s) (hrun : s.shared.aborted = none)
    (hidle : s.pc t ≠ .idle) (hpoll : o.pollAllowed s.shared (s.pc t) = true)
    {sh' : Shared Tid P n} {pc' : Pc P n}
    (hstep : ClientStep b t o s.shared (s.pc t) sh' pc') :
    Upstreams { s with shared := sh', pc := update s.pc t pc' } := by
  have hbase := hjoin.base
  have hlib := hbase.liberated_eq_false hidle
  have hword := hbase.typed hlib
  have ho := hbase.overflow_eq_false hrun
  have howed := hbase.owed_le ho hidle
  have hfits := hbase.fits t
  have hstays : sh'.liberated = false → s.shared.word.state = .result →
      sh'.word.state = .result := fun hl hr =>
    (hstep.result hword ho howed hr).resolve_right (by simpa using hl)
  have hframe : ∀ u, u ≠ t → (s.pc u).holdsLock = true →
      sh'.attached = s.shared.attached ∧
        ∀ i, sh'.detached i = 0 ∧ sh'.upstream i = s.shared.upstream i :=
    fun u hut hu => hjoin.holder_frame hidle hstep hut hu
  have hmine : pc'.holdsLock = true → ∀ i, sh'.detached i = 0 ∧ s.shared.detached i = 0 ∧
      sh'.upstream i = s.shared.upstream i := fun hpc' => hjoin.holder_own hidle hstep hpc'
  -- liberating the join needs all of its threads to be gone
  have hinside : sh'.liberated = false → ∀ f r, s.pc t ≠ .finishLiberate f r := fun hl f r hpc => by
    rw [hpc] at hstep
    cases hstep
    case move hmove => cases hmove
    all_goals simp at hl
  have hattached : ∀ u, (s.pc u).holdsLock = true → u ≠ t → sh'.attached = s.shared.attached :=
    fun u hu hut => (hframe u hut hu).1
  refine ⟨?_, fun hl hnot => ?_, fun hl hclean i hi hzero => ?_, ?_, ?_, fun hl => ?_⟩
  · refine forall_update (P := fun (_ : Tid) (pc : Pc P n) => ∀ w l outcome ids,
      pc = .joinBatch w l outcome ids →
        ids.Nodup ∧ ∀ i, .upstream i ∈ ids → sh'.attached i = true)
      (fun w l outcome ids hpc => ?_) fun u hut w l outcome ids hpc => ?_
    · obtain ⟨w', l', p, hfrom, hids, hsame⟩ | ⟨w', l', outcome', id, hfrom, hsame⟩ :=
        hstep.batch hfits hpc
      · simp only [Oracle.pollAllowed, hfrom, hids, Bool.and_eq_true, decide_eq_true_eq,
          List.all_eq_true] at hpoll
        exact ⟨hpoll.1.2, fun i hi => hsame ▸ hpoll.2 _ hi⟩
      · obtain ⟨hnodup, hall⟩ := h.batch t w' l' outcome' (id :: ids) hfrom
        obtain ⟨hnot, hnodup⟩ := List.nodup_cons.mp hnodup
        refine ⟨hnodup, fun i hi => ?_⟩
        obtain hsame | ⟨j, rfl, hsame⟩ := hsame
        · exact hsame ▸ hall i (List.mem_cons_of_mem _ hi)
        · have hij : i ≠ j := fun hij => hnot (hij ▸ hi)
          rw [hsame, update_of_ne hij]
          exact hall i (List.mem_cons_of_mem _ hi)
    · obtain ⟨hnodup, hall⟩ := h.batch u w l outcome ids hpc
      rw [hattached u (by rw [hpc]; rfl) hut]
      exact ⟨hnodup, hall⟩
  · have hbefore := h.remaining hlib fun u f r hpc => by
      rcases eq_or_ne u t with rfl | hut
      · exact hinside hl f r hpc
      · exact hnot u f r (by simpa [update_of_ne hut] using hpc)
    obtain ⟨i, hi⟩ | ⟨hsame, hr | ⟨f, r, hpc⟩⟩ := hstep.attached
    · obtain ⟨w, l, outcome, outcome', rest, hpc, -⟩ := hi.move
      have hattached := (h.batch t w l outcome _ hpc).2 i (by simp)
      have hsum := sum_update Bool.toNat s.shared.attached i false
      simp only [hattached, Bool.toNat_true, Bool.toNat_false, add_zero] at hsum
      have hpos := hi.remaining.1
      rw [hi.remaining.2, hi.attached, hbefore]
      omega
    · rw [hr, hsame]
      exact hbefore
    · exact absurd (by simp [hpc]) (hnot t f r)
  · obtain ⟨hzero', hup⟩ := hstep.upstream hzero
    -- the condition held before the step, and what left the inpoll since then succeeded
    have hstable : ((∃ u, (s.pc u).clean = true) ∨
          s.shared.word.notifyEventOrLazyLock = false ∧ s.shared.word.state ≠ .result) ∧
        (sh'.attached = s.shared.attached ∨
          ∃ j, sh'.attached = update s.shared.attached j false ∧
            (s.shared.upstream j).Succeeded) := by
      obtain ⟨u, hu⟩ | ⟨hfree, hs'⟩ := hclean
      · have hu : (update s.pc t pc' u).clean = true := hu
        rcases eq_or_ne u t with rfl | hut
        · rw [update_self] at hu
          exact (hstep.clean hfits hu).imp_left fun hc => hc.imp_left fun hc => ⟨u, hc⟩
        · rw [update_of_ne hut] at hu
          exact ⟨.inl ⟨u, hu⟩, .inl (hattached u (Pc.holdsLock_of_clean hu) hut)⟩
      · have hs : s.shared.word.state ≠ .result := fun hr => hs' (hstays hl hr)
        have hnone : ∀ i, ¬ Integrates b s.shared (s.pc t) sh' pc' i := fun i hi => by
          obtain ⟨w, l, outcome, outcome', rest, hpc, hpc', -⟩ := hi.move
          have hlocked := hstep.lockedStep hfits (by rw [hpc']; rfl)
          have hbit := (hjoin.lock.holder_unique hlib (t := t) (by rw [hpc]; rfl)).1
          rw [hpc, hpc'] at hlocked
          cases hlocked <;> exact absurd (hbit.symm.trans hfree) (by simp)
        refine ⟨?_, .inl (hstep.attached.resolve_left (not_exists.mpr hnone)).1⟩
        obtain ⟨hsame, -⟩ | ⟨-, hon, -⟩ | ⟨w, outcome, hpc, hreleased, -⟩ :=
          hstep.lock hfits howed hl
        · exact .inr ⟨hsame ▸ hfree, hs⟩
        · exact absurd (hon.symm.trans hfree) (by simp)
        · left
          have hunknown : outcome = .unknown := by
            by_contra hk
            exact hs' (by rw [hreleased]; simp [FutureStatus.released, hk])
          exact ⟨t, by rw [hpc, hunknown]; rfl⟩
    show (sh'.upstream i).Succeeded
    rw [hup]
    obtain ⟨hcond, hsame | ⟨j, hsame, hj⟩⟩ := hstable
    · exact h.clean hlib hcond i (hsame ▸ hi) hzero'
    · rcases eq_or_ne i j with rfl | hij
      · exact hj
      · refine h.clean hlib hcond i ?_ hzero'
        have hi : sh'.attached i = false := hi
        rwa [hsame, update_of_ne hij] at hi
  · refine forall_update (P := fun _ (pc : Pc P n) => pc.failing = true →
      ∃ i, sh'.detached i = 0 ∧ (sh'.upstream i).Failed) (fun hf => ?_) fun u hut hf => ?_
    · have hmine := hmine (Pc.holdsLock_of_failing hf)
      obtain hf | ⟨i, hi⟩ := hstep.failing hfits hf
      · obtain ⟨i, -, hi⟩ := h.failing t hf
        exact ⟨i, (hmine i).1, (hmine i).2.2 ▸ hi⟩
      · exact ⟨i, (hmine i).1, (hmine i).2.2 ▸ hi⟩
    · obtain ⟨i, -, hi⟩ := h.failing u hf
      obtain ⟨hzero, hup⟩ := (hframe u hut (Pc.holdsLock_of_failing hf)).2 i
      exact ⟨i, hzero, hup ▸ hi⟩
  · refine forall_update (P := fun _ (pc : Pc P n) => pc.completing = true →
      ∀ i, sh'.detached i = 0 ∧ (sh'.upstream i).Succeeded) (fun hc i => ?_) fun u hut hc i => ?_
    · obtain ⟨hzero', hzero, hup⟩ := hmine (Pc.holdsLock_of_completing hc) i
      refine ⟨hzero', hup ▸ ?_⟩
      obtain hc | ⟨hc, hr⟩ := hstep.completing hfits hc
      · exact (h.completing t hc i).2
      · have hsum := h.remaining hlib fun u f r hpc => by
          rcases eq_or_ne u t with rfl | hut
          · simp [hpc, Pc.clean] at hc
          · have hd := hbase.destroying u (by rw [hpc]; rfl)
            exact hidle ((hbase.alone u hd).2 t hut.symm)
        have hnone := (sum_eq_zero Bool.toNat s.shared.attached).mp (hsum.symm.trans hr) i
        exact h.clean hlib (.inl ⟨t, hc⟩) i (by simpa using hnone) hzero
    · obtain ⟨hzero, hup⟩ := (hframe u hut (Pc.holdsLock_of_completing hc)).2 i
      exact ⟨hzero, hup ▸ (h.completing u hc i).2⟩
  · refine forall_update (P := fun _ (pc : Pc P n) => pc.settled = true →
      sh'.word.state = .result) (fun hs => ?_) fun u _ hs => hstays hl (h.settled hlib u hs)
    obtain hs | hr | ⟨l, hsnap, hr⟩ := hstep.settled hfits (hbase.snapshot t) hs
    · exact hstays hl (h.settled hlib t hs)
    · exact hr
    · exact hstays hl (hjoin.lifetime.result hlib t l hsnap hr)

omit [DecidableEq Tid] [Fintype Tid] in
/-- A change that touches neither the lock, the state nor the upstreams. -/
theorem congr (h : Upstreams s)
    (hlock : s'.shared.word.notifyEventOrLazyLock = s.shared.word.notifyEventOrLazyLock)
    (hstate : s'.shared.word.state = s.shared.word.state)
    (hattached : s'.shared.attached = s.shared.attached)
    (hremaining : s'.shared.remaining = s.shared.remaining)
    (hdetached : s'.shared.detached = s.shared.detached)
    (hupstream : s'.shared.upstream = s.shared.upstream)
    (hlib : s'.shared.liberated = s.shared.liberated) (hpc : s'.pc = s.pc) : Upstreams s' := by
  refine ⟨?_, ?_, ?_, ?_, ?_, ?_⟩
  · simpa only [hpc, hattached] using h.batch
  · simpa only [hlib, hpc, hremaining, hattached] using h.remaining
  · simpa only [hlib, hpc, hlock, hstate, hattached, hdetached, hupstream] using h.clean
  · simpa only [hpc, hdetached, hupstream] using h.failing
  · simpa only [hpc, hdetached, hupstream] using h.completing
  · simpa only [hlib, hpc, hstate] using h.settled

omit [Fintype Tid] in
/-- A call starts. -/
theorem call (h : Upstreams s) {c : Call} (hidle : s.pc t = .idle) (finisher : Option Tid) :
    Upstreams { s with
      shared := { s.shared with finisher := finisher }
      pc := update s.pc t c.start } := by
  refine ⟨?_, fun hl hnot => h.remaining hl fun u f r hpc => ?_, fun hl hclean => h.clean hl ?_,
    ?_, ?_, fun hl => ?_⟩
  · refine forall_update (P := fun (_ : Tid) (pc : Pc P n) => ∀ w l outcome ids,
      pc = .joinBatch w l outcome ids →
        ids.Nodup ∧ ∀ i, .upstream i ∈ ids → s.shared.attached i = true)
      (fun w l outcome ids hpc => ?_) fun u _ => h.batch u
    cases c <;> simp [Call.start] at hpc
  · have hut : u ≠ t := fun hut => by simp [hut, hidle] at hpc
    exact hnot u f r (by simpa [update_of_ne hut] using hpc)
  · refine hclean.imp_left ?_
    rintro ⟨u, hu⟩
    refine ⟨u, ?_⟩
    have hu : (update s.pc t c.start u).clean = true := hu
    rcases eq_or_ne u t with rfl | hut
    · rw [update_self] at hu
      cases c <;> simp [Call.start, Pc.clean] at hu
    · rwa [update_of_ne hut] at hu
  · exact forall_update (P := fun _ (pc : Pc P n) => pc.failing = true →
      ∃ i, s.shared.detached i = 0 ∧ (s.shared.upstream i).Failed)
      (fun hf => by cases c <;> simp [Call.start, Pc.failing] at hf) fun u _ => h.failing u
  · exact forall_update (P := fun _ (pc : Pc P n) => pc.completing = true →
      ∀ i, s.shared.detached i = 0 ∧ (s.shared.upstream i).Succeeded)
      (fun hc => by cases c <;> simp [Call.start, Pc.completing] at hc) fun u _ => h.completing u
  · exact forall_update (P := fun _ (pc : Pc P n) => pc.settled = true →
      s.shared.word.state = .result)
      (fun hs => by cases c <;> simp [Call.start, Pc.settled, Pc.waitCall?] at hs)
      fun u _ => h.settled hl u

omit [DecidableEq Tid] [Fintype Tid] in
/-- An upstream changes, and keeps its outcome if it has one. -/
theorem upstreamChanges (h : Upstreams s) {i : Fin n} {status : FutureStatus}
    (hi : upstreamAllowed s.shared i status = true) :
    Upstreams { s with
      shared := { s.shared with upstream := update s.shared.upstream i status } } := by
  have hkeeps : ∀ j, s.shared.detached j = 0 → (s.shared.upstream j).state = .result →
      (update s.shared.upstream i status j).state = .result ∧
        (update s.shared.upstream i status j).outcome = (s.shared.upstream j).outcome :=
    fun _ hzero hr => upstreamAllowed_keeps hi hzero hr
  refine ⟨h.batch, h.remaining, fun hl hclean j hj hzero => ?_, fun u hf => ?_, fun u hc j => ?_,
    h.settled⟩
  · obtain ⟨hr, hk⟩ := h.clean hl hclean j hj hzero
    obtain ⟨hr', hk'⟩ := hkeeps j hzero hr
    exact ⟨hr', hk'.trans hk⟩
  · obtain ⟨j, hzero, hr, hne, hk⟩ := h.failing u hf
    obtain ⟨hr', hk'⟩ := hkeeps j hzero hr
    exact ⟨j, hzero, hr', hk' ▸ hne, hk' ▸ hk⟩
  · obtain ⟨hzero, hr, hk⟩ := h.completing u hc j
    obtain ⟨hr', hk'⟩ := hkeeps j hzero hr
    exact ⟨hzero, hr', hk'.trans hk⟩

/-- The step lemma. -/
theorem step (h : Upstreams s) (hjoin : Join s) (hstep : (future b).step s e = some s') :
    Upstreams s' := by
  have hrun := aborted_eq_none_of_step hstep
  cases step_cases hstep with
  | call hidle => exact h.call hidle _
  | client hpc hidle hpoll _ hclient =>
      subst hpc
      exact h.client hjoin hrun hidle hpoll hclient
  | worker hw hworker =>
      rw [← hw, hjoin.base.worker (by simp)] at hworker
      cases hworker
  | upstreamChanges hi => exact h.upstreamChanges hi
  | workerCanceled | workerAcknowledge | workerSet | clientFails | workerFails | timerExpires =>
      exact h.congr rfl rfl rfl rfl rfl rfl rfl rfl
  | downstreamDetaches hd | downstreamFails _ hd =>
      obtain ⟨-, heq⟩ := hjoin.base.fetchSub_eq hrun hd
      exact h.congr (by rw [heq]; rfl) (by rw [heq]; rfl) rfl rfl rfl rfl rfl rfl

end Upstreams

end

/-! ## Runs -/

/-- The step gives the join a final status with this outcome. -/
def Reaches (outcome : FutureOutcome) (s s' : State Tid P n) : Prop :=
  s'.shared.liberated = false ∧
    ¬ (s.shared.word.state = .result ∧ s.shared.word.outcome = outcome) ∧
    s'.shared.word.state = .result ∧ s'.shared.word.outcome = outcome

variable [DecidableEq Tid] [Fintype Tid] {status : FutureStatus} {payload : P}
  {upstream : Fin n → FutureStatus} {s s' : State Tid P n} {es : List (Event Tid P n)}
  {e : Event Tid P n}

/-- A join reaches an outcome that is not a cancelation when its lock holder publishes it. -/
theorem Reaches.holder {outcome : FutureOutcome} (h : Reaches outcome s s')
    (hk : outcome = .success ∨ outcome = .failureDependency) (hbase : Base .join s)
    (hstep : (future b).step s e = some s') :
    (∃ t w l, s.pc t = .joinRelease w l outcome) ∧ s'.shared.upstream = s.shared.upstream := by
  obtain ⟨hlib, hs, hs'⟩ := h
  have hrun := aborted_eq_none_of_step hstep
  cases step_cases hstep with
  | @client t o pc sh' pc' hpc hidle _ _ hclient =>
      subst hpc
      have howed := hbase.owed_le (hbase.overflow_eq_false hrun) hidle
      obtain ⟨⟨w, hpc⟩, hup⟩ := hclient.reaches (hbase.fits t) howed hlib hk hs hs'
      exact ⟨⟨t, w, _, hpc⟩, hup⟩
  | worker hw hworker =>
      rw [← hw, hbase.worker (by simp)] at hworker
      cases hworker
  | call | workerCanceled | workerAcknowledge | workerSet | clientFails | workerFails
  | timerExpires | upstreamChanges => exact absurd hs' hs
  | downstreamDetaches hd | downstreamFails _ hd =>
      obtain ⟨-, heq⟩ := hbase.fetchSub_eq hrun hd
      rw [heq] at hs'
      exact absurd hs' hs

omit [DecidableEq Tid] [Fintype Tid] in
theorem upstreams_start : Upstreams (State.start status payload upstream : State Tid P n) where
  batch := fun _ _ _ _ _ hpc => by simp [State.start] at hpc
  remaining := fun _ _ => by simp [State.start]
  clean := fun _ _ _ hi => by simp [State.start] at hi
  failing := fun _ hf => by simp [State.start, Pc.failing] at hf
  completing := fun _ hc => by simp [State.start, Pc.completing] at hc
  settled := fun _ _ hs => by simp [State.start, Pc.settled, Pc.waitCall?] at hs

/-- The correctness of joins, over every run and in every build: a join succeeds only when all of its
upstreams have, and fails for a dependency only when one of them has failed; while it is unresolved,
`remaining` is the number of upstreams that were not yet seen ready; and when it has been
liberated, each upstream was detached from it exactly once. -/
theorem join_correct (hstart : status.startable = true) (hty : status.type = .join)
    (hrun : (future b).run (State.start status payload upstream) es = some s) :
    (future b).Along (fun s _ s' =>
        (Reaches .success s s' → ∀ i, (s'.shared.upstream i).Succeeded) ∧
          (Reaches .failureDependency s s' → ∃ i, (s'.shared.upstream i).Failed))
        (State.start status payload upstream) es ∧
      (s.shared.liberated = false → s.shared.word.state ≠ .result →
        s.shared.remaining = (Finset.univ.filter fun i => s.shared.attached i).card) ∧
      (s.shared.liberated = true → ∀ i, s.shared.detached i = 1) := by
  have hinv : ∀ (s : State Tid P n) e s', Join s ∧ Upstreams s →
      (future b).step s e = some s' → Join s' ∧ Upstreams s' := fun s e s' hI hstep =>
    ⟨hI.1.step hstep, hI.2.step hI.1 hstep⟩
  have h0 : Join (State.start status payload upstream : State Tid P n) ∧
      Upstreams (State.start status payload upstream : State Tid P n) :=
    ⟨Join.start hstart hty, upstreams_start⟩
  obtain ⟨hjoin, hup⟩ := Machine.invariant_of_run (M := future b)
    (I := fun s => Join s ∧ Upstreams s) hinv h0 hrun
  refine ⟨?_, fun hlib hs => ?_, hjoin.lifetime.complete rfl⟩
  · refine Machine.along_of_invariant (M := future b) (C := fun _ _ _ => True)
      (I := fun s => Join s ∧ Upstreams s) (fun s e s' hI _ => hinv s e s' hI)
      (fun s e s' hI _ hstep => ⟨fun hr i => ?_, fun hr => ?_⟩) h0 (Machine.along_true _ _)
    · obtain ⟨⟨t, w, l, hpc⟩, hsame⟩ := hr.holder (.inl rfl) hI.1.base hstep
      rw [hsame]
      exact (hI.2.completing t (by rw [hpc]; rfl) i).2
    · obtain ⟨⟨t, w, l, hpc⟩, hsame⟩ := hr.holder (.inr rfl) hI.1.base hstep
      obtain ⟨i, -, hi⟩ := hI.2.failing t (by rw [hpc]; rfl)
      exact ⟨i, hsame ▸ hi⟩
  · have hsum := hup.remaining hlib fun u f r hpc =>
      hs (hup.settled hlib u (by rw [hpc]; rfl))
    rw [hsum, Finset.card_filter]
    refine Finset.sum_congr rfl fun i _ => ?_
    cases s.shared.attached i <;> rfl

/-- A thread waits for a join of one upstream that succeeds. -/
def completedJoin : List (Event (Fin 1) Bool 1) :=
  let calm := Oracle.calm (Fin 1) 1
  [.call 0 (.wait 9), .client 0 calm, .client 0 calm,
    .upstreamChanges 0 { FutureStatus.counted with state := .result, outcome := .success },
    .client 0 { calm with poll := .ready [.upstream 0] }, .client 0 calm, .client 0 calm,
    .client 0 calm]

instance (outcome : FutureOutcome) (s s' : State Tid P n) : Decidable (Reaches outcome s s') := by
  unfold Reaches
  infer_instance

/-- A thread waits for a join of three upstreams. Two of them become ready in one batch, then the third
one; and the thread finishes the join. -/
def batchedJoin : List (Event (Fin 1) Bool 3) :=
  let calm := Oracle.calm (Fin 1) 3
  let succeeded := { FutureStatus.counted with state := .result, outcome := .success }
  [.call 0 (.wait 9), .client 0 calm, .client 0 calm, .upstreamChanges 0 succeeded,
      .upstreamChanges 2 succeeded, .client 0 { calm with poll := .ready [.upstream 2, .upstream 0] },
      .client 0 calm, .client 0 calm, .client 0 calm, .client 0 calm, .upstreamChanges 1 succeeded,
      .client 0 { calm with poll := .ready [.upstream 1] }] ++
    List.replicate 4 (.client 0 calm) ++
    .call 0 .finish :: List.replicate 9 (.client 0 calm)

theorem join_correct_batchedJoin :
    (future ⟨false⟩).Along (fun s _ s' => (Reaches .success s s' →
        ∀ i, (s'.shared.upstream i).Succeeded) ∧
          (Reaches .failureDependency s s' → ∃ i, (s'.shared.upstream i).Failed))
      (State.start .startJoin false fun _ => .counted) batchedJoin ∧
    ¬ (future ⟨false⟩).Along (fun s _ s' => ¬ Reaches .success s s')
      (State.start .startJoin false fun _ => .counted) batchedJoin ∧
    -- after the first batch
    (∃ s, (future ⟨false⟩).run (State.start .startJoin false fun _ => .counted)
        (batchedJoin.take 10) = some s ∧
      s.shared.remaining = (Finset.univ.filter fun i => s.shared.attached i).card ∧
      s.shared.remaining = 1) ∧
    ∃ s, (future ⟨false⟩).run (State.start .startJoin false fun _ => .counted) batchedJoin = some s ∧
      ∀ i, s.shared.detached i = 1 := by
  have hbatch : ((future ⟨false⟩).run (State.start .startJoin false fun _ => .counted)
      (batchedJoin.take 10)).map (fun s =>
        (s.shared.liberated, s.shared.word.state, s.shared.remaining)) =
          some (false, .waiting, 1) := by decide +kernel
  have hend : ((future ⟨false⟩).run (State.start .startJoin false fun _ => .counted)
      batchedJoin).map (fun s => s.shared.liberated) = some true := by decide +kernel
  obtain ⟨s, hrun, hs⟩ := Option.map_eq_some_iff.mp hbatch
  obtain ⟨s', hrun', hlib'⟩ := Option.map_eq_some_iff.mp hend
  simp only [Prod.mk.injEq] at hs
  obtain ⟨hlib, hstate, hremaining⟩ := hs
  obtain ⟨-, hattached, -⟩ := join_correct (by decide) rfl hrun
  obtain ⟨hreaches, -, hdetached⟩ := join_correct (by decide) rfl hrun'
  exact ⟨hreaches, by decide +kernel,
    ⟨s, hrun, hattached hlib (by simp [hstate]), hremaining⟩, s', hrun', hdetached hlib'⟩

end Udipe

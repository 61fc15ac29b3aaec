import Udipe.Future.Joining

/-!
# When a join stops using its upstreams

Reference: `future/collective_upstream.h` (`collective_upstream_t.array`), `future/allocator.c`
(`future_upstream_detach`), `future/wait.c` (`future_wait_join`).

The array of upstreams "must not be accessed after the point where" the join reaches `STATE_RESULT`. Two
paths access it later: the loop of `future_upstream_detach`, which runs when the join is liberated,
and a lock holder that goes on with its batch after the join was canceled.
-/

namespace Udipe

open Function Threads

variable {Tid P : Type} {n : ℕ} {b : Build}

/-- The next step of the thread reads the array of upstreams and accesses one of them. -/
def Pc.touchesUpstream : Pc P n → Bool
  | joinBatch _ _ _ (.upstream _ :: _) => true
  | finishDetach _ _ index => decide (index < n)
  | _ => false

/-- The event accesses an upstream on behalf of the join. -/
def TouchesUpstream (s : State Tid P n) : Event Tid P n → Prop
  | .client t _ => (s.pc t).touchesUpstream = true
  | _ => False

/-- The thread is in a round of the loop of `future_upstream_detach`. -/
def Pc.detaches : Pc P n → Bool
  | finishDetach _ _ index => decide (index < n)
  | _ => false

/-- The thread processes an upstream of its batch. -/
def Pc.processes : Pc P n → Bool
  | joinBatch _ _ _ (.upstream _ :: _) => true
  | _ => false

/-- The event detaches an upstream, or processes an upstream of a canceled join. -/
def TouchesLate (s : State Tid P n) : Event Tid P n → Prop
  | .client t _ => (s.pc t).detaches = true ∨
      (s.pc t).processes = true ∧ s.shared.word.outcome = .failureCanceled
  | _ => False

instance (s : State Tid P n) : (e : Event Tid P n) → Decidable (TouchesUpstream s e)
  | .client t _ => inferInstanceAs (Decidable ((s.pc t).touchesUpstream = true))
  | .call _ _ | .workerCall _ | .worker _ | .timerExpires | .upstreamChanges _ _
  | .downstreamDetaches => inferInstanceAs (Decidable False)

instance (s : State Tid P n) : (e : Event Tid P n) → Decidable (TouchesLate s e)
  | .client t _ => inferInstanceAs (Decidable ((s.pc t).detaches = true ∨
      (s.pc t).processes = true ∧ s.shared.word.outcome = .failureCanceled))
  | .call _ _ | .workerCall _ | .worker _ | .timerExpires | .upstreamChanges _ _
  | .downstreamDetaches => inferInstanceAs (Decidable False)

variable [DecidableEq Tid] [Fintype Tid] {s s' : State Tid P n} {e : Event Tid P n}

omit [DecidableEq Tid] [Fintype Tid] in
/-- While its lock is taken, a join is only resolved by a cancelation. -/
def CanceledUnderLock (s : State Tid P n) : Prop :=
  s.shared.liberated = false → s.shared.word.notifyEventOrLazyLock = true →
    s.shared.word.state = .result → s.shared.word.outcome = .failureCanceled

/-- The step lemma. -/
theorem CanceledUnderLock.step (h : CanceledUnderLock s) (hjoin : Join s)
    (hstep : (future b).step s e = some s') : CanceledUnderLock s' := by
  have hrun := aborted_eq_none_of_step hstep
  have hbase := hjoin.base
  intro hl hlock hr
  cases step_cases hstep with
  | @client t o pc sh' pc' hpc hidle _ _ hclient =>
      subst hpc
      have hlib := hbase.liberated_eq_false hidle
      have ho := hbase.overflow_eq_false hrun
      have howed := hbase.owed_le ho hidle
      have hfits := hbase.fits t
      -- the step that releases the lock leaves nothing to prove
      have hnot : ∀ w outcome, sh'.word ≠ s.shared.word.released w outcome :=
        fun w outcome hword => by
          have hoff : sh'.word.notifyEventOrLazyLock = false := by rw [hword]; rfl
          exact absurd (hoff.symm.trans hlock) (by simp)
      by_cases hs : s.shared.word.state = .result
      · have hbefore : s.shared.word.notifyEventOrLazyLock = true := by
          obtain ⟨hsame, -⟩ | ⟨-, -, -, hpc'⟩ | ⟨w, outcome, -, hword, -⟩ :=
            hclient.lock hfits howed hl
          · exact hsame ▸ hlock
          · have hlocked := hclient.lockedStep hfits hpc'
            generalize s.pc t = pc at hlocked
            cases hlocked
            case lock hs' _ => exact absurd hs hs'
            all_goals exact hlock
          · exact absurd hword (hnot _ _)
        have hcanceled := h hlib hbefore hs
        obtain hsame | hover := hclient.outcome howed ho hl (by simp [hcanceled])
        · exact hsame.trans hcanceled
        · obtain ⟨w, l, outcome, hpc⟩ : ∃ w l outcome, s.pc t = .joinRelease w l outcome := by
            cases hpc : s.pc t
            case joinRelease w l outcome => exact ⟨w, l, outcome, rfl⟩
            all_goals simp [hpc, Pc.overwrites] at hover
          rw [hpc] at hclient
          cases hclient
          case move => exact hcanceled
          case release => exact absurd rfl (hnot _ _)
      · obtain ⟨w, outcome, -, -, hword, -⟩ | ⟨fin, hword, -⟩ :=
          hclient.resolves hfits howed hl hs hr
        · exact absurd hword (hnot _ _)
        · show sh'.word.outcome = .failureCanceled
          rw [hword]
          rfl
  | worker hw hworker =>
      rw [← hw, hbase.worker (by simp)] at hworker
      cases hworker
  | call | workerCanceled | workerAcknowledge | workerSet | clientFails | workerFails
  | timerExpires | upstreamChanges => exact h hl hlock hr
  | downstreamDetaches hd | downstreamFails _ hd =>
      obtain ⟨-, heq⟩ := hbase.fetchSub_eq hrun hd
      rw [heq] at hlock hr ⊢
      exact h hl hlock hr

omit [DecidableEq Tid] in
/-- On a resolved join, the late accesses are all there are. -/
theorem touchesLate_iff (hjoin : Join s) (hup : Upstreams s) (hcanceled : CanceledUnderLock s) :
    TouchesLate s e ↔ s.shared.word.state = .result ∧ TouchesUpstream s e := by
  cases e
  case client t o =>
    have hlive : s.pc t ≠ .idle → s.shared.liberated = false := hjoin.base.liberated_eq_false
    simp only [TouchesLate, TouchesUpstream]
    cases hpc : s.pc t
    case finishDetach f r index =>
      have hs := hup.settled (hlive (by simp [hpc])) t (by rw [hpc]; rfl)
      simp [Pc.detaches, Pc.processes, Pc.touchesUpstream, hs]
    case joinBatch w l outcome ids =>
      have hlib := hlive (by simp [hpc])
      have hlock := (hjoin.lock.holder_unique hlib (t := t) (by rw [hpc]; rfl)).1
      have hresult : s.shared.word.outcome = .failureCanceled → s.shared.word.state = .result :=
        fun hk => (hjoin.base.typed hlib).result_of_join (by simp [hk])
      have hiff : s.shared.word.outcome = .failureCanceled ↔ s.shared.word.state = .result :=
        ⟨hresult, hcanceled hlib hlock⟩
      rcases ids with _ | ⟨_ | i, rest⟩ <;>
        simp [Pc.detaches, Pc.processes, Pc.touchesUpstream, hiff]
    all_goals simp [Pc.detaches, Pc.processes, Pc.touchesUpstream]
  all_goals simp [TouchesLate, TouchesUpstream]

variable {status : FutureStatus} {payload : P} {upstream : Fin n → FutureStatus}
  {es : List (Event Tid P n)}

/-- Over every run of a join: no upstream is accessed on its behalf once it is resolved exactly when the
loop that detaches its upstreams makes no round, and no lock holder processes an upstream after a
cancelation took effect. -/
theorem upstreams_released_iff (hstart : status.startable = true) (hty : status.type = .join) :
    (future b).Along (fun s e _ => s.shared.word.state = .result → ¬ TouchesUpstream s e)
        (State.start status payload upstream) es ↔
      (future b).Along (fun s e _ => ¬ TouchesLate s e) (State.start status payload upstream) es := by
  have hinv : ∀ (s : State Tid P n) e s', Join s ∧ Upstreams s ∧ CanceledUnderLock s →
      (future b).step s e = some s' → Join s' ∧ Upstreams s' ∧ CanceledUnderLock s' :=
    fun s e s' hI hstep =>
      ⟨hI.1.step hstep, hI.2.1.step hI.1 hstep, hI.2.2.step hI.1 hstep⟩
  have h0 : Join (State.start status payload upstream : State Tid P n) ∧
      Upstreams (State.start status payload upstream : State Tid P n) ∧
      CanceledUnderLock (State.start status payload upstream : State Tid P n) := by
    have hjoin : Join (State.start status payload upstream : State Tid P n) :=
      Join.start hstart hty
    refine ⟨hjoin, upstreams_start, fun hl hlock => ?_⟩
    have hnone := hjoin.lock.lock hl
    rw [hlock] at hnone
    simp [State.start, Pc.holdsLock] at hnone
  constructor
  · exact Machine.along_of_invariant (M := future b)
      (I := fun s => Join s ∧ Upstreams s ∧ CanceledUnderLock s)
      (fun s e s' hI _ => hinv s e s' hI)
      (fun s e s' hI hC _ hlate => by
        obtain ⟨hs, htouch⟩ := (touchesLate_iff hI.1 hI.2.1 hI.2.2).mp hlate
        exact hC hs htouch) h0
  · exact Machine.along_of_invariant (M := future b)
      (I := fun s => Join s ∧ Upstreams s ∧ CanceledUnderLock s)
      (fun s e s' hI _ => hinv s e s' hI)
      (fun s e s' hI hC _ hs htouch =>
        hC ((touchesLate_iff hI.1 hI.2.1 hI.2.2).mpr ⟨hs, htouch⟩)) h0

theorem upstreams_released_iff_completedJoin :
    (future ⟨true⟩).Along (fun s e _ => s.shared.word.state = .result → ¬ TouchesUpstream s e)
      (State.start .startJoin false fun _ => .counted) completedJoin :=
  (upstreams_released_iff (by decide) rfl).mpr (by decide +kernel)

/-- A join is completed and finished. -/
def finishedJoin : List (Event (Fin 1) Bool 1) :=
  let calm := Oracle.calm (Fin 1) 1
  completedJoin ++ [.client 0 calm, .call 0 .finish, .client 0 calm, .client 0 calm, .client 0 calm,
    .client 0 calm]

/-- After the join was resolved its upstream still counts it, and the next step accesses it. -/
theorem finishedJoin_touches :
    ∃ s, (future ⟨true⟩).run (State.start .startJoin false fun _ => .counted) finishedJoin = some s ∧
      s.shared.word.state = .result ∧ (s.shared.upstream 0).downstreamCount = 1 ∧
      TouchesUpstream s (.client 0 (.calm _ _)) ∧
      ((future ⟨true⟩).step s (.client 0 (.calm _ _))).isSome = true := by
  have hend : ((future ⟨true⟩).run (State.start .startJoin false fun _ => .counted)
      finishedJoin).map (fun s => (s.shared.word.state, (s.shared.upstream 0).downstreamCount,
        decide (TouchesUpstream s (.client 0 (.calm _ _))),
        ((future ⟨true⟩).step s (.client 0 (.calm _ _))).isSome)) =
          some (.result, 1, true, true) := by decide +kernel
  obtain ⟨s, hrun, hs⟩ := Option.map_eq_some_iff.mp hend
  simp only [Prod.mk.injEq, decide_eq_true_eq] at hs
  exact ⟨s, hrun, hs⟩

end Udipe

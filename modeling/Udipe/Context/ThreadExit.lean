import Udipe.Context.TeardownRun

/-!
# Which half the destructor performs

Reference: `context.c` (`future_thread_cache_destructor`).

`udipe_initialize` installs a destructor that calls `future_thread_cache_finalize_from_context`, the
half that belongs to `udipe_finalize`. A thread that exits never performs its own half: the other one
starts with a log, which ends the process as the thread has no logger.
-/

namespace Udipe

open Checked Function Threads

variable {Tid : Type} [DecidableEq Tid] [Fintype Tid] {w : ℕ} {s s' : TeardownState Tid w}
  {assertions : Bool}

/-- The event is the exit of a thread that used the context. -/
def TeardownEvent.isExit : TeardownEvent Tid → Bool
  | .exit _ => true
  | _ => false

/-- `udipe_finalize` is past the loop over the caches. -/
def FinalizerPc.pastCaches : FinalizerPc → Bool
  | .outside | .caches _ => false
  | .globals | .logger | .discard | .freeContext | .finished => true

/-- Each destructor performs the thread half, which releases the slot, and the context half is performed
once per cache, by `udipe_finalize`. -/
structure WiredRight (s : TeardownState Tid w) : Prop where
  threadHalf : ∀ t, s.destructor t ≠ .contextHalf
  releases : ∀ t, s.destructor t = .threadHalf .finished →
    ∃ result, (s.tss.threads t).phase = .released result
  contextHalf : ∀ t, (s.caches t).contextHalves = (s.contextHalf t).started.toNat
  complete : s.finalizer.pastCaches = true → ∀ t ∈ s.threadCaches, (s.caches t).contextHalves = 1
  sound : s.aborted = none

omit [DecidableEq Tid] in
theorem TeardownLaw.wiredRight (h : TeardownLaw s) : WiredRight s where
  threadHalf t hpc := by
    have hfits := h.fits t
    rw [hpc] at hfits
    exact hfits
  releases t hpc := by
    have hfits := h.fits t
    rw [hpc] at hfits
    exact hfits
  contextHalf t := (h.cache t).halves
  complete hpast t hin := by
    obtain ⟨j, hj, rfl⟩ := List.getElem_of_mem hin
    have hvisits := h.visits j _ (List.getElem?_eq_getElem hj)
    have hdone : s.contextHalf s.threadCaches[j] = .finished := by
      cases hf : s.finalizer with
      | outside | caches =>
          rw [hf] at hpast
          cases hpast
      | globals | logger | discard | freeContext | finished =>
          rw [hf] at hvisits
          exact hvisits
    rw [(h.cache _).halves, hdone]
    rfl
  sound := h.sound

/-- An exit runs the half that the destructor is wired to. -/
theorem destructor_of_exit {destructor : Half} {t : Tid}
    (h : (teardown assertions destructor).step s (.exit t) = some s') :
    s'.destructor t = destructor.destructorPc := by
  simp only [teardown, teardownStep] at h
  split at h
  · cases h
  · simp only [Option.map_eq_some_iff] at h
    obtain ⟨tss, -, rfl⟩ := h
    exact update_self ..

/-- Over every run of the context that `udipe_initialize` makes: the halves are wired right exactly when
no thread that used the context exits. -/
theorem thread_exit_wiring_iff (hroom : assertions = true ∨ Fintype.card Tid < 2 ^ w)
    {es : List (TeardownEvent Tid)} :
    (teardown assertions futureThreadCacheDestructor).Along (fun _ _ s' => WiredRight s')
        (TeardownState.start Tid w) es ↔
      (teardown assertions futureThreadCacheDestructor).Along (fun _ e _ => e.isExit = false)
        (TeardownState.start Tid w) es := by
  constructor
  · refine Machine.along_of_invariant (I := fun _ => True) (fun _ _ _ _ _ _ => trivial)
      (fun s e s' _ hwired hstep => ?_) trivial
    cases e with
    | exit t => exact absurd (destructor_of_exit hstep) (hwired.threadHalf t)
    | acquire | use | store | destructor | finalize | finalizer => rfl
  · have hkeep : ∀ (s : TeardownState Tid w) e s', TeardownLaw s → e.isExit = false →
        (teardown assertions futureThreadCacheDestructor).step s e = some s' → TeardownLaw s' :=
      fun s e s' h hne hstep => h.step hroom (fun t he => by simp [he, TeardownEvent.isExit] at hne)
        hstep
    exact Machine.along_of_invariant hkeep
      (fun s e s' h hne hstep => (hkeep s e s' h hne hstep).wiredRight) .start

/-- A destructor wired to the thread half is always wired right. -/
theorem wiredRight_of_threadHalf (hroom : assertions = true ∨ Fintype.card Tid < 2 ^ w)
    {es : List (TeardownEvent Tid)}
    (hrun : (teardown assertions .thread).run (TeardownState.start Tid w) es = some s) :
    WiredRight s :=
  TeardownLaw.wiredRight (Machine.invariant_of_run (I := TeardownLaw)
    (fun _ _ _ h hstep => h.step hroom (fun _ _ => rfl) hstep) .start hrun)

/-- A thread uses the context, and `udipe_finalize` ends before the thread exits. -/
def finalizeWithoutExit : List (TeardownEvent (Fin 1)) :=
  .acquire 0 :: List.replicate 6 (.use 0) ++ .finalize :: List.replicate 11 (.finalizer true)

theorem thread_exit_wiring_iff_finalizeWithoutExit :
    (teardown true futureThreadCacheDestructor).Along (fun _ _ s' => WiredRight s')
      (TeardownState.start (Fin 1) 63) finalizeWithoutExit :=
  (thread_exit_wiring_iff (.inl rfl)).mpr (by decide +kernel)

/-- A thread uses the context and exits. -/
def exitAfterUse : List (TeardownEvent (Fin 1)) :=
  .acquire 0 :: List.replicate 6 (.use 0) ++ [.exit 0, .destructor 0]

/-- The destructor ends the process at its first log, with the slot still to be released. -/
theorem exitAfterUse_fails :
    ∃ s : TeardownState (Fin 1) 63,
      (teardown true futureThreadCacheDestructor).run (TeardownState.start (Fin 1) 63)
        exitAfterUse = some s ∧
      s.destructor 0 = .contextHalf ∧ s.aborted = some .noLogger ∧
        (s.tss.threads 0).pc = .releaseGet ∧ ¬ WiredRight s := by
  have hend : ((teardown true futureThreadCacheDestructor).run (TeardownState.start (Fin 1) 63)
      exitAfterUse).map (fun s => (s.destructor 0, s.aborted, (s.tss.threads 0).pc)) =
        some (.contextHalf, some .noLogger, .releaseGet) := by decide +kernel
  obtain ⟨s, hrun, hs⟩ := Option.map_eq_some_iff.mp hend
  simp only [Prod.mk.injEq] at hs
  obtain ⟨hd, hab, hpc⟩ := hs
  exact ⟨s, hrun, hd, hab, hpc, fun hwired => hwired.threadHalf 0 hd⟩

end Udipe

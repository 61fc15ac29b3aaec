import Udipe.Context.TeardownLaw

/-!
# Runs of the teardown

The law of the teardown holds after every run in which the destructors perform the thread half: each
cache is emptied and freed once, nobody touches the cache or the context after it was freed, and nobody
sleeps when there is nothing to wait for.
-/

namespace Udipe

open Checked Function Threads

variable {Tid : Type} [DecidableEq Tid] [Fintype Tid] {w : ℕ} {s s' : TeardownState Tid w} {t : Tid}
  {assertions success : Bool}

/-! ## The life of a thread before its exit -/

/-- A thread starts to acquire the slot. -/
theorem TeardownLaw.acquire (h : TeardownLaw s)
    (hroom : assertions = true ∨ Fintype.card Tid < 2 ^ w) (hopen : s.finalizer = .outside)
    {tss : TssState Tid w} (hstep : (refcountedTss assertions).step s.tss (.acquire t) = some tss) :
    TeardownLaw { s with tss := tss } := by
  have htss : TssLaw tss := TssLaw.step hroom _ _ _ h.tss hstep
  obtain ⟨hpc, -, rfl⟩ := refcountedTss_acquire hstep
  have hwon := TssState.won_update s.tss s.tss.tss t { s.tss.threads t with pc := .acquireCheck } s.tss.aborted
  refine h.slot htss (fun u => ?_) (fun hne => absurd hopen hne) rfl ?_
  · rcases eq_or_ne u t with rfl | hut
    · simp [TssThread.phase, hpc]
    · simp [update_of_ne hut]
  · have hzero : (s.tss.threads t).won = 0 := by simp [TssThread.won, hpc]
    have hzero' : ({ s.tss.threads t with pc := .acquireCheck } : TssThread).won = 0 := rfl
    omega

omit [DecidableEq Tid] in
/-- A thread that acquires has no destructor running. -/
theorem TeardownLaw.notRun (h : TeardownLaw s)
    (hphase : (s.tss.threads t).phase = .unregistered ∨ (s.tss.threads t).phase = .using) :
    s.destructor t = .notRun := by
  have hfits := h.fits t
  cases hd : s.destructor t with
  | notRun => rfl
  | contextHalf =>
      rw [hd] at hfits
      exact hfits.elim
  | threadHalf pc =>
      rw [hd, DestructorPc.Fits] at hfits
      cases hst : pc.stage <;> rw [hst, ThreadHalfStage.Fits] at hfits
      · simp [hfits] at hphase
      · simp [hfits] at hphase
      · obtain ⟨result, hfits⟩ := hfits
        simp [hfits] at hphase

/-- A thread makes a step in `refcounted_tss_acquire`. Its cache is made and registered in the
constructor. -/
theorem TeardownLaw.use (h : TeardownLaw s)
    (hroom : assertions = true ∨ Fintype.card Tid < 2 ^ w)
    (hacq : (s.tss.threads t).pc.acquiring = true) {tss : TssState Tid w}
    (hstep : (refcountedTss assertions).step s.tss (.thread t) = some tss) :
    TeardownLaw (if (s.tss.threads t).pc = .createConstruct then
      { s with
        tss := tss
        caches := update s.caches t futureThreadCacheInitialize
        threadCaches := s.threadCaches ++ [t] }
      else { s with tss := tss }) := by
  have htss : TssLaw tss := TssLaw.step hroom _ _ _ h.tss hstep
  have hopen : s.finalizer = .outside := by
    by_contra hne
    simp [h.quiet hne t] at hacq
  have hquiet : ∀ pc : TssState Tid w, s.finalizer ≠ .outside →
      ∀ u, (pc.threads u).pc.acquiring = false := fun _ hne => absurd hopen hne
  have hwon0 : (s.tss.threads t).won = 0 := by
    cases hpc : (s.tss.threads t).pc <;> simp [hpc, TssPc.acquiring, TssThread.won] at hacq ⊢
  have hnot := h.notRun (TssThread.acquiring_phase hacq)
  obtain ⟨slot, th, hok, rfl⟩ | ⟨f, hfail, rfl⟩ := refcountedTss_thread hstep
  · have hphase := tssThreadStep_phase_acquire hacq (h.tss.consistent t) hok
    have hcount := TssState.won_update s.tss slot t th s.tss.aborted
    have hwon : th.won = 0 := by
      have hlive : th.phase = .unregistered ∨ th.phase = .using := by
        rw [hphase]
        split
        · exact .inr rfl
        · exact TssThread.acquiring_phase hacq
      obtain ⟨pc, slot⟩ := th
      cases pc <;> simp [TssThread.phase, TssThread.won] at hlive ⊢
    split
    case isTrue hpc =>
      rw [if_pos hpc] at hphase
      have hout : t ∉ s.threadCaches := fun hin => (h.registered t).mp hin (by
        simp [TssThread.phase, hpc])
      exact
        { h with
          tss := htss
          cache := fun u => by
            rcases eq_or_ne u t with rfl | hut
            · simpa [hnot, h.unvisited u hout, DestructorPc.threadPc] using CacheLaw.start
            · simpa [update_of_ne hut] using h.cache u
          fits := fun u => by
            rcases eq_or_ne u t with rfl | hut
            · simp [hnot, DestructorPc.Fits, hphase]
            · simpa [update_of_ne hut] using h.fits u
          registered := fun u => by
            rcases eq_or_ne u t with rfl | hut
            · simp [hphase]
            · simpa [update_of_ne hut, hut] using h.registered u
          nodup := by
            rw [List.nodup_append]
            refine ⟨h.nodup, List.nodup_singleton t, fun a ha b hb => ?_⟩
            rintro rfl
            rw [List.mem_singleton] at hb
            exact hout (hb ▸ ha)
          unvisited := fun u hu => h.unvisited u fun hin => hu (List.mem_append_left _ hin)
          visits := fun j u hj => by
            have hdying : s.contextHalf u = .dying := by
              by_cases hin : u ∈ s.threadCaches
              · obtain ⟨k, hk, rfl⟩ := List.getElem_of_mem hin
                have hold := h.visits k _ (List.getElem?_eq_getElem hk)
                rw [hopen] at hold
                exact hold
              · exact h.unvisited u hin
            simp only [hopen, FinalizerPc.Visits]
            exact hdying
          quiet := hquiet _
          freed := by
            have hfreed := h.freed
            dsimp only
            omega }
    case isFalse hpc =>
      rw [if_neg hpc] at hphase
      refine h.slot htss (fun u => ?_) (hquiet _) rfl (by omega)
      rcases eq_or_ne u t with rfl | hut
      · simpa using hphase
      · simp [update_of_ne hut]
  · split
    case isTrue hpc => simp [tssThreadStep, hpc, Pure.pure, Except.pure] at hfail
    case isFalse => exact h.slot htss (fun _ => rfl) (hquiet _) rfl rfl

/-- A future comes back to the cache of a thread. -/
theorem TeardownLaw.store (h : TeardownLaw s) (future : ℕ) :
    TeardownLaw { s with
      caches := update s.caches t
        { s.caches t with futures := future :: (s.caches t).futures } } :=
  { h with
    cache := forall_update
      (P := fun u (cache : ThreadCache) =>
        CacheLaw cache (s.destructor u).threadPc (s.contextHalf u))
      { h.cache t with } fun u _ => h.cache u }

/-- A thread exits, and its destructor performs the thread half. -/
theorem TeardownLaw.exit (h : TeardownLaw s)
    (hroom : assertions = true ∨ Fintype.card Tid < 2 ^ w) {tss : TssState Tid w}
    (hstep : (refcountedTss assertions).step s.tss (.exit t) = some tss) :
    TeardownLaw { s with tss := tss, destructor := update s.destructor t Half.thread.destructorPc } := by
  have htss : TssLaw tss := TssLaw.step hroom _ _ _ h.tss hstep
  obtain ⟨hth, rfl⟩ := refcountedTss_exit hstep
  have hphase : (s.tss.threads t).phase = .using := by rw [hth]; rfl
  have hnot := h.notRun (.inr hphase)
  have hcache := h.cache t
  have hmutex := h.mutex t
  have hcount := TssState.won_update s.tss s.tss.tss t { pc := .releaseGet, slot := false } s.tss.aborted
  have hwon : (s.tss.threads t).won = 0 := by rw [hth]; rfl
  have hwon' : ({ pc := .releaseGet, slot := false } : TssThread).won = 0 := rfl
  rw [hnot] at hcache hmutex
  exact
    { h with
      tss := htss
      cache := forall_update
        (P := fun u (pc : DestructorPc) => CacheLaw (s.caches u) pc.threadPc (s.contextHalf u))
        hcache fun u _ => h.cache u
      fits := fun u => by
        rcases eq_or_ne u t with rfl | hut
        · simp only [update_self]
          exact rfl
        · simpa [update_of_ne hut] using h.fits u
      registered := fun u => by
        rcases eq_or_ne u t with rfl | hut
        · simp [(h.registered u).mpr (by simp [hphase]), TssThread.phase]
        · simpa [update_of_ne hut] using h.registered u
      quiet := fun hne => forall_update
        (P := fun (_ : Tid) (th : TssThread) => th.pc.acquiring = false) rfl
        fun u _ => h.quiet hne u
      mutex := forall_update
        (P := fun (u : Tid) (pc : DestructorPc) => s.mutex = some u ↔ pc.holdsLock = true)
        hmutex fun u _ => h.mutex u
      freed := by
        have hfreed := h.freed_move t Half.thread.destructorPc (by rw [hnot]; rfl)
        dsimp only
        omega }

/-! ## The steps of `udipe_finalize` -/

omit [DecidableEq Tid] in
/-- `udipe_finalize` starts. -/
theorem TeardownLaw.finalize (h : TeardownLaw s) (hopen : s.finalizer = .outside)
    (hquiet : ∀ t, (s.tss.threads t).pc.acquiring = false) :
    TeardownLaw { s with finalizer := .caches 0 } := by
  have hdiscard := h.discard
  have hlogger := h.logger
  have hfreed := h.freed
  rw [hopen] at hdiscard hlogger hfreed
  exact
    { h with
      visits := fun j t hj => by
        have hold := h.visits j t hj
        rw [hopen] at hold
        exact ⟨fun hlt => absurd hlt (Nat.not_lt_zero j), fun _ => hold⟩
      quiet := fun _ => hquiet
      logger := hlogger
      discard := hdiscard
      freed := hfreed }

omit [DecidableEq Tid] in
/-- The loop over the caches goes on, or ends. -/
theorem TeardownLaw.nextCache (h : TeardownLaw s) {i : ℕ} {f : FinalizerPc}
    (hat : s.finalizer = .caches i)
    (hnext : (s.threadCaches[i]? = none ∧ f = .globals) ∨
      ∃ t, s.threadCaches[i]? = some t ∧ s.contextHalf t = .finished ∧ f = .caches (i + 1)) :
    TeardownLaw { s with finalizer := f } := by
  have hdiscard := h.discard
  have hlogger := h.logger
  have hfreed := h.freed
  have hquiet := h.quiet (by simp [hat])
  rw [hat] at hdiscard hlogger hfreed
  obtain ⟨hnone, rfl⟩ | ⟨t, hi, hdone, rfl⟩ := hnext
  · exact
      { h with
        visits := fun j u hj => by
          have hold := h.visits j u hj
          rw [hat] at hold
          have hjlt := (List.getElem?_eq_some_iff.mp hj).1
          exact hold.1 (lt_of_lt_of_le hjlt (List.getElem?_eq_none_iff.mp hnone))
        quiet := fun _ => hquiet
        logger := hlogger
        discard := hdiscard
        freed := hfreed }
  · exact
      { h with
        visits := fun j u hj => by
          have hold := h.visits j u hj
          rw [hat] at hold
          refine ⟨fun hlt => ?_, fun hlt => hold.2 (by omega)⟩
          rcases eq_or_ne j i with rfl | hji
          · obtain rfl : t = u := by simpa [hi] using hj
            exact hdone
          · exact hold.1 (by omega)
        quiet := fun _ => hquiet
        logger := hlogger
        discard := hdiscard
        freed := hfreed }

/-- A step of the context half on the cache whose turn it is. -/
theorem TeardownLaw.contextHalfStep (h : TeardownLaw s) {i : ℕ} (hat : s.finalizer = .caches i)
    (hi : s.threadCaches[i]? = some t) {cache : ThreadCache} {pc : ContextHalfPc}
    (hstep : Udipe.contextHalfStep assertions success (s.caches t) (s.contextHalf t)
      = .ok (cache, pc)) :
    TeardownLaw { s with
      caches := update s.caches t cache, contextHalf := update s.contextHalf t pc } := by
  have hcache := (h.cache t).contextStep hstep
  have hin : t ∈ s.threadCaches := List.mem_of_getElem? hi
  exact
    { h with
      cache := fun u => by
        rcases eq_or_ne u t with rfl | hut
        · simpa using hcache
        · simpa [update_of_ne hut] using h.cache u
      unvisited := fun u hu => by
        have hut : u ≠ t := by
          rintro rfl
          exact hu hin
        simpa [update_of_ne hut] using h.unvisited u hu
      visits := fun j u hj => by
        have hold := h.visits j u hj
        rcases eq_or_ne u t with rfl | hut
        · -- a cache is registered only once
          have hji : j = i := by
            obtain ⟨hjlt, hju⟩ := List.getElem?_eq_some_iff.mp hj
            obtain ⟨hilt, hiu⟩ := List.getElem?_eq_some_iff.mp hi
            exact (List.Nodup.getElem_inj_iff h.nodup).mp (hju.trans hiu.symm)
          subst hji
          simp only [hat]
          exact ⟨fun hlt => absurd hlt (lt_irrefl j), fun hlt => absurd hlt (lt_irrefl j)⟩
        · simpa [update_of_ne hut] using hold }

omit [DecidableEq Tid] in
/-- The global cache, then the logger, are finalized. -/
theorem TeardownLaw.globals (h : TeardownLaw s) (hat : s.finalizer = .globals) :
    TeardownLaw { s with finalizer := .logger, globalFutures := [] } := by
  have hdiscard := h.discard
  have hlogger := h.logger
  have hfreed := h.freed
  have hquiet := h.quiet (by simp [hat])
  have hvisits := h.visits
  rw [hat] at hdiscard hlogger hfreed hvisits
  exact
    { h with
      visits := hvisits
      quiet := fun _ => hquiet
      logger := hlogger
      discard := hdiscard
      freed := hfreed }

omit [DecidableEq Tid] in
theorem TeardownLaw.finalizeLogger (h : TeardownLaw s) (hat : s.finalizer = .logger) :
    TeardownLaw { s with finalizer := .discard, loggerAlive := false } := by
  have hdiscard := h.discard
  have hfreed := h.freed
  have hquiet := h.quiet (by simp [hat])
  have hvisits := h.visits
  rw [hat] at hdiscard hfreed hvisits
  exact
    { h with
      visits := hvisits
      quiet := fun _ => hquiet
      logger := rfl
      discard := fun result hr => by
        rw [FinalizerPc.FitsDiscard] at hdiscard
        simp [hdiscard] at hr
      freed := hfreed }

omit [DecidableEq Tid] in
/-- `udipe_finalize` frees the context. -/
theorem TeardownLaw.finalizerFrees (h : TeardownLaw s) (hat : s.finalizer = .freeContext) :
    TeardownLaw { s with finalizer := .finished, contextFreed := s.contextFreed + 1 } := by
  have hdiscard := h.discard
  have hlogger := h.logger
  have hfreed := h.freed
  have hquiet := h.quiet (by simp [hat])
  have hvisits := h.visits
  rw [hat] at hdiscard hlogger hfreed hvisits
  exact
    { h with
      visits := hvisits
      quiet := fun _ => hquiet
      logger := hlogger
      discard := ⟨true, hdiscard⟩
      freed := by
        simp only [FinalizerPc.freeing] at hfreed ⊢
        omega }

/-- `udipe_finalize` makes a step in `refcounted_tss_discard`. -/
theorem TeardownLaw.discardStep (h : TeardownLaw s)
    (hroom : assertions = true ∨ Fintype.card Tid < 2 ^ w) (hat : s.finalizer = .discard)
    {e : TssEvent Tid} (he : e = .discard ∨ e = .discarder) {tss : TssState Tid w}
    (hstep : (refcountedTss assertions).step s.tss e = some tss) :
    TeardownLaw { s with finalizer := afterTssDiscard tss.discard, tss := tss } := by
  have htss : TssLaw tss := TssLaw.step hroom _ _ _ h.tss hstep
  have hthreads := refcountedTss_discard he hstep
  have hdiscard := h.discard
  have hlogger := h.logger
  have hfreed := h.freed
  have hquiet := h.quiet (by simp [hat])
  have hvisits := h.visits
  rw [hat] at hdiscard hlogger hfreed hvisits
  have hold : s.tss.discard.won = 0 := by
    cases hd : s.tss.discard with
    | returned result => exact absurd hd (hdiscard result)
    | outside | mark | delete => rfl
  have hafter : (afterTssDiscard tss.discard).FitsDiscard tss.discard ∧
      (afterTssDiscard tss.discard).freeing = tss.discard.won ∧
        (afterTssDiscard tss.discard).loggerAlive = false ∧
          ∀ j pc, FinalizerPc.Visits j pc .discard →
            FinalizerPc.Visits j pc (afterTssDiscard tss.discard) := by
    cases tss.discard with
    | outside | mark | delete => exact ⟨fun _ hr => (nomatch hr), rfl, rfl, fun _ _ hv => hv⟩
    | returned result =>
        cases result
        · exact ⟨⟨false, rfl⟩, rfl, rfl, fun _ _ hv => hv⟩
        · exact ⟨rfl, rfl, rfl, fun _ _ hv => hv⟩
  obtain ⟨hfits, hfreeing, halive, hvisits'⟩ := hafter
  exact
    { h with
      tss := htss
      fits := fun u => by rw [hthreads]; exact h.fits u
      registered := fun u => by rw [hthreads]; exact h.registered u
      visits := fun j u hj => hvisits' _ _ (hvisits j u hj)
      quiet := fun _ => by rw [hthreads]; exact hquiet
      logger := hlogger.trans halive.symm
      discard := hfits
      freed := by
        simp only [TssState.won, hthreads, hfreeing] at hfreed ⊢
        simp only [FinalizerPc.freeing] at hfreed
        omega }

/-! ## Every step -/

/-- A step of the thread half keeps the law. -/
theorem TeardownLaw.threadHalfSystemStep (h : TeardownLaw s)
    (hroom : assertions = true ∨ Fintype.card Tid < 2 ^ w) {pc : ThreadHalfPc}
    (hpc : s.destructor t = .threadHalf pc)
    (hstep : Udipe.threadHalfSystemStep assertions s t pc = some s') : TeardownLaw s' := by
  have hcache := h.cache t
  rw [hpc] at hcache
  rcases hok : threadHalfStep assertions (s.caches t) pc with f | ⟨cache, pc'⟩
  · exact absurd hok fun hfail => hcache.threadStep_failsWith f hfail
  obtain ⟨hstage, hlock⟩ := threadHalfStep_stage hok
  have hlocal := h.threadHalf hpc (hcache.threadStep hok) hstage hlock
  cases pc with
  | lock =>
      simp only [Udipe.threadHalfSystemStep, Option.ite_none_right_eq_some,
        Option.some.injEq] at hstep
      obtain ⟨hfree, rfl⟩ := hstep
      exact h.lock hpc hfree
  | spill =>
      obtain rfl := Option.some.inj hstep
      have hspill := h.threadHalf hpc hcache.thread_spill rfl rfl
      exact { hspill with }
  | unlock =>
      obtain rfl := Option.some.inj hstep
      exact h.unlock hpc
  | wake =>
      obtain rfl := Option.some.inj hstep
      exact h.wake hpc
  | release =>
      simp only [Udipe.threadHalfSystemStep, Option.map_eq_some_iff] at hstep
      obtain ⟨tss, hstep, rfl⟩ := hstep
      exact h.release hroom hpc hstep
  | freeContext =>
      obtain rfl := Option.some.inj hstep
      exact h.freeContext hpc
  | finished => cases hstep
  | dying | events | emptied | clear | done | freeCache =>
      simp only [Udipe.threadHalfSystemStep, hok] at hstep
      obtain rfl := Option.some.inj hstep
      exact hlocal

/-- A step of `udipe_finalize` keeps the law. -/
theorem TeardownLaw.finalizerStep (h : TeardownLaw s)
    (hroom : assertions = true ∨ Fintype.card Tid < 2 ^ w)
    (hstep : Udipe.finalizerStep assertions success s s.finalizer = some s') : TeardownLaw s' := by
  cases hat : s.finalizer with
  | outside | finished =>
      rw [hat] at hstep
      cases hstep
  | caches i =>
      rw [hat, Udipe.finalizerStep] at hstep
      split at hstep
      case h_1 hnone =>
        obtain rfl := Option.some.inj hstep
        exact h.nextCache hat (.inl ⟨hnone, rfl⟩)
      case h_2 t hi =>
        split at hstep
        case isTrue hdone =>
          obtain rfl := Option.some.inj hstep
          exact h.nextCache hat (.inr ⟨t, hi, hdone, rfl⟩)
        case isFalse =>
          split at hstep
          case h_1 cache pc hok =>
            obtain rfl := Option.some.inj hstep
            exact h.contextHalfStep hat hi hok
          case h_2 f hfail =>
            exact absurd hfail fun hfail => (h.cache t).contextStep_failsWith f hfail
  | globals =>
      rw [hat] at hstep
      simp only [Udipe.finalizerStep, Option.ite_none_right_eq_some, Option.some.injEq] at hstep
      obtain ⟨-, rfl⟩ := hstep
      exact h.globals hat
  | logger =>
      rw [hat] at hstep
      obtain rfl := Option.some.inj hstep
      exact h.finalizeLogger hat
  | discard =>
      rw [hat] at hstep
      simp only [Udipe.finalizerStep, Option.map_eq_some_iff] at hstep
      obtain ⟨tss, hstep, rfl⟩ := hstep
      exact h.discardStep hroom hat (by split <;> simp) hstep
  | freeContext =>
      rw [hat] at hstep
      obtain rfl := Option.some.inj hstep
      exact h.finalizerFrees hat

/-- Every step keeps the law, if an exit runs the thread half. -/
theorem TeardownLaw.step {destructor : Half} {e : TeardownEvent Tid} (h : TeardownLaw s)
    (hroom : assertions = true ∨ Fintype.card Tid < 2 ^ w)
    (hexit : ∀ t, e = .exit t → destructor = .thread)
    (hstep : (teardown assertions destructor).step s e = some s') : TeardownLaw s' := by
  simp only [teardown, teardownStep] at hstep
  split at hstep
  · cases hstep
  cases e with
  | acquire t =>
      simp only [Option.ite_none_right_eq_some, Option.map_eq_some_iff] at hstep
      obtain ⟨hopen, tss, hstep, rfl⟩ := hstep
      exact h.acquire hroom hopen hstep
  | use t =>
      simp only [Option.ite_none_right_eq_some, Option.map_eq_some_iff] at hstep
      obtain ⟨hacq, tss, hstep, rfl⟩ := hstep
      exact h.use hroom hacq hstep
  | store t future =>
      simp only [Option.ite_none_right_eq_some, Option.some.injEq] at hstep
      obtain ⟨-, rfl⟩ := hstep
      exact h.store future
  | exit t =>
      simp only [Option.map_eq_some_iff] at hstep
      obtain ⟨tss, hstep, rfl⟩ := hstep
      rw [hexit t rfl]
      exact h.exit hroom hstep
  | destructor t =>
      simp only at hstep
      split at hstep
      · cases hstep
      · exact h.threadHalfSystemStep hroom ‹_› hstep
      · have hfits := h.fits t
        rw [‹s.destructor t = _›] at hfits
        exact hfits.elim
  | finalize =>
      simp only [Option.ite_none_right_eq_some, Option.some.injEq] at hstep
      obtain ⟨⟨hopen, hquiet⟩, rfl⟩ := hstep
      exact h.finalize hopen hquiet
  | finalizer success => exact h.finalizerStep hroom hstep

/-! ## Who still needs the slot -/

omit [DecidableEq Tid] in
theorem TssLaw.won_le_one {tss : TssState Tid w} (h : TssLaw tss) : tss.won ≤ 1 := by
  have howner := h.owner
  have hdead : tssDead tss.discard.reachable tss.references ≤ 1 := by
    unfold tssDead
    split <;> simp
  rw [h.winner]
  omega

omit [DecidableEq Tid] in
/-- Nobody was told to free the context while a thread has to release the slot. -/
theorem TssLaw.won_of_releasing {tss : TssState Tid w} (h : TssLaw tss)
    (ht : (tss.threads t).phase = .releasing) : tss.won = 0 := by
  have howner := h.owner
  have href : (tss.threads t).references ≤ tss.references :=
    le_sum TssThread.references tss.threads t
  have hdel : (tss.threads t).deleting ≤ ∑ u, (tss.threads u).deleting :=
    le_sum TssThread.deleting tss.threads t
  have hone : (tss.threads t).references = 1 ∨ (tss.threads t).deleting = 1 := by
    cases hpc : (tss.threads t).pc with
    | releaseGet | releaseSub => exact .inl (by simp [TssThread.references, hpc])
    | releaseDelete => exact .inr (by simp [TssThread.deleting, hpc])
    | outside | acquireCheck | acquireGet =>
        cases hslot : (tss.threads t).slot <;> simp [TssThread.phase, hpc, hslot] at ht
    | createAdd | createConstruct | createGet | createSet | released =>
        simp [TssThread.phase, hpc] at ht
  rw [h.winner]
  simp only [TssState.deleting] at howner
  rw [tssDead] at howner
  split at howner <;> omega

omit [DecidableEq Tid] in
/-- Nobody was told to free the context before the discard is over. -/
theorem TssLaw.won_of_discard {tss : TssState Tid w} (h : TssLaw tss)
    (hd : ∀ result, tss.discard ≠ .returned result) : tss.won = 0 := by
  have howner := h.owner
  have hone : tss.discard.reachable = true ∨ tss.discard.deleting = 1 := by
    cases hpc : tss.discard with
    | outside | mark => exact .inl rfl
    | delete => exact .inr rfl
    | returned result => exact absurd hpc (hd result)
  rw [h.winner]
  simp only [TssState.deleting] at howner
  rw [tssDead] at howner
  obtain hreach | hdel := hone
  · rw [if_neg (by simp [hreach])] at howner
    omega
  · split at howner <;> omega

/-! ## The teardown of a cache -/

/-- What the two halves of the teardown guarantee. -/
structure TeardownSafe (s : TeardownState Tid w) : Prop where
  /-- The contents are emptied and the struct is freed at most once. -/
  atMostOnce : ∀ t, (s.caches t).futuresEmptied ≤ 1 ∧ (s.caches t).eventsEmptied ≤ 1 ∧
    (s.caches t).freed ≤ 1
  /-- The struct is freed, or about to be by the half that set its flag last, once both are done. -/
  last : ∀ t, (s.caches t).freed + (s.destructor t).threadPc.freeing + (s.contextHalf t).freeing
    = if (s.caches t).flags &&& threadDone ≠ 0 ∧ (s.caches t).flags &&& contextDone ≠ 0 then 1 else 0
  /-- When both halves have returned, all this has happened. -/
  complete : ∀ t, s.destructor t = .threadHalf .finished → s.contextHalf t = .finished →
    (s.caches t).futuresEmptied = 1 ∧ (s.caches t).eventsEmptied = 1 ∧ (s.caches t).freed = 1
  /-- A half that has not returned finds the struct. -/
  threadFindsCache : ∀ t pc, s.destructor t = .threadHalf pc → pc ≠ .finished →
    (s.caches t).freed = 0
  contextFindsCache : ∀ t, s.contextHalf t ≠ .finished → (s.caches t).freed = 0
  /-- The thread half finds the context until it has dropped its reference. -/
  threadFindsContext : ∀ t pc, s.destructor t = .threadHalf pc → pc.stage ≠ .released →
    s.contextFreed = 0
  /-- The thread half finds the logger while it empties the cache. -/
  threadFindsLogger : ∀ t pc, s.destructor t = .threadHalf pc → pc.spilling = true →
    s.loggerAlive = true
  /-- `udipe_finalize` finds the context until it returns. -/
  finalizerFindsContext : s.finalizer ≠ .finished → s.contextFreed = 0
  /-- The context is freed once, when everybody has returned. -/
  contextAtMostOnce : s.contextFreed ≤ 1
  contextComplete : s.finalizer = .finished →
    (∀ t ∈ s.threadCaches, s.destructor t = .threadHalf .finished) → s.contextFreed = 1
  /-- No context half sleeps on a cache that is empty, unless the wake call is still to be issued. -/
  awake : ∀ t flags, s.contextHalf t = .blocked flags → (s.caches t).flags &&& emptied ≠ 0 →
    s.destructor t = .threadHalf .wake
  /-- No assertion of the halves fails. -/
  sound : s.aborted = none

omit [DecidableEq Tid] in
theorem TeardownLaw.freed_eq_zero (h : TeardownLaw s)
    (hnone : s.tss.won = 0 ∨ (∃ t, (s.destructor t).freeing = 1) ∨ s.finalizer.freeing = 1) :
    s.contextFreed = 0 := by
  have hfreed := h.freed
  have hle := h.tss.won_le_one
  obtain hwon | ⟨t, ht⟩ | hf := hnone
  · omega
  · have := le_sum DestructorPc.freeing s.destructor t
    omega
  · omega

omit [DecidableEq Tid] in
/-- A cache whose thread half is emptying it keeps `udipe_finalize` in its loop. -/
theorem TeardownLaw.logger_of_spilling (h : TeardownLaw s) {pc : ThreadHalfPc}
    (hpc : s.destructor t = .threadHalf pc) (hspill : pc.spilling = true) :
    s.loggerAlive = true := by
  have hcache := h.cache t
  have hfits := h.fits t
  rw [hpc] at hcache hfits
  have hin : t ∈ s.threadCaches := by
    refine (h.registered t).mpr fun hphase => ?_
    rw [DestructorPc.Fits, hphase] at hfits
    cases hst : pc.stage <;> rw [hst] at hfits <;> simp [ThreadHalfStage.Fits] at hfits
  have hunfinished : s.contextHalf t ≠ .finished := by
    intro hfin
    have hdone := hcache.past (hcache.spilling hspill) (by rw [hfin]; rfl) (by rw [hfin]; rfl)
    cases pc <;> simp [ThreadHalfPc.spilling, ThreadHalfPc.done?, DestructorPc.threadPc]
      at hspill hdone
  obtain ⟨j, hj, rfl⟩ := List.getElem_of_mem hin
  have hvisits := h.visits j _ (List.getElem?_eq_getElem hj)
  rw [h.logger]
  cases hf : s.finalizer with
  | outside | caches | globals | logger => rfl
  | discard | freeContext | finished =>
      rw [hf] at hvisits
      exact absurd hvisits hunfinished

omit [DecidableEq Tid] in
theorem CacheLaw.freed_eq_zero {cache : ThreadCache} {thread : ThreadHalfPc}
    {context : ContextHalfPc} (h : CacheLaw cache thread context)
    (hbusy : thread ≠ .finished ∨ context ≠ .finished) : cache.freed = 0 := by
  have hfreed := h.freed
  obtain ht | hc := hbusy
  · cases thread <;> simp [ThreadHalfPc.freeing, ThreadHalfPc.done?] at hfreed ht
    all_goals
      have hle := Bool.toNat_le context.done?
      omega
  · cases context <;> simp [ContextHalfPc.freeing, ContextHalfPc.done?] at hfreed hc
    all_goals
      have hle := Bool.toNat_le thread.done?
      omega

omit [DecidableEq Tid] in
/-- A thread whose destructor has finished has no part in the context any more. -/
theorem TeardownLaw.done_of_finished (h : TeardownLaw s)
    (hfinished : s.destructor t = .threadHalf .finished) :
    (s.tss.threads t).references = 0 ∧ (s.tss.threads t).deleting = 0 ∧
      (s.destructor t).freeing = 0 := by
  have hfits := h.fits t
  rw [hfinished] at hfits ⊢
  obtain ⟨r, hphase⟩ := hfits
  have hpc : (s.tss.threads t).pc = .released r := by
    cases hpc : (s.tss.threads t).pc with
    | outside | acquireCheck | acquireGet =>
        cases hslot : (s.tss.threads t).slot <;> simp [TssThread.phase, hpc, hslot] at hphase
    | released r' => simpa [TssThread.phase, hpc] using hphase
    | createAdd | createConstruct | createGet | createSet | releaseGet | releaseSub
    | releaseDelete => simp [TssThread.phase, hpc] at hphase
  simp [TssThread.references, TssThread.deleting, hpc, DestructorPc.freeing]

omit [DecidableEq Tid] in
/-- Neither has a thread without a cache, once no thread is in `refcounted_tss_acquire`. -/
theorem TeardownLaw.done_of_unregistered (h : TeardownLaw s) (hin : t ∉ s.threadCaches)
    (hquiet : (s.tss.threads t).pc.acquiring = false) :
    (s.tss.threads t).references = 0 ∧ (s.tss.threads t).deleting = 0 ∧
      (s.destructor t).freeing = 0 := by
  have hphase : (s.tss.threads t).phase = .unregistered := by
    by_contra hne
    exact hin ((h.registered t).mpr hne)
  have hfits := h.fits t
  rw [hphase] at hfits
  have hnot : s.destructor t = .notRun := by
    cases hd : s.destructor t with
    | notRun => rfl
    | contextHalf => rw [hd] at hfits; exact hfits.elim
    | threadHalf pc =>
        rw [hd, DestructorPc.Fits] at hfits
        cases hst : pc.stage <;> rw [hst] at hfits <;> simp [ThreadHalfStage.Fits] at hfits
  rw [hnot]
  cases hpc : (s.tss.threads t).pc <;> cases hslot : (s.tss.threads t).slot <;>
    simp [TssThread.phase, TssThread.references, TssThread.deleting, TssPc.acquiring, hpc,
      hslot, DestructorPc.freeing] at hphase hquiet ⊢

omit [DecidableEq Tid] in
/-- The context is freed when everybody has returned. -/
theorem TeardownLaw.contextFreed_eq_one (h : TeardownLaw s) (hf : s.finalizer = .finished)
    (hall : ∀ t ∈ s.threadCaches, s.destructor t = .threadHalf .finished) : s.contextFreed = 1 := by
  have hdiscard := h.discard
  have hfreed := h.freed
  rw [hf] at hdiscard hfreed
  obtain ⟨result, hdiscard⟩ := hdiscard
  have hquiet := h.quiet (by simp [hf])
  have hthreads : ∀ t, (s.tss.threads t).references = 0 ∧ (s.tss.threads t).deleting = 0 ∧
      (s.destructor t).freeing = 0 := by
    intro t
    by_cases hin : t ∈ s.threadCaches
    · exact h.done_of_finished (hall t hin)
    · exact h.done_of_unregistered hin (by simpa using hquiet t)
  have hrefs : s.tss.references = 0 :=
    (sum_eq_zero TssThread.references s.tss.threads).mpr fun t => (hthreads t).1
  have hdel : ∑ t, (s.tss.threads t).deleting = 0 :=
    (sum_eq_zero TssThread.deleting s.tss.threads).mpr fun t => (hthreads t).2.1
  have hfree : ∑ t, (s.destructor t).freeing = 0 :=
    (sum_eq_zero DestructorPc.freeing s.destructor).mpr fun t => (hthreads t).2.2
  -- the slot is dead, so one party was told that it was the last one, and it has freed the context
  have howner := h.tss.owner
  rw [TssState.deleting, hdel, hdiscard, hrefs] at howner
  have hwon := h.tss.winner
  have hone : tssDead (TssDiscardPc.returned result).reachable 0 = 1 := rfl
  have hzero : (TssDiscardPc.returned result).deleting = 0 := rfl
  have hzero' : FinalizerPc.finished.freeing = 0 := rfl
  omega

omit [DecidableEq Tid] in
theorem TeardownLaw.safe (h : TeardownLaw s) : TeardownSafe s where
  atMostOnce t := by
    have hcache := h.cache t
    have hfutures := hcache.futures
    have hevents := hcache.events
    have hfreed := hcache.freed
    have h1 := Bool.toNat_le (byEmptier (s.caches t).emptier (s.destructor t).threadPc.futuresDone
      (s.contextHalf t).futuresDone)
    have h2 := Bool.toNat_le (byEmptier (s.caches t).emptier (s.destructor t).threadPc.eventsDone
      (s.contextHalf t).eventsDone)
    have h3 := Bool.toNat_le ((s.destructor t).threadPc.done? && (s.contextHalf t).done?)
    exact ⟨by omega, by omega, by omega⟩
  last t := by
    have hcache := h.cache t
    rw [hcache.freed]
    simp only [ne_eq, hcache.threadDone_iff, hcache.contextDone_iff, Bool.not_eq_false]
    cases (s.destructor t).threadPc.done? <;> cases (s.contextHalf t).done? <;> rfl
  complete t ht hc := by
    have hcache := h.cache t
    rw [ht, hc] at hcache
    have hfutures := hcache.futures
    have hevents := hcache.events
    have hfreed := hcache.freed
    obtain ⟨-, hs, -⟩ | ⟨he, -⟩ | ⟨he, -⟩ := hcache.first
    · cases hs
    all_goals
      rw [he] at hfutures hevents
      exact ⟨hfutures, hevents, hfreed⟩
  threadFindsCache t pc hpc hne := by
    have hcache := h.cache t
    rw [hpc] at hcache
    exact hcache.freed_eq_zero (.inl hne)
  contextFindsCache t hne := (h.cache t).freed_eq_zero (.inr hne)
  threadFindsContext t pc hpc hne := by
    have hfits := h.fits t
    rw [hpc, DestructorPc.Fits] at hfits
    cases hst : pc.stage with
    | referencing =>
        rw [hst] at hfits
        exact h.freed_eq_zero (.inl (h.tss.won_of_releasing hfits))
    | freeing =>
        refine h.freed_eq_zero (.inr (.inl ⟨t, ?_⟩))
        rw [hpc]
        cases pc <;> simp [ThreadHalfPc.stage, DestructorPc.freeing] at hst ⊢
    | released => exact absurd hst hne
  threadFindsLogger t pc hpc hspill := h.logger_of_spilling hpc hspill
  finalizerFindsContext hne := by
    have hdiscard := h.discard
    cases hf : s.finalizer with
    | finished => exact absurd hf hne
    | freeContext => exact h.freed_eq_zero (.inr (.inr (by rw [hf]; rfl)))
    | discard =>
        rw [hf] at hdiscard
        exact h.freed_eq_zero (.inl (h.tss.won_of_discard hdiscard))
    | outside | caches | globals | logger =>
        rw [hf, FinalizerPc.FitsDiscard] at hdiscard
        exact h.freed_eq_zero (.inl (h.tss.won_of_discard fun result hr => by simp [hdiscard] at hr))
  contextAtMostOnce := by
    have hfreed := h.freed
    have hle := h.tss.won_le_one
    omega
  contextComplete hf hall := h.contextFreed_eq_one hf hall
  awake t flags hb hem := by
    have hcache := h.cache t
    have hempty := mt hcache.emptied_iff.mpr hem
    rw [hcache.waiting (by rw [hb]; rfl)] at hempty
    have hwake := hcache.asleep flags hb (by simpa [byEmptier] using hempty)
    cases hd : s.destructor t with
    | notRun | contextHalf =>
        rw [hd] at hwake
        cases hwake
    | threadHalf pc =>
        rw [hd] at hwake
        rw [show pc = .wake from hwake]
  sound := h.sound

/-- For every number of threads and every order of their steps: if the destructors perform the thread
half, the two halves of each teardown keep their guarantees. -/
theorem thread_cache_teardown_law (hroom : assertions = true ∨ Fintype.card Tid < 2 ^ w)
    {es : List (TeardownEvent Tid)}
    (hrun : (teardown assertions .thread).run (TeardownState.start Tid w) es = some s) :
    TeardownSafe s :=
  TeardownLaw.safe (Machine.invariant_of_run (I := TeardownLaw)
    (fun _ _ _ h hstep => h.step hroom (fun _ _ => rfl) hstep) .start hrun)

/-- A thread uses the context and exits; `udipe_finalize` starts meanwhile and waits for it. -/
def exitDuringFinalize : List (TeardownEvent (Fin 1)) :=
  .acquire 0 :: List.replicate 6 (.use 0) ++
    [.store 0 42, .exit 0, .destructor 0, .finalize] ++
    List.replicate 4 (.finalizer true) ++ List.replicate 10 (.destructor 0) ++
    List.replicate 11 (.finalizer true)

/-- The sleeping context half is woken, frees the cache, and `udipe_finalize` frees the context. -/
theorem thread_cache_teardown_law_exitDuringFinalize :
    ∃ s : TeardownState (Fin 1) 63,
      (teardown true .thread).run (TeardownState.start (Fin 1) 63) exitDuringFinalize = some s ∧
        ((s.caches 0).futuresEmptied = 1 ∧ (s.caches 0).eventsEmptied = 1 ∧ (s.caches 0).freed = 1) ∧
        s.contextFreed = 1 := by
  have hend : ((teardown true .thread).run (TeardownState.start (Fin 1) 63) exitDuringFinalize).map
      (fun s => (s.destructor 0, s.contextHalf 0, s.finalizer)) =
        some (.threadHalf .finished, .finished, .finished) := by decide +kernel
  obtain ⟨s, hrun, hs⟩ := Option.map_eq_some_iff.mp hend
  simp only [Prod.mk.injEq] at hs
  obtain ⟨ht, hc, hf⟩ := hs
  have hsafe := thread_cache_teardown_law (.inl rfl) hrun
  refine ⟨s, hrun, hsafe.complete 0 ht hc, hsafe.contextComplete hf fun t _ => ?_⟩
  rwa [Subsingleton.elim t 0]

end Udipe

import Udipe.Context.CacheLaw
import Udipe.Context.Teardown

/-!
# The teardown of a context

The law of a context with the destructors of its threads and `udipe_finalize`: the slot keeps its law,
each cache keeps its own, and the three fit together. It is kept by every step as long as the
destructors perform the thread half.
-/

namespace Udipe

open Checked Function Threads

/-! ## The steps of the slot -/

section

variable {Tid : Type} [DecidableEq Tid] [Fintype Tid] {w : ℕ} {assertions : Bool}
  {s s' : TssState Tid w} {t : Tid}

theorem refcountedTss_acquire (h : (refcountedTss assertions).step s (.acquire t) = some s') :
    (s.threads t).pc = .outside ∧ s.discard = .outside ∧
      s' = { s with threads := update s.threads t { s.threads t with pc := .acquireCheck } } := by
  simp only [refcountedTss, tssStep] at h
  split at h
  · cases h
  · simp only [Option.ite_none_right_eq_some, Option.some.injEq] at h
    exact ⟨h.1.1, h.1.2, h.2.symm⟩

theorem refcountedTss_exit (h : (refcountedTss assertions).step s (.exit t) = some s') :
    s.threads t = { pc := .outside, slot := true } ∧
      s' = { s with threads := update s.threads t { pc := .releaseGet, slot := false } } := by
  simp only [refcountedTss, tssStep] at h
  split at h
  · cases h
  · simp only [Option.ite_none_right_eq_some, Option.some.injEq] at h
    refine ⟨?_, h.2.symm⟩
    rw [← h.1.1, ← h.1.2]

theorem refcountedTss_thread (h : (refcountedTss assertions).step s (.thread t) = some s') :
    (∃ tss th, tssThreadStep assertions s.tss (s.threads t) = .ok (tss, th) ∧
      s' = { s with tss := tss, threads := update s.threads t th }) ∨
      ∃ f, tssThreadStep assertions s.tss (s.threads t) = .error f ∧
        s' = { s with aborted := some f } := by
  simp only [refcountedTss, tssStep] at h
  split at h
  · cases h
  · simp only [Option.ite_none_right_eq_some] at h
    obtain ⟨-, h⟩ := h
    split at h
    case h_1 tss th hok => exact .inl ⟨tss, th, hok, (Option.some.inj h).symm⟩
    case h_2 f hfail => exact .inr ⟨f, hfail, (Option.some.inj h).symm⟩

theorem refcountedTss_discard {e : TssEvent Tid} (he : e = .discard ∨ e = .discarder)
    (h : (refcountedTss assertions).step s e = some s') : s'.threads = s.threads := by
  simp only [refcountedTss, tssStep] at h
  split at h
  · cases h
  · obtain rfl | rfl := he
    · simp only [Option.ite_none_right_eq_some, Option.some.injEq] at h
      rw [← h.2]
    · simp only [Option.ite_none_right_eq_some] at h
      obtain ⟨-, h⟩ := h
      split at h <;> rw [← Option.some.inj h]

end

/-- How far a thread is with its slot. -/
inductive SlotPhase where
  | unregistered
  | using
  | releasing
  | released (result : Bool)
deriving DecidableEq

/-- The phase of a thread. It has a thread cache from the end of the constructor on. -/
def TssThread.phase (th : TssThread) : SlotPhase :=
  match th.pc with
  | .outside | .acquireCheck | .acquireGet => if th.slot then .using else .unregistered
  | .createAdd | .createConstruct => .unregistered
  | .createGet | .createSet => .using
  | .releaseGet | .releaseSub | .releaseDelete => .releasing
  | .released result => .released result

section

variable {w : ℕ} {assertions : Bool} {tss tss' : RefcountedTss w} {th th' : TssThread}

/-- A thread that acquires gets its cache in the constructor. -/
theorem tssThreadStep_phase_acquire (hacq : th.pc.acquiring = true) (hcons : th.consistent = true)
    (h : tssThreadStep assertions tss th = .ok (tss', th')) :
    th'.phase = if th.pc = .createConstruct then .using else th.phase := by
  obtain ⟨pc, slot⟩ := th
  cases pc with
  | outside | releaseGet | releaseSub | releaseDelete | released => simp [TssPc.acquiring] at hacq
  | acquireCheck =>
      simp only [tssThreadStep, bind_eq_ok, pure_eq_ok, Prod.mk.injEq] at h
      obtain ⟨-, -, -, rfl⟩ := h
      rfl
  | acquireGet =>
      simp only [tssThreadStep, pure_eq_ok, Prod.mk.injEq] at h
      obtain ⟨-, rfl⟩ := h
      cases slot <;> rfl
  | createAdd =>
      simp only [tssThreadStep, bind_eq_ok, pure_eq_ok, Prod.mk.injEq] at h
      obtain ⟨-, -, -, -, -, rfl⟩ := h
      rfl
  | createConstruct =>
      simp only [tssThreadStep, pure_eq_ok, Prod.mk.injEq] at h
      obtain ⟨-, rfl⟩ := h
      rfl
  | createGet =>
      simp only [tssThreadStep, bind_eq_ok, pure_eq_ok, Prod.mk.injEq] at h
      obtain ⟨-, -, -, rfl⟩ := h
      rfl
  | createSet =>
      simp only [tssThreadStep, pure_eq_ok, Prod.mk.injEq] at h
      obtain ⟨-, rfl⟩ := h
      rfl

/-- A thread that releases goes on releasing, or is told whether it was the last one. -/
theorem tssThreadStep_phase_release (hrel : th.phase = .releasing)
    (h : tssThreadStep assertions tss th = .ok (tss', th')) :
    (th'.phase = .releasing ∧ afterTssRelease th'.pc = .release) ∨
      ∃ result, th'.pc = .released result := by
  obtain ⟨pc, slot⟩ := th
  cases pc with
  | releaseGet =>
      simp only [tssThreadStep, bind_eq_ok, pure_eq_ok, Prod.mk.injEq] at h
      obtain ⟨-, -, -, rfl⟩ := h
      exact .inl ⟨rfl, rfl⟩
  | releaseSub =>
      simp only [tssThreadStep, bind_eq_ok, pure_eq_ok, Prod.mk.injEq] at h
      obtain ⟨-, -, -, rfl⟩ := h
      dsimp only
      split
      · exact .inr ⟨false, rfl⟩
      · exact .inl ⟨rfl, rfl⟩
  | releaseDelete =>
      simp only [tssThreadStep, pure_eq_ok, Prod.mk.injEq] at h
      obtain ⟨-, rfl⟩ := h
      exact .inr ⟨true, rfl⟩
  | outside | acquireCheck | acquireGet => cases slot <;> simp [TssThread.phase] at hrel
  | createAdd | createConstruct | createGet | createSet | released =>
      simp [TssThread.phase] at hrel

theorem TssThread.acquiring_phase (h : th.pc.acquiring = true) :
    th.phase = .unregistered ∨ th.phase = .using := by
  obtain ⟨pc, slot⟩ := th
  cases pc <;> cases slot <;> simp [TssPc.acquiring, phase] at h ⊢

end

/-! ## How the parties fit together -/

/-- The stages of the thread half: with its reference to the slot, with the context to free, and
without the context. -/
inductive ThreadHalfStage where
  | referencing
  | freeing
  | released
deriving DecidableEq

def ThreadHalfPc.stage : ThreadHalfPc → ThreadHalfStage
  | .dying | .lock | .spill | .unlock | .events | .emptied | .wake | .release => .referencing
  | .freeContext => .freeing
  | .clear | .done | .freeCache | .finished => .released

/-- The thread half has locked the mutex of the global cache. -/
def ThreadHalfPc.holdsLock : ThreadHalfPc → Bool
  | .spill | .unlock => true
  | _ => false

/-- The stage of the thread half says what the slot has answered. -/
def ThreadHalfStage.Fits (phase : SlotPhase) : ThreadHalfStage → Prop
  | .referencing => phase = .releasing
  | .freeing => phase = .released true
  | .released => ∃ result, phase = .released result

namespace DestructorPc

/-- The point of the thread half on the cache. -/
def threadPc : DestructorPc → ThreadHalfPc
  | .notRun | .contextHalf => .dying
  | .threadHalf pc => pc

/-- The destructor runs when the thread releases its slot, and performs the thread half. -/
def Fits (phase : SlotPhase) : DestructorPc → Prop
  | .notRun => phase = .unregistered ∨ phase = .using
  | .threadHalf pc => pc.stage.Fits phase
  | .contextHalf => False

def holdsLock : DestructorPc → Bool
  | .threadHalf pc => pc.holdsLock
  | .notRun | .contextHalf => false

/-- The destructor is about to free the context. -/
def freeing : DestructorPc → ℕ
  | .threadHalf .freeContext => 1
  | _ => 0

end DestructorPc

namespace FinalizerPc

/-- The context half on the `j`-th registered cache is before, at or after its turn. -/
def Visits (j : ℕ) (pc : ContextHalfPc) : FinalizerPc → Prop
  | .outside => pc = .dying
  | .caches i => (j < i → pc = .finished) ∧ (i < j → pc = .dying)
  | .globals | .logger | .discard | .freeContext | .finished => pc = .finished

/-- The logger of the context has not been finalized. -/
def loggerAlive : FinalizerPc → Bool
  | .outside | .caches _ | .globals | .logger => true
  | .discard | .freeContext | .finished => false

/-- The slot is discarded at the end, and its answer decides who frees the context. -/
def FitsDiscard (pc : TssDiscardPc) : FinalizerPc → Prop
  | .outside | .caches _ | .globals | .logger => pc = .outside
  | .discard => ∀ result, pc ≠ .returned result
  | .freeContext => pc = .returned true
  | .finished => ∃ result, pc = .returned result

/-- `udipe_finalize` is about to free the context. -/
def freeing : FinalizerPc → ℕ
  | .freeContext => 1
  | _ => 0

theorem Visits.wake {j : ℕ} {pc : ContextHalfPc} : ∀ {f : FinalizerPc}, f.Visits j pc →
    f.Visits j pc.wake
  | .outside, h => by rw [Visits] at h ⊢; rw [h]; rfl
  | .caches _, h => ⟨fun hj => by rw [h.1 hj]; rfl, fun hj => by rw [h.2 hj]; rfl⟩
  | .globals, h | .logger, h | .discard, h | .freeContext, h | .finished, h => by
      rw [Visits] at h ⊢; rw [h]; rfl

end FinalizerPc

section

variable {Tid : Type} [DecidableEq Tid] [Fintype Tid] {w : ℕ}

/-- The law of a context. -/
structure TeardownLaw (s : TeardownState Tid w) : Prop where
  tss : TssLaw s.tss
  cache : ∀ t, CacheLaw (s.caches t) (s.destructor t).threadPc (s.contextHalf t)
  fits : ∀ t, (s.destructor t).Fits (s.tss.threads t).phase
  registered : ∀ t, t ∈ s.threadCaches ↔ (s.tss.threads t).phase ≠ .unregistered
  nodup : s.threadCaches.Nodup
  unvisited : ∀ t, t ∉ s.threadCaches → s.contextHalf t = .dying
  visits : ∀ j t, s.threadCaches[j]? = some t → s.finalizer.Visits j (s.contextHalf t)
  quiet : s.finalizer ≠ .outside → ∀ t, (s.tss.threads t).pc.acquiring = false
  mutex : ∀ t, s.mutex = some t ↔ (s.destructor t).holdsLock = true
  logger : s.loggerAlive = s.finalizer.loggerAlive
  discard : s.finalizer.FitsDiscard s.tss.discard
  freed : s.contextFreed + ∑ t, (s.destructor t).freeing + s.finalizer.freeing = s.tss.won
  sound : s.aborted = none

omit [DecidableEq Tid] in
theorem TeardownLaw.start : TeardownLaw (TeardownState.start Tid w) :=
  { tss := .start
    cache := fun _ => .start
    fits := fun _ => .inl rfl
    registered := fun _ => by simp [TeardownState.start, TssState.start, TssThread.phase]
    nodup := List.nodup_nil
    unvisited := fun _ _ => rfl
    visits := fun _ _ h => by simp [TeardownState.start] at h
    quiet := fun h => absurd rfl h
    mutex := fun _ => by simp [TeardownState.start, DestructorPc.holdsLock]
    logger := rfl
    discard := rfl
    freed := by simp [TeardownState.start, DestructorPc.freeing, FinalizerPc.freeing, TssState.won,
      TssState.start, TssThread.won, TssDiscardPc.won]
    sound := rfl }

variable {s s' : TeardownState Tid w} {t : Tid} {assertions success : Bool}

/-- A thread that is as much about to free the context as before. -/
theorem TeardownLaw.freed_move (h : TeardownLaw s) (t : Tid) (pc : DestructorPc)
    (hsame : pc.freeing = (s.destructor t).freeing) :
    s.contextFreed + ∑ u, (update s.destructor t pc u).freeing + s.finalizer.freeing = s.tss.won := by
  have hsum := sum_update DestructorPc.freeing s.destructor t pc
  have hfreed := h.freed
  omega

/-- A step of the thread half that leaves the context alone. -/
theorem TeardownLaw.threadHalf (h : TeardownLaw s) {pc pc' : ThreadHalfPc} {cache : ThreadCache}
    (hpc : s.destructor t = .threadHalf pc) (hcache : CacheLaw cache pc' (s.contextHalf t))
    (hstage : pc'.stage = pc.stage) (hlock : pc'.holdsLock = pc.holdsLock) :
    TeardownLaw { s.atThreadHalf t pc' with caches := update s.caches t cache } := by
  have hfits := h.fits t
  have hmutex := h.mutex t
  have hfreeing : (DestructorPc.threadHalf pc').freeing = (s.destructor t).freeing := by
    rw [hpc]
    cases pc <;> cases pc' <;> simp [ThreadHalfPc.stage] at hstage <;> rfl
  rw [hpc] at hfits hmutex
  exact
    { h with
      cache := fun u => by
        rcases eq_or_ne u t with rfl | hut
        · simpa [TeardownState.atThreadHalf, DestructorPc.threadPc] using hcache
        · simpa [TeardownState.atThreadHalf, update_of_ne hut] using h.cache u
      fits := forall_update
        (P := fun (u : Tid) (pc : DestructorPc) => pc.Fits (s.tss.threads u).phase)
        (by rw [DestructorPc.Fits, hstage]; exact hfits) fun u _ => h.fits u
      mutex := forall_update
        (P := fun (u : Tid) (pc : DestructorPc) => s.mutex = some u ↔ pc.holdsLock = true)
        (by rw [DestructorPc.holdsLock, hlock]; exact hmutex) fun u _ => h.mutex u
      freed := h.freed_move _ _ hfreeing }

omit [DecidableEq Tid] [Fintype Tid] in
/-- A step of the thread half on its cache keeps the stage. -/
theorem threadHalfStep_stage {cache cache' : ThreadCache} {pc pc' : ThreadHalfPc}
    (h : threadHalfStep assertions cache pc = .ok (cache', pc')) :
    pc'.stage = pc.stage ∧ pc'.holdsLock = pc.holdsLock := by
  cases pc with
  | dying =>
      simp only [threadHalfStep, bind_eq_ok] at h
      obtain ⟨-, -, h⟩ := h
      split at h <;> obtain ⟨-, rfl⟩ := Prod.mk.inj (pure_eq_ok.mp h) <;> exact ⟨rfl, rfl⟩
  | emptied =>
      simp only [threadHalfStep, bind_eq_ok, pure_eq_ok, Prod.mk.injEq] at h
      obtain ⟨-, -, -, rfl⟩ := h
      split <;> exact ⟨rfl, rfl⟩
  | done =>
      simp only [threadHalfStep, bind_eq_ok] at h
      obtain ⟨-, -, h⟩ := h
      split at h
      · simp only [bind_eq_ok] at h
        obtain ⟨-, -, -, -, h⟩ := h
        obtain ⟨-, rfl⟩ := Prod.mk.inj (pure_eq_ok.mp h)
        exact ⟨rfl, rfl⟩
      · obtain ⟨-, rfl⟩ := Prod.mk.inj (pure_eq_ok.mp h)
        exact ⟨rfl, rfl⟩
  | spill | events | clear | freeCache | lock | unlock | wake | release | freeContext | finished =>
      obtain ⟨-, rfl⟩ := Prod.mk.inj (pure_eq_ok.mp h)
      exact ⟨rfl, rfl⟩

/-- The thread half takes the mutex. -/
theorem TeardownLaw.lock (h : TeardownLaw s) (hpc : s.destructor t = .threadHalf .lock)
    (hfree : s.mutex = none) : TeardownLaw { s.atThreadHalf t .spill with mutex := some t } := by
  have hcache := h.cache t
  have hfits := h.fits t
  rw [hpc] at hcache hfits
  exact
    { h with
      cache := forall_update
        (P := fun u (pc : DestructorPc) => CacheLaw (s.caches u) pc.threadPc (s.contextHalf u))
        (hcache.advance rfl rfl rfl rfl rfl rfl (fun _ => rfl) fun hw => by cases hw)
        fun u _ => h.cache u
      fits := forall_update
        (P := fun (u : Tid) (pc : DestructorPc) => pc.Fits (s.tss.threads u).phase) hfits
        fun u _ => h.fits u
      mutex := fun u => by
        rcases eq_or_ne u t with rfl | hut
        · simp [TeardownState.atThreadHalf, DestructorPc.holdsLock, ThreadHalfPc.holdsLock]
        · have hold := h.mutex u
          rw [hfree] at hold
          simp [TeardownState.atThreadHalf, update_of_ne hut, Ne.symm hut, ← hold]
      freed := h.freed_move _ _ (by rw [hpc]; rfl) }

/-- The thread half gives the mutex back. -/
theorem TeardownLaw.unlock (h : TeardownLaw s) (hpc : s.destructor t = .threadHalf .unlock) :
    TeardownLaw { s.atThreadHalf t .events with mutex := none } := by
  have hcache := h.cache t
  have hfits := h.fits t
  have hheld : s.mutex = some t := (h.mutex t).mpr (by rw [hpc]; rfl)
  rw [hpc] at hcache hfits
  exact
    { h with
      cache := forall_update
        (P := fun u (pc : DestructorPc) => CacheLaw (s.caches u) pc.threadPc (s.contextHalf u))
        (hcache.advance rfl rfl rfl rfl rfl rfl (fun _ => rfl) fun hw => by cases hw)
        fun u _ => h.cache u
      fits := forall_update
        (P := fun (u : Tid) (pc : DestructorPc) => pc.Fits (s.tss.threads u).phase) hfits
        fun u _ => h.fits u
      mutex := fun u => by
        rcases eq_or_ne u t with rfl | hut
        · simp [TeardownState.atThreadHalf, DestructorPc.holdsLock, ThreadHalfPc.holdsLock]
        · have hold := h.mutex u
          rw [hheld] at hold
          simp [TeardownState.atThreadHalf, update_of_ne hut, ← hold, Ne.symm hut]
      freed := h.freed_move _ _ (by rw [hpc]; rfl) }

/-- The thread half wakes the context half. -/
theorem TeardownLaw.wake (h : TeardownLaw s) (hpc : s.destructor t = .threadHalf .wake) :
    TeardownLaw { s.atThreadHalf t .release with
      contextHalf := update s.contextHalf t (s.contextHalf t).wake } := by
  have hcache := h.cache t
  have hfits := h.fits t
  have hmutex := h.mutex t
  rw [hpc] at hcache hfits hmutex
  exact
    { h with
      cache := fun u => by
        rcases eq_or_ne u t with rfl | hut
        · simpa [TeardownState.atThreadHalf, DestructorPc.threadPc] using hcache.wake
        · simpa [TeardownState.atThreadHalf, update_of_ne hut] using h.cache u
      fits := forall_update
        (P := fun (u : Tid) (pc : DestructorPc) => pc.Fits (s.tss.threads u).phase) hfits
        fun u _ => h.fits u
      unvisited := forall_update
        (P := fun u (pc : ContextHalfPc) => u ∉ s.threadCaches → pc = .dying)
        (fun hu => by rw [h.unvisited t hu]; rfl) fun u _ => h.unvisited u
      visits := fun j u hj => by
        have hold := h.visits j u hj
        rcases eq_or_ne u t with rfl | hut
        · simpa [TeardownState.atThreadHalf] using hold.wake
        · simpa [TeardownState.atThreadHalf, update_of_ne hut] using hold
      mutex := forall_update
        (P := fun (u : Tid) (pc : DestructorPc) => s.mutex = some u ↔ pc.holdsLock = true)
        hmutex fun u _ => h.mutex u
      freed := h.freed_move _ _ (by rw [hpc]; rfl) }

/-- The thread half frees the context. -/
theorem TeardownLaw.freeContext (h : TeardownLaw s)
    (hpc : s.destructor t = .threadHalf .freeContext) :
    TeardownLaw { s.atThreadHalf t .clear with contextFreed := s.contextFreed + 1 } := by
  have hcache := h.cache t
  have hfits := h.fits t
  have hmutex := h.mutex t
  have hfreed := h.freed
  have hsum := sum_update DestructorPc.freeing s.destructor t (.threadHalf .clear)
  have hone : (DestructorPc.threadHalf .freeContext).freeing = 1 := rfl
  have hzero : (DestructorPc.threadHalf .clear).freeing = 0 := rfl
  rw [hpc] at hcache hfits hmutex hsum
  exact
    { h with
      cache := forall_update
        (P := fun u (pc : DestructorPc) => CacheLaw (s.caches u) pc.threadPc (s.contextHalf u))
        (hcache.advance rfl rfl rfl rfl rfl rfl (fun hs => by cases hs) fun hw => by cases hw)
        fun u _ => h.cache u
      fits := forall_update
        (P := fun (u : Tid) (pc : DestructorPc) => pc.Fits (s.tss.threads u).phase) ⟨true, hfits⟩
        fun u _ => h.fits u
      mutex := forall_update
        (P := fun (u : Tid) (pc : DestructorPc) => s.mutex = some u ↔ pc.holdsLock = true)
        hmutex fun u _ => h.mutex u
      freed := by
        simp only [TeardownState.atThreadHalf]
        omega }

omit [DecidableEq Tid] in
/-- A step of the slot in thread `t` that keeps its phase, and nothing else. -/
theorem TeardownLaw.slot (h : TeardownLaw s) {tss : TssState Tid w} (htss : TssLaw tss)
    (hothers : ∀ u, (tss.threads u).phase = (s.tss.threads u).phase)
    (hquiet : s.finalizer ≠ .outside → ∀ u, (tss.threads u).pc.acquiring = false)
    (hdiscard : tss.discard = s.tss.discard) (hwon : tss.won = s.tss.won) :
    TeardownLaw { s with tss := tss } :=
  { h with
    tss := htss
    fits := fun u => by rw [hothers u]; exact h.fits u
    registered := fun u => by rw [hothers u]; exact h.registered u
    quiet := hquiet
    discard := by rw [hdiscard]; exact h.discard
    freed := by rw [hwon]; exact h.freed }

/-- The answers of the slot after thread `t` moved. -/
theorem TssState.won_update (tss : TssState Tid w) (slot : RefcountedTss w) (t : Tid) (th : TssThread)
    (aborted : Option TssFailure) :
    ({ tss := slot, threads := update tss.threads t th, discard := tss.discard, aborted := aborted }
      : TssState Tid w).won + (tss.threads t).won = tss.won + th.won := by
  have hsum := sum_update TssThread.won tss.threads t th
  simp only [TssState.won]
  omega

omit [DecidableEq Tid] [Fintype Tid] in
theorem afterTssRelease_of_releasing {th : TssThread} (h : th.phase = .releasing) :
    afterTssRelease th.pc = .release ∧ th.won = 0 ∧ th.pc.acquiring = false := by
  obtain ⟨pc, slot⟩ := th
  cases pc with
  | releaseGet | releaseSub | releaseDelete => exact ⟨rfl, rfl, rfl⟩
  | outside | acquireCheck | acquireGet => cases slot <;> simp [TssThread.phase] at h
  | createAdd | createConstruct | createGet | createSet | released => simp [TssThread.phase] at h

/-- The thread half makes a step in `refcounted_tss_release`. -/
theorem TeardownLaw.release (h : TeardownLaw s)
    (hroom : assertions = true ∨ Fintype.card Tid < 2 ^ w) (hpc : s.destructor t = .threadHalf .release)
    {tss : TssState Tid w} (hstep : (refcountedTss assertions).step s.tss (.thread t) = some tss) :
    TeardownLaw { s.atThreadHalf t (afterTssRelease (tss.threads t).pc) with tss := tss } := by
  have htss : TssLaw tss := TssLaw.step hroom _ _ _ h.tss hstep
  have hcache := h.cache t
  have hmutex := h.mutex t
  have hphase : (s.tss.threads t).phase = .releasing := by
    have hfits := h.fits t
    rw [hpc] at hfits
    exact hfits
  obtain ⟨hold, hwon, hquiet⟩ := afterTssRelease_of_releasing hphase
  rw [hpc] at hcache hmutex
  obtain ⟨slot, th, hok, rfl⟩ | ⟨f, -, rfl⟩ := refcountedTss_thread hstep
  · have hcases : (th.phase = .releasing ∧ afterTssRelease th.pc = .release ∧ th.won = 0) ∨
        (∃ result, th.phase = .released result ∧ th.won = result.toNat ∧
          afterTssRelease th.pc = if result then .freeContext else .clear) := by
      obtain ⟨hrel, hafter⟩ | ⟨result, hend⟩ := tssThreadStep_phase_release hphase hok
      · exact .inl ⟨hrel, hafter, (afterTssRelease_of_releasing hrel).2.1⟩
      · refine .inr ⟨result, ?_⟩
        obtain ⟨pc, slot⟩ := th
        obtain rfl : pc = .released result := hend
        cases result <;> exact ⟨rfl, rfl, rfl⟩
    have hacq : th.pc.acquiring = false := tssThreadStep_acquiring hquiet hok
    have hcount := TssState.won_update s.tss slot t th s.tss.aborted
    have hfreed := h.freed
    have hsum := sum_update DestructorPc.freeing s.destructor t (.threadHalf (afterTssRelease th.pc))
    have hzero : (s.destructor t).freeing = 0 := by rw [hpc]; rfl
    simp only [update_self]
    exact
      { h with
        tss := htss
        cache := forall_update
          (P := fun u (pc : DestructorPc) => CacheLaw (s.caches u) pc.threadPc (s.contextHalf u))
          (by
            obtain ⟨-, hafter, -⟩ | ⟨result, -, -, hafter⟩ := hcases
            · rw [hafter]
              exact hcache
            · rw [hafter]
              cases result <;> exact
                hcache.advance rfl rfl rfl rfl rfl rfl (fun hs => by cases hs) fun hw => by cases hw)
          fun u _ => h.cache u
        fits := fun u => by
          rcases eq_or_ne u t with rfl | hut
          · simp only [TeardownState.atThreadHalf, update_self, DestructorPc.Fits]
            obtain ⟨hrel, hafter, -⟩ | ⟨result, hrel, -, hafter⟩ := hcases
            · rw [hafter]
              exact hrel
            · rw [hafter]
              cases result
              · exact ⟨false, hrel⟩
              · exact hrel
          · simpa [TeardownState.atThreadHalf, update_of_ne hut] using h.fits u
        registered := fun u => by
          rcases eq_or_ne u t with rfl | hut
          · have hin := (h.registered u).mpr (by simp [hphase])
            simp only [TeardownState.atThreadHalf, update_self, hin, true_iff]
            obtain ⟨hrel, -⟩ | ⟨result, hrel, -⟩ := hcases <;> simp [hrel]
          · simpa [TeardownState.atThreadHalf, update_of_ne hut] using h.registered u
        quiet := fun hne => forall_update
          (P := fun (_ : Tid) (th : TssThread) => th.pc.acquiring = false) hacq
          fun u _ => h.quiet hne u
        mutex := forall_update
          (P := fun (u : Tid) (pc : DestructorPc) => s.mutex = some u ↔ pc.holdsLock = true)
          (by
            obtain ⟨-, hafter, -⟩ | ⟨result, -, -, hafter⟩ := hcases
            · rw [hafter]
              exact hmutex
            · rw [hafter]
              cases result <;> exact hmutex)
          fun u _ => h.mutex u
        freed := by
          simp only [TeardownState.atThreadHalf]
          obtain ⟨-, hafter, hw⟩ | ⟨result, -, hw, hafter⟩ := hcases
          · rw [hafter] at hsum ⊢
            have hnew : (DestructorPc.threadHalf .release).freeing = 0 := rfl
            omega
          · rw [hafter] at hsum ⊢
            cases result with
            | false =>
                have hnew : (DestructorPc.threadHalf .clear).freeing = 0 := rfl
                simp only [Bool.false_eq_true, if_false, Bool.toNat_false] at hw hsum ⊢
                omega
            | true =>
                have hnew : (DestructorPc.threadHalf .freeContext).freeing = 1 := rfl
                simp only [if_true, Bool.toNat_true] at hw hsum ⊢
                omega }
  · have hsame : { s.atThreadHalf t .release with tss := { s.tss with aborted := some f } }
        = { s with tss := { s.tss with aborted := some f } } := by
      simp only [TeardownState.atThreadHalf]
      rw [← hpc, update_eq_self]
    rw [hold, hsame]
    exact h.slot htss (fun _ => rfl) h.quiet rfl rfl

end

end Udipe

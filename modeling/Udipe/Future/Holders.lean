import Udipe.Future.SyncCaches
import Udipe.Lib.Ownership

/-!
# Who holds which descriptor

Reference: `future/allocator/sync_caches.h`, `future/allocator/sync_caches.c`, `future/allocator.c`.

Every event and every inpoll is in one future or in one slot of one cache. Each function of the caches
moves descriptors between these places, and says which of them are open and which events signaled.
-/

namespace Udipe

open Function

variable {Tid Key : Type}

/-- A place that holds a descriptor. -/
inductive Holder (Tid Key : Type) where
  | event (i : Key)
  | latch (i : Key)
  | inpoll (i : Key)
  | cachedEvent (t : Tid) (latched : Bool) (k : SyncCacheIndex)
  | cachedInpoll (t : Tid) (k : SyncCacheIndex)
deriving DecidableEq

/-- Events are in the places for events, inpolls in those for inpolls; if `quiet`, the cached events are
unsignaled. -/
def Holder.fits (quiet : Bool) : Holder Tid Key → Descriptor → Prop
  | .event _, .eventfd _ | .latch _, .eventfd _ => True
  | .cachedEvent _ _ _, .eventfd signaled => quiet = true → signaled = false
  | .inpoll _, .inpoll | .cachedInpoll _ _, .inpoll => True
  | _, _ => False

/-- The descriptors in the futures and in the caches. -/
def heldBy (syncs : Key → FutureSync) (caches : Tid → SyncCaches) : Holder Tid Key → Option Fd
  | .event i => (syncs i).event
  | .latch i => (syncs i).inpollLatch
  | .inpoll i => (syncs i).latchedInpoll
  | .cachedEvent t false k => (caches t).events.events k
  | .cachedEvent t true k => (caches t).latchedInpolls.eventCache.events k
  | .cachedInpoll t k => (caches t).latchedInpolls.inpolls k

theorem heldBy_events (syncs : Key → FutureSync) (caches : Tid → SyncCaches) (t : Tid)
    (k : SyncCacheIndex) :
    heldBy syncs caches (.cachedEvent t false k) = (caches t).events.events k := rfl

theorem heldBy_latches (syncs : Key → FutureSync) (caches : Tid → SyncCaches) (t : Tid)
    (k : SyncCacheIndex) :
    heldBy syncs caches (.cachedEvent t true k) = (caches t).latchedInpolls.eventCache.events k := rfl

theorem heldBy_inpolls (syncs : Key → FutureSync) (caches : Tid → SyncCaches) (t : Tid)
    (k : SyncCacheIndex) :
    heldBy syncs caches (.cachedInpoll t k) = (caches t).latchedInpolls.inpolls k := rfl

/-- The cached events are unsignaled. -/
def EventCache.Unsignaled (cache : EventCache) (fds : Descriptors) : Prop :=
  ∀ k, fds.signaled (cache.events k) = false

theorem signaled_eq_true {fds : Descriptors} {event : Option Fd} :
    fds.signaled event = true ↔ ∃ fd, event = some fd ∧ fds fd = some (.eventfd true) := by
  cases event <;> simp [Descriptors.signaled]

/-! ## What the functions of the caches do to the holders -/

theorem closeVirtualFd_eq {fds fds' : Descriptors} {fd : Option Fd}
    (h : closeVirtualFd fds fd = some fds') : fds' = Owned.without fds fd := by
  cases fd with
  | none => cases h
  | some fd =>
      simp only [closeVirtualFd, Option.bind_some, Option.ite_none_right_eq_some,
        Option.some.injEq] at h
      exact h.2.symm

theorem liberateOldest_eq {fds fds' : Descriptors} {slot : Option Fd}
    (h : liberateOldest fds slot = some fds') : fds' = Owned.without fds slot := by
  cases slot with
  | none => exact (Option.some.inj h).symm
  | some fd => exact closeVirtualFd_eq h

/-- Closing a descriptor leaves the others as they are. -/
theorem of_without {fds : Descriptors} {fd : Option Fd} {fd' : Fd} {d : Descriptor}
    (h : Owned.without fds fd fd' = some d) : fds fd' = some d := by
  cases fd with
  | none => exact h
  | some fd =>
      by_cases heq : fd' = fd
      · simp [Owned.without, heq] at h
      · rwa [Owned.without, update_of_ne heq] at h

section

variable [DecidableEq Tid] [DecidableEq Key] {quiet : Bool} {held : Holder Tid Key → Option Fd}
  {fds fds' : Descriptors} {t : Tid} {latched : Bool}

/-- `event_cache_allocate` moves the latest event, or a fresh one, to `dst`. -/
theorem EventCache.allocate_owned {cache cache' : EventCache} {dst : Holder Tid Key} {fresh event : Fd}
    (ho : Owned (Holder.fits quiet) held fds)
    (hslot : ∀ k, held (.cachedEvent t latched k) = cache.events k) (hfresh : fds fresh = none)
    (hdst : (∃ i, dst = .event i) ∨ ∃ i, dst = .latch i)
    (h : cache.allocate fds fresh = (event, cache', fds')) :
    ∃ held', Owned (Holder.fits quiet) held' fds' ∧ held' dst = some event ∧
      (∀ k, held' (.cachedEvent t latched k) = cache'.events k) ∧
      ∀ u, u ≠ dst → (∀ k, u ≠ .cachedEvent t latched k) → held' u = held u := by
  have hslotne : ∀ k, Holder.cachedEvent t latched k ≠ dst := by
    obtain ⟨i, rfl⟩ | ⟨i, rfl⟩ := hdst <;> simp
  unfold allocate at h
  split at h
  · rename_i hnone
    obtain ⟨rfl, rfl, rfl⟩ := by simpa using h
    refine ⟨_, ho.acquire hfresh ?_, update_self .., fun k => ?_, fun u hu _ => update_of_ne hu ..⟩
    · obtain ⟨i, rfl⟩ | ⟨i, rfl⟩ := hdst <;> trivial
    · rw [update_of_ne (hslotne k), hslot]
  · rename_i candidate hcandidate
    obtain ⟨rfl, rfl, rfl⟩ := by simpa using h
    refine ⟨_, ho.transfer (.cachedEvent t latched cache.latest) dst ?_, ?_,
      fun k => ?_, fun u hu hslots => ?_⟩
    · rintro fd (_ | _) _ _ hfit
      · obtain ⟨i, rfl⟩ | ⟨i, rfl⟩ := hdst <;> trivial
      · exact hfit.elim
    · rw [update_self, hslot, hcandidate]
    · rw [update_of_ne (hslotne k)]
      by_cases hk : k = cache.latest
      · simp [hk]
      · rw [update_of_ne (by simpa using hk), hslot]
        exact (update_of_ne hk ..).symm
    · rw [update_of_ne hu, update_of_ne (hslots _)]

/-- `event_cache_liberate` closes the oldest event and puts the one of `src` in its place. -/
theorem EventCache.liberate_owned {cache cache' : EventCache} (src : Holder Tid Key)
    (ho : Owned (Holder.fits quiet) held fds)
    (hslot : ∀ k, held (.cachedEvent t latched k) = cache.events k)
    (hsrc : (∃ i, src = .event i) ∨ ∃ i, src = .latch i)
    (hquiet : quiet = true → fds.signaled (held src) = false)
    (h : cache.liberate fds (held src) = some (cache', fds')) :
    ∃ held', Owned (Holder.fits quiet) held' fds' ∧ held' src = none ∧
      (∀ k, held' (.cachedEvent t latched k) = cache'.events k) ∧
      ∀ u, u ≠ src → (∀ k, u ≠ .cachedEvent t latched k) → held' u = held u := by
  simp only [liberate, Option.map_eq_some_iff, Prod.mk.injEq] at h
  obtain ⟨fds'', hclose, rfl, rfl⟩ := h
  obtain rfl := liberateOldest_eq hclose
  have hslotne : ∀ k, src ≠ Holder.cachedEvent t latched k := by
    obtain ⟨i, rfl⟩ | ⟨i, rfl⟩ := hsrc <;> simp
  set oldest : Holder Tid Key := .cachedEvent t latched (syncCacheIncrementIndex cache.latest)
  have hkept : update held oldest none src = held src := update_of_ne (hslotne _) ..
  rw [← hslot]
  refine ⟨_, (ho.release oldest).transfer src oldest ?_, ?_, fun k => ?_,
    fun u hu hslots => ?_⟩
  · rintro fd (signaled | _) hfd hd hfit
    · intro hq
      by_contra hsig
      have : fds.signaled (held src) = true :=
        signaled_eq_true.mpr ⟨fd, hkept ▸ hfd, by simpa [hsig] using of_without hd⟩
      simp [hquiet hq] at this
    · obtain ⟨i, rfl⟩ | ⟨i, rfl⟩ := hsrc <;> exact hfit.elim
  · rw [update_of_ne (hslotne _), update_self]
  · by_cases hk : k = syncCacheIncrementIndex cache.latest
    · subst hk
      rw [update_self, hkept]
      simp
    · rw [update_of_ne (by simpa [oldest] using hk), update_of_ne (hslotne k).symm,
        update_of_ne (by simpa [oldest] using hk), hslot]
      exact (update_of_ne hk ..).symm
  · rw [update_of_ne (hslots _), update_of_ne hu, update_of_ne (hslots _)]

/-- `latched_inpoll_cache_allocate` makes a pair, or takes the latest one. -/
theorem LatchedInpollCache.allocate_eq_some {b : Build} {cache cache' : LatchedInpollCache}
    {fds fds' : Descriptors} {fresh : FreshFds} {pair : InpollWithLatch}
    (h : cache.allocate b fds fresh = some (pair, cache', fds')) :
    (cache.inpolls cache.eventCache.latest = none ∧
      pair = { inpoll := fresh.inpoll, latch := fresh.event } ∧ cache' = cache ∧
      fds' = update (eventInitialize fds fresh.event) fresh.inpoll (some .inpoll)) ∨
    ∃ candidate, cache.inpolls cache.eventCache.latest = some candidate ∧
      pair = { inpoll := candidate, latch := (cache.eventCache.allocate fds fresh.event).1 } ∧
      cache' = { inpolls := update cache.inpolls cache.eventCache.latest none
                 eventCache := (cache.eventCache.allocate fds fresh.event).2.1 } ∧
      fds' = (cache.eventCache.allocate fds fresh.event).2.2 := by
  simp only [allocate] at h
  split at h
  · rename_i hnone
    simp only [Option.some.injEq, Prod.mk.injEq] at h
    exact .inl ⟨hnone, h.1.symm, h.2.1.symm, h.2.2.symm⟩
  · rename_i candidate hcandidate
    split at h
    · cases h
    · simp only [Option.some.injEq, Prod.mk.injEq] at h
      exact .inr ⟨candidate, hcandidate, h.1.symm, h.2.1.symm, h.2.2.symm⟩

/-- `latched_inpoll_cache_allocate` moves a latch and an inpoll to future `i`. -/
theorem LatchedInpollCache.allocate_owned {cache cache' : LatchedInpollCache} {fresh : FreshFds}
    {pair : InpollWithLatch} {i : Key} (ho : Owned (Holder.fits quiet) held fds)
    (hslot : ∀ k, held (.cachedEvent t true k) = cache.eventCache.events k)
    (hinpoll : ∀ k, held (.cachedInpoll t k) = cache.inpolls k) (hfresh : fresh.allowed fds = true)
    {b : Build} (h : cache.allocate b fds fresh = some (pair, cache', fds')) :
    ∃ held', Owned (Holder.fits quiet) held' fds' ∧ held' (.latch i) = some pair.latch ∧
      held' (.inpoll i) = some pair.inpoll ∧
      (∀ k, held' (.cachedEvent t true k) = cache'.eventCache.events k) ∧
      (∀ k, held' (.cachedInpoll t k) = cache'.inpolls k) ∧
      ∀ u, u ≠ .latch i → u ≠ .inpoll i → (∀ k, u ≠ .cachedEvent t true k) →
        (∀ k, u ≠ .cachedInpoll t k) → held' u = held u := by
  obtain ⟨⟨hevent, hfd⟩, hne⟩ : (fds fresh.event = none ∧ fds fresh.inpoll = none) ∧
      fresh.event ≠ fresh.inpoll := by simpa [FreshFds.allowed] using hfresh
  obtain ⟨-, rfl, rfl, rfl⟩ | ⟨candidate, hcandidate, rfl, rfl, rfl⟩ := allocate_eq_some h
  · have hlatch := ho.acquire (h := .latch i) (r := fresh.event) (d := .eventfd false) hevent trivial
    have hboth := hlatch.acquire (h := .inpoll i) (r := fresh.inpoll) (d := .inpoll)
      (by rw [update_of_ne hne.symm, hfd]) trivial
    refine ⟨_, hboth, by simp, by simp, fun k => by simp [hslot], fun k => by simp [hinpoll],
      fun u hl hi _ _ => ?_⟩
    rw [update_of_ne hi, update_of_ne hl]
  · have hpair := ho.transfer (.cachedInpoll t cache.eventCache.latest) (.inpoll i)
      (by rintro fd (_ | _) _ _ hfit <;> exact hfit)
    rw [hinpoll, hcandidate] at hpair
    have hslot₁ : ∀ k, update (update held (.cachedInpoll t cache.eventCache.latest) none)
        (.inpoll i) (some candidate) (.cachedEvent t true k) = cache.eventCache.events k :=
      fun k => by simp [hslot]
    obtain ⟨held', hown, hlatch, hslots, hrest⟩ :=
      EventCache.allocate_owned hpair hslot₁ hevent (.inr ⟨i, rfl⟩) rfl
    refine ⟨held', hown, hlatch, ?_, hslots, fun k => ?_, fun u hl hi he hp => ?_⟩
    · rw [hrest _ (by simp) (by simp), update_self]
    · rw [hrest _ (by simp) (by simp), update_of_ne (by simp)]
      by_cases hk : k = cache.eventCache.latest
      · simp [hk]
      · rw [update_of_ne (by simpa using hk), hinpoll]
        exact (update_of_ne hk ..).symm
    · rw [hrest u hl he, update_of_ne hi, update_of_ne (hp _)]

/-- `latched_inpoll_cache_liberate` moves the latch and the inpoll of future `i` into the cache. -/
theorem LatchedInpollCache.liberate_owned {cache cache' : LatchedInpollCache} {i : Key}
    (ho : Owned (Holder.fits quiet) held fds)
    (hslot : ∀ k, held (.cachedEvent t true k) = cache.eventCache.events k)
    (hinpoll : ∀ k, held (.cachedInpoll t k) = cache.inpolls k)
    (hquiet : quiet = true → fds.signaled (held (.latch i)) = false)
    (h : cache.liberate fds (held (.inpoll i)) (held (.latch i)) = some (cache', fds')) :
    ∃ held', Owned (Holder.fits quiet) held' fds' ∧ held' (.latch i) = none ∧
      held' (.inpoll i) = none ∧
      (∀ k, held' (.cachedEvent t true k) = cache'.eventCache.events k) ∧
      (∀ k, held' (.cachedInpoll t k) = cache'.inpolls k) ∧
      ∀ u, u ≠ .latch i → u ≠ .inpoll i → (∀ k, u ≠ .cachedEvent t true k) →
        (∀ k, u ≠ .cachedInpoll t k) → held' u = held u := by
  simp only [liberate, Option.bind_eq_some_iff, Option.map_eq_some_iff, Prod.exists,
    Prod.mk.injEq] at h
  obtain ⟨eventCache, fds₁, hevents, fds₂, hclose, rfl, rfl⟩ := h
  obtain ⟨held₁, hown, hlatch, hslots, hrest⟩ :=
    EventCache.liberate_owned (.latch i) ho hslot (.inr ⟨i, rfl⟩) hquiet hevents
  obtain rfl := liberateOldest_eq hclose
  have hinpoll₁ : ∀ k, held₁ (.cachedInpoll t k) = cache.inpolls k := fun k => by
    rw [hrest _ (by simp) (by simp), hinpoll]
  have hkept : held₁ (.inpoll i) = held (.inpoll i) := hrest _ (by simp) (by simp)
  set oldest : Holder Tid Key := .cachedInpoll t eventCache.latest
  have hmoved := (hown.release oldest).transfer (.inpoll i) oldest
    (by rintro fd (_ | _) _ _ hfit <;> exact hfit)
  rw [hinpoll₁] at hmoved
  refine ⟨_, hmoved, ?_, ?_, fun k => ?_, fun k => ?_, fun u hl hi he hp => ?_⟩
  · rw [update_of_ne (by simp [oldest]), update_of_ne (by simp), update_of_ne (by simp [oldest]),
      hlatch]
  · rw [update_of_ne (by simp [oldest]), update_self]
  · rw [update_of_ne (by simp [oldest]), update_of_ne (by simp), update_of_ne (by simp [oldest]),
      hslots]
  · by_cases hk : k = eventCache.latest
    · subst hk
      rw [update_self, update_of_ne (by simp [oldest]), hkept]
      simp
    · rw [update_of_ne (by simpa [oldest] using hk), update_of_ne (by simp),
        update_of_ne (by simpa [oldest] using hk), hinpoll₁]
      exact (update_of_ne hk ..).symm
  · rw [update_of_ne (hp _), update_of_ne hi, update_of_ne (hp _), hrest u hl he]

/-- The place is in future `i` or in a cache of thread `t`. -/
def Holder.Of (t : Tid) (i : Key) : Holder Tid Key → Prop
  | .event j | .latch j | .inpoll j => j = i
  | .cachedEvent u _ _ | .cachedInpoll u _ => u = t

/-- The holders after future `i` and the caches of thread `t` changed. -/
theorem heldBy_update {syncs : Key → FutureSync} {caches : Tid → SyncCaches} {t : Tid} {i : Key}
    (sync : FutureSync) (cache : SyncCaches) (held : Holder Tid Key → Option Fd)
    (hevent : held (.event i) = sync.event) (hlatch : held (.latch i) = sync.inpollLatch)
    (hinpoll : held (.inpoll i) = sync.latchedInpoll)
    (hevents : ∀ k, held (.cachedEvent t false k) = cache.events.events k)
    (hlatches : ∀ k, held (.cachedEvent t true k) = cache.latchedInpolls.eventCache.events k)
    (hinpolls : ∀ k, held (.cachedInpoll t k) = cache.latchedInpolls.inpolls k)
    (hrest : ∀ u, ¬ Holder.Of t i u → held u = heldBy syncs caches u) :
    heldBy (update syncs i sync) (update caches t cache) = held := by
  funext u
  by_cases hof : Holder.Of t i u
  · cases u with
    | event j | latch j | inpoll j =>
        obtain rfl : j = i := hof
        simp [heldBy, hevent, hlatch, hinpoll]
    | cachedEvent v latched k =>
        obtain rfl : v = t := hof
        cases latched <;> simp [heldBy, hevents, hlatches]
    | cachedInpoll v k =>
        obtain rfl : v = t := hof
        simp [heldBy, hinpolls]
  · rw [hrest u hof]
    cases u with
    | event j | latch j | inpoll j => rw [heldBy, heldBy, update_of_ne hof]
    | cachedEvent v latched k => cases latched <;> rw [heldBy, heldBy, update_of_ne hof]
    | cachedInpoll v k => rw [heldBy, heldBy, update_of_ne hof]

variable {syncs : Key → FutureSync} {caches : Tid → SyncCaches} {i : Key} {sync : FutureSync}
  {cache : SyncCaches} {type : FutureType}

/-- What `future_sync_initialize` sets up. -/
theorem futureSyncInitialize_owned {fresh : FreshFds}
    (ho : Owned (Holder.fits quiet) (heldBy syncs caches) fds) (hsync : syncs i = .invalid)
    (hfresh : fresh.allowed fds = true)
    {b : Build} (h : futureSyncInitialize b type (caches t) fds fresh = some (sync, cache, fds')) :
    Owned (Holder.fits quiet) (heldBy (update syncs i sync) (update caches t cache)) fds' := by
  have hnone : heldBy syncs caches (.event i) = none ∧ heldBy syncs caches (.latch i) = none ∧
      heldBy syncs caches (.inpoll i) = none := by simp [heldBy, hsync, FutureSync.invalid]
  unfold futureSyncInitialize at h
  split at h
  case h_1 | h_2 | h_3 | h_4 | h_5 =>
    have hfreshEvent : fds fresh.event = none := by
      simp only [FreshFds.allowed, Bool.and_eq_true, Option.isNone_iff_eq_none] at hfresh
      exact hfresh.1.1
    obtain ⟨event, events, fds₁, hal⟩ : ∃ event events fds₁,
      (caches t).events.allocate fds fresh.event = (event, events, fds₁) := ⟨_, _, _, rfl⟩
    simp only [hal, Option.some.injEq, Prod.mk.injEq] at h
    obtain ⟨rfl, rfl, rfl⟩ := h
    obtain ⟨held', hown, hdst, hslots, hrest⟩ :=
      EventCache.allocate_owned ho (heldBy_events syncs caches t) hfreshEvent (.inl ⟨i, rfl⟩) hal
    have heq := heldBy_update { FutureSync.invalid with event := some event }
      { caches t with events := events } held' hdst
      ((hrest _ (by simp) (by simp)).trans hnone.2.1) ((hrest _ (by simp) (by simp)).trans hnone.2.2)
      hslots (fun k => hrest _ (by simp) (by simp)) (fun k => hrest _ (by simp) (by simp))
      (fun u hu => hrest u (fun h => hu (h ▸ rfl)) fun k h => hu (h ▸ rfl))
    exact heq ▸ hown
  case h_6 =>
    simp only [Option.some.injEq, Prod.mk.injEq] at h
    obtain ⟨rfl, rfl, rfl⟩ := h
    rwa [update_eq_self, ← hsync, update_eq_self]
  case h_7 | h_8 | h_9 =>
    simp only [Option.map_eq_some_iff, Prod.exists, Prod.mk.injEq] at h
    obtain ⟨pair, latches, fds₁, hal, rfl, rfl, rfl⟩ := h
    obtain ⟨held', hown, hlatch, hinpoll, hslots, hinpolls, hrest⟩ :=
      LatchedInpollCache.allocate_owned (i := i) ho (heldBy_latches syncs caches t)
        (heldBy_inpolls syncs caches t) hfresh hal
    have heq := heldBy_update
      { FutureSync.invalid with
        latchedInpoll := some pair.inpoll
        inpollLatch := some pair.latch }
      { caches t with latchedInpolls := latches } held'
      ((hrest _ (by simp) (by simp) (by simp) (by simp)).trans hnone.1) hlatch hinpoll
      (fun k => hrest _ (by simp) (by simp) (by simp) (by simp)) hslots hinpolls
      (fun u hu => hrest u (fun h => hu (h ▸ rfl)) (fun h => hu (h ▸ rfl))
        (fun k h => hu (h ▸ rfl)) fun k h => hu (h ▸ rfl))
    exact heq ▸ hown
  case h_10 => cases h

/-- What `future_sync_finalize` leaves. -/
theorem futureSyncFinalize_owned (ho : Owned (Holder.fits quiet) (heldBy syncs caches) fds)
    (hquiet : quiet = true → fds.signaled (recycledEvent type (syncs i)) = false)
    (h : futureSyncFinalize type (syncs i) (caches t) fds = some (sync, cache, fds')) :
    Owned (Holder.fits quiet) (heldBy (update syncs i sync) (update caches t cache)) fds' := by
  unfold futureSyncFinalize at h
  split at h
  case h_1 | h_2 | h_3 | h_4 | h_5 =>
    simp only [Option.map_eq_some_iff, Prod.exists, Prod.mk.injEq] at h
    obtain ⟨events, fds₁, hlib, rfl, rfl, rfl⟩ := h
    obtain ⟨held', hown, hsrc, hslots, hrest⟩ := EventCache.liberate_owned (.event i) ho
      (heldBy_events syncs caches t) (.inl ⟨i, rfl⟩) hquiet hlib
    have heq := heldBy_update { syncs i with event := none }
      { caches t with events := events } held' hsrc
      (hrest _ (by simp) (by simp)) (hrest _ (by simp) (by simp))
      hslots (fun k => hrest _ (by simp) (by simp)) (fun k => hrest _ (by simp) (by simp))
      (fun u hu => hrest u (fun h => hu (h ▸ rfl)) fun k h => hu (h ▸ rfl))
    exact heq ▸ hown
  case h_6 =>
    simp only [Option.some.injEq, Prod.mk.injEq] at h
    obtain ⟨rfl, rfl, rfl⟩ := h
    rwa [update_eq_self, update_eq_self]
  case h_7 =>
    simp only [Option.bind_eq_some_iff, Option.map_eq_some_iff, Prod.exists, Prod.mk.injEq] at h
    obtain ⟨events, fds₁, hlib, fds₂, hclose, rfl, rfl, rfl⟩ := h
    obtain ⟨held', hown, hsrc, hslots, hrest⟩ := EventCache.liberate_owned (.latch i) ho
      (heldBy_events syncs caches t) (.inr ⟨i, rfl⟩) hquiet hlib
    obtain rfl := closeVirtualFd_eq hclose
    have hinpoll : held' (.inpoll i) = (syncs i).latchedInpoll := hrest _ (by simp) (by simp)
    have hkept : ∀ u, u ≠ .inpoll i → update held' (.inpoll i) none u = held' u :=
      fun u hu => update_of_ne hu ..
    have heq := heldBy_update { syncs i with inpollLatch := none, latchedInpoll := none }
      { caches t with events := events } (update held' (.inpoll i) none)
      ((hkept _ (by simp)).trans (hrest _ (by simp) (by simp))) ((hkept _ (by simp)).trans hsrc)
      (update_self ..) (fun k => (hkept _ (by simp)).trans (hslots k))
      (fun k => (hkept _ (by simp)).trans (hrest _ (by simp) (by simp)))
      (fun k => (hkept _ (by simp)).trans (hrest _ (by simp) (by simp)))
      (fun u hu => (hkept u fun h => hu (h ▸ rfl)).trans
        (hrest u (fun h => hu (h ▸ rfl)) fun k h => hu (h ▸ rfl)))
    rw [heq, ← hinpoll]
    exact hown.release _
  case h_8 | h_9 =>
    simp only [Option.map_eq_some_iff, Prod.exists, Prod.mk.injEq] at h
    obtain ⟨latches, fds₁, hlib, rfl, rfl, rfl⟩ := h
    obtain ⟨held', hown, hlatch, hinpoll, hslots, hinpolls, hrest⟩ :=
      LatchedInpollCache.liberate_owned (i := i) ho (heldBy_latches syncs caches t)
        (heldBy_inpolls syncs caches t) hquiet hlib
    have heq := heldBy_update { syncs i with inpollLatch := none, latchedInpoll := none }
      { caches t with latchedInpolls := latches } held'
      (hrest _ (by simp) (by simp) (by simp) (by simp)) hlatch hinpoll
      (fun k => hrest _ (by simp) (by simp) (by simp) (by simp)) hslots hinpolls
      (fun u hu => hrest u (fun h => hu (h ▸ rfl)) (fun h => hu (h ▸ rfl))
        (fun k h => hu (h ▸ rfl)) fun k h => hu (h ▸ rfl))
    exact heq ▸ hown
  case h_10 => cases h

theorem eventSignal_eq {event : Option Fd} (h : eventSignal fds event = some fds') :
    ∃ fd signaled, event = some fd ∧ fds fd = some (.eventfd signaled) ∧
      fds' = update fds fd (some (.eventfd true)) := by
  cases event with
  | none => cases h
  | some fd =>
      simp only [eventSignal, Option.bind_some] at h
      split at h
      · rename_i signaled hopen
        exact ⟨fd, signaled, rfl, hopen, (Option.some.inj h).symm⟩
      · cases h

omit [DecidableEq Tid] [DecidableEq Key] in
/-- `event_signal` of an event that is not in a cache. -/
theorem eventSignal_owned {event : Option Fd} (ho : Owned (Holder.fits quiet) held fds)
    (hcached : quiet = true → ∀ t latched k fd, held (.cachedEvent t latched k) = some fd →
      event ≠ some fd)
    (h : eventSignal fds event = some fds') : Owned (Holder.fits quiet) held fds' := by
  obtain ⟨fd, signaled, rfl, hopen, rfl⟩ := eventSignal_eq h
  refine ho.modify fun u hu => ?_
  obtain ⟨d, hd, hfit⟩ := ho.valid u fd hu
  obtain rfl : d = .eventfd signaled := Option.some.inj (hd.symm.trans hopen)
  cases u with
  | event i | latch i => trivial
  | cachedEvent t latched k => exact fun hq => absurd rfl (hcached hq t latched k fd hu)
  | inpoll i | cachedInpoll t k => exact hfit

end

/-! ## What the functions of the caches do to the events -/

theorem EventCache.liberate_eq {cache cache' : EventCache} {fds fds' : Descriptors}
    {event : Option Fd} (h : cache.liberate fds event = some (cache', fds')) :
    cache'.events cache'.latest = event ∧ ∀ fd d, fds' fd = some d → fds fd = some d := by
  simp only [EventCache.liberate, Option.map_eq_some_iff, Prod.mk.injEq] at h
  obtain ⟨fds'', hclose, rfl, rfl⟩ := h
  obtain rfl := liberateOldest_eq hclose
  exact ⟨by simp, fun fd d hd => of_without hd⟩

theorem LatchedInpollCache.liberate_eq {cache cache' : LatchedInpollCache} {fds fds' : Descriptors}
    {inpoll latch : Option Fd} (h : cache.liberate fds inpoll latch = some (cache', fds')) :
    cache'.eventCache.events cache'.eventCache.latest = latch ∧
      ∀ fd d, fds' fd = some d → fds fd = some d := by
  simp only [LatchedInpollCache.liberate, Option.bind_eq_some_iff, Option.map_eq_some_iff,
    Prod.exists, Prod.mk.injEq] at h
  obtain ⟨events, fds₁, hlib, fds₂, hclose, rfl, rfl⟩ := h
  obtain ⟨hlatest, hfds⟩ := EventCache.liberate_eq hlib
  obtain rfl := liberateOldest_eq hclose
  exact ⟨hlatest, fun fd d hd => hfds fd d (of_without hd)⟩

/-- `future_sync_finalize` closes descriptors and does nothing else to them. -/
theorem futureSyncFinalize_fds {type : FutureType} {sync sync' : FutureSync}
    {caches caches' : SyncCaches} {fds fds' : Descriptors} {fd : Fd} {d : Descriptor}
    (h : futureSyncFinalize type sync caches fds = some (sync', caches', fds'))
    (hfd : fds' fd = some d) : fds fd = some d := by
  unfold futureSyncFinalize at h
  split at h
  case h_1 | h_2 | h_3 | h_4 | h_5 =>
    simp only [Option.map_eq_some_iff, Prod.exists, Prod.mk.injEq] at h
    obtain ⟨events, fds₁, hlib, rfl, rfl, rfl⟩ := h
    exact (EventCache.liberate_eq hlib).2 fd d hfd
  case h_6 =>
    simp only [Option.some.injEq, Prod.mk.injEq] at h
    exact h.2.2 ▸ hfd
  case h_7 =>
    simp only [Option.bind_eq_some_iff, Option.map_eq_some_iff, Prod.exists, Prod.mk.injEq] at h
    obtain ⟨events, fds₁, hlib, fds₂, hclose, rfl, rfl, rfl⟩ := h
    obtain rfl := closeVirtualFd_eq hclose
    exact (EventCache.liberate_eq hlib).2 fd d (of_without hfd)
  case h_8 | h_9 =>
    simp only [Option.map_eq_some_iff, Prod.exists, Prod.mk.injEq] at h
    obtain ⟨latches, fds₁, hlib, rfl, rfl, rfl⟩ := h
    exact (LatchedInpollCache.liberate_eq hlib).2 fd d hfd
  case h_10 => cases h

/-- `future_sync_finalize` puts the event into a cache. -/
theorem futureSyncFinalize_recycles {type : FutureType} {sync sync' : FutureSync}
    {caches caches' : SyncCaches} {fds fds' : Descriptors} {fd : Fd}
    (h : futureSyncFinalize type sync caches fds = some (sync', caches', fds'))
    (hevent : recycledEvent type sync = some fd) :
    ∃ k, caches'.events.events k = some fd ∨
      caches'.latchedInpolls.eventCache.events k = some fd := by
  unfold futureSyncFinalize at h
  unfold recycledEvent at hevent
  split at h
  case h_1 | h_2 | h_3 | h_4 | h_5 =>
    simp only [Option.map_eq_some_iff, Prod.exists, Prod.mk.injEq] at h
    obtain ⟨events, fds₁, hlib, rfl, rfl, rfl⟩ := h
    exact ⟨_, .inl ((EventCache.liberate_eq hlib).1.trans hevent)⟩
  case h_6 => cases hevent
  case h_7 =>
    simp only [Option.bind_eq_some_iff, Option.map_eq_some_iff, Prod.exists, Prod.mk.injEq] at h
    obtain ⟨events, fds₁, hlib, fds₂, -, rfl, rfl, rfl⟩ := h
    exact ⟨_, .inl ((EventCache.liberate_eq hlib).1.trans hevent)⟩
  case h_8 | h_9 =>
    simp only [Option.map_eq_some_iff, Prod.exists, Prod.mk.injEq] at h
    obtain ⟨latches, fds₁, hlib, rfl, rfl, rfl⟩ := h
    exact ⟨_, .inr ((LatchedInpollCache.liberate_eq hlib).1.trans hevent)⟩
  case h_10 => cases h

theorem EventCache.Unsignaled.allocate {cache cache' : EventCache} {fds fds' : Descriptors}
    {fresh event : Fd} (h : cache.Unsignaled fds)
    (hal : cache.allocate fds fresh = (event, cache', fds')) : fds'.signaled (some event) = false := by
  unfold EventCache.allocate at hal
  split at hal <;> simp only [Prod.mk.injEq] at hal <;> obtain ⟨rfl, rfl, rfl⟩ := hal
  · simp [Descriptors.signaled, eventInitialize]
  · rename_i candidate hcandidate
    rw [← hcandidate]
    exact h _

theorem LatchedInpollCache.allocate_unsignaled {cache cache' : LatchedInpollCache}
    {fds fds' : Descriptors} {fresh : FreshFds} {pair : InpollWithLatch}
    (h : cache.eventCache.Unsignaled fds) (hfresh : fresh.allowed fds = true)
    {b : Build} (hal : cache.allocate b fds fresh = some (pair, cache', fds')) :
    fds'.signaled (some pair.latch) = false := by
  have hne : fresh.event ≠ fresh.inpoll := by
    simp only [FreshFds.allowed, Bool.and_eq_true, bne_iff_ne] at hfresh
    exact hfresh.2
  obtain ⟨-, rfl, rfl, rfl⟩ | ⟨candidate, -, rfl, rfl, rfl⟩ := allocate_eq_some hal
  · simp [Descriptors.signaled, eventInitialize, hne]
  · exact h.allocate rfl

/-- A future takes unsignaled objects from unsignaled caches. -/
theorem futureSyncInitialize_unsignaled {type : FutureType} {sync : FutureSync}
    {caches caches' : SyncCaches} {fds fds' : Descriptors} {fresh : FreshFds}
    (hevents : caches.events.Unsignaled fds)
    (hlatches : caches.latchedInpolls.eventCache.Unsignaled fds)
    (hfresh : fresh.allowed fds = true) {b : Build}
    (h : futureSyncInitialize b type caches fds fresh = some (sync, caches', fds')) :
    fds'.signaled sync.event = false ∧ fds'.signaled sync.inpollLatch = false := by
  unfold futureSyncInitialize at h
  split at h
  case h_1 | h_2 | h_3 | h_4 | h_5 =>
    simp only [Option.some.injEq, Prod.mk.injEq] at h
    obtain ⟨rfl, rfl, rfl⟩ := h
    exact ⟨hevents.allocate rfl, rfl⟩
  case h_6 =>
    simp only [Option.some.injEq, Prod.mk.injEq] at h
    obtain ⟨rfl, rfl, rfl⟩ := h
    exact ⟨rfl, rfl⟩
  case h_7 | h_8 | h_9 =>
    simp only [Option.map_eq_some_iff, Prod.exists, Prod.mk.injEq] at h
    obtain ⟨pair, latches, fds₁, hal, rfl, rfl, rfl⟩ := h
    exact ⟨rfl, LatchedInpollCache.allocate_unsignaled hlatches hfresh hal⟩
  case h_10 => cases h

theorem futureSyncInitialize_fds {type : FutureType} {sync : FutureSync} {caches caches' : SyncCaches}
    {fds fds' : Descriptors} {fresh : FreshFds} {fd : Fd} {b : Build}
    (h : futureSyncInitialize b type caches fds fresh = some (sync, caches', fds'))
    (hfd : fds' fd = some (.eventfd true)) : fds fd = some (.eventfd true) := by
  have hevent : ∀ {cache cache' : EventCache} {event : Fd} {fds'},
      cache.allocate fds fresh.event = (event, cache', fds') → fds' fd = some (.eventfd true) →
        fds fd = some (.eventfd true) := by
    intro cache cache' event fds' hal hfd
    unfold EventCache.allocate at hal
    split at hal <;> simp only [Prod.mk.injEq] at hal <;> obtain ⟨rfl, rfl, rfl⟩ := hal
    · by_cases heq : fd = fresh.event
      · simp [eventInitialize, heq] at hfd
      · rwa [eventInitialize, update_of_ne heq] at hfd
    · exact hfd
  unfold futureSyncInitialize at h
  split at h
  case h_1 | h_2 | h_3 | h_4 | h_5 =>
    simp only [Option.some.injEq, Prod.mk.injEq] at h
    obtain ⟨rfl, rfl, rfl⟩ := h
    exact hevent rfl hfd
  case h_6 =>
    simp only [Option.some.injEq, Prod.mk.injEq] at h
    exact h.2.2 ▸ hfd
  case h_7 | h_8 | h_9 =>
    simp only [Option.map_eq_some_iff, Prod.exists, Prod.mk.injEq] at h
    obtain ⟨pair, latches, fds₁, hal, -, -, rfl⟩ := h
    obtain ⟨-, -, -, rfl⟩ | ⟨-, -, -, -, rfl⟩ := LatchedInpollCache.allocate_eq_some hal
    · by_cases hinpoll : fd = fresh.inpoll
      · simp [hinpoll] at hfd
      · rw [update_of_ne hinpoll] at hfd
        by_cases heq : fd = fresh.event
        · simp [eventInitialize, heq] at hfd
        · rwa [eventInitialize, update_of_ne heq] at hfd
    · exact hevent rfl hfd
  case h_10 => cases h

end Udipe

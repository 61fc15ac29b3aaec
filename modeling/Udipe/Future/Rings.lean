import Udipe.Future.SyncCaches
import Udipe.Lib.RingStack

/-!
# The caches of synchronization objects, of any capacity

Reference: `future/allocator/sync_caches.h`, `future/allocator/sync_caches.c`.

The rings are those of `SyncCaches`, for any `EVENT_CACHE_CAPACITY` and any objects. An object that a call
closes is part of its result; the fresh object is what `event_initialize` or `latched_inpoll_initialize` would
answer.
-/

namespace Udipe

open Function

/-- `sync_cache_increment_index`. The sum is an `int`, the index a `uint8_t`. -/
def ringIncrementIndex (capacity index : ℕ) : ℕ := (index + 1) % capacity % 2 ^ 8

/-- `sync_cache_decrement_index`. -/
def ringDecrementIndex (capacity index : ℕ) : ℕ := if 1 ≤ index then index - 1 else capacity - 1

/-- The loop of `event_cache_finalize` and that of `latched_inpoll_cache_finalize`, of at most `fuel` rounds, with
the objects that it closes. Each round frees a slot and goes back. -/
def finalizeLoop {α : Type} (capacity : ℕ) : (fuel : ℕ) → (target : ℕ) → (ℕ → Option α) →
    Option (List α × (ℕ → Option α))
  | 0, _, _ => none
  | fuel + 1, target, slots =>
      match slots target with
      | none => some ([], slots)
      | some object =>
          (finalizeLoop capacity fuel (ringDecrementIndex capacity target)
            (update slots target none)).map fun r => (object :: r.1, r.2)

/-! ## Events -/

/-- `event_cache_t`. -/
structure EventRing (E : Type) where
  events : ℕ → Option E
  latest : ℕ

variable {E I : Type} {capacity : ℕ}

namespace EventRing

/-- `event_cache_initialize`. -/
def initial : EventRing E := ⟨fun _ => none, 0⟩

/-- `event_cache_allocate`, with whether the event comes from the cache. -/
def allocate (capacity : ℕ) (cache : EventRing E) (fresh : E) : (E × Bool) × EventRing E :=
  match cache.events cache.latest with
  | none => ((fresh, false), cache)
  | some candidate =>
      ((candidate, true),
        { events := update cache.events cache.latest none
          latest := ringDecrementIndex capacity cache.latest })

/-- `event_cache_liberate`, with the event that it closes. -/
def liberate (capacity : ℕ) (cache : EventRing E) (event : E) : Option E × EventRing E :=
  let latest := ringIncrementIndex capacity cache.latest
  (cache.events latest, { events := update cache.events latest (some event), latest := latest })

/-- `event_cache_finalize`, with the events that it closes. -/
def finalize (capacity : ℕ) (cache : EventRing E) : Option (List E × EventRing E) :=
  (finalizeLoop capacity (capacity + 1) cache.latest cache.events).map fun r =>
    (r.1, { events := r.2, latest := 0 })

end EventRing

/-! ## Inpolls with their latches -/

/-- `latched_inpoll_cache_t`. -/
structure LatchedInpollRing (I E : Type) where
  inpolls : ℕ → Option I
  eventCache : EventRing E

namespace LatchedInpollRing

/-- `latched_inpoll_cache_initialize`. -/
def initial : LatchedInpollRing I E := ⟨fun _ => none, .initial⟩

/-- `latched_inpoll_cache_allocate`, with whether the pair comes from the cache. It asserts that there is an event
next to the inpoll. -/
def allocate (b : Build) (capacity : ℕ) (cache : LatchedInpollRing I E) (fresh : I × E) :
    Option (((I × E) × Bool) × LatchedInpollRing I E) :=
  let target := cache.eventCache.latest
  match cache.inpolls target with
  | none => some ((fresh, false), cache)
  | some inpollCandidate =>
      if b.assertions && (cache.eventCache.events target).isNone then none
      else
        let (latch, eventCache) := cache.eventCache.allocate capacity fresh.2
        some (((inpollCandidate, latch.1), true),
          { inpolls := update cache.inpolls target none, eventCache })

/-- `latched_inpoll_cache_liberate`, with the inpoll and the event that it closes. -/
def liberate (capacity : ℕ) (cache : LatchedInpollRing I E) (latched : I × E) :
    (Option I × Option E) × LatchedInpollRing I E :=
  let (closedLatch, eventCache) := cache.eventCache.liberate capacity latched.2
  let target := eventCache.latest
  ((cache.inpolls target, closedLatch),
    { inpolls := update cache.inpolls target (some latched.1), eventCache })

/-- `latched_inpoll_cache_finalize`, with the inpolls and the events that it closes. -/
def finalize (capacity : ℕ) (cache : LatchedInpollRing I E) :
    Option ((List I × List E) × LatchedInpollRing I E) :=
  (finalizeLoop capacity (capacity + 1) cache.eventCache.latest cache.inpolls).bind fun r =>
    (cache.eventCache.finalize capacity).map fun r' =>
      ((r.1, r'.1), { inpolls := r.2, eventCache := r'.2 })

end LatchedInpollRing

/-! ## The calls on a cache -/

/-- An event cache. -/
def eventRingServer (capacity : ℕ) : Server (EventRing E) (CacheCall E) (CacheAnswer E) where
  answer cache
    | .put event =>
        let (closed, cache) := cache.liberate capacity event
        some (.dropped closed.toList, cache)
    | .take fresh =>
        let ((event, cached), cache) := cache.allocate capacity fresh
        some (.taken event cached, cache)
    | .clear => (cache.finalize capacity).map fun r => (.dropped r.1, r.2)

/-- Inpolls and latches are closed one by one. -/
inductive LatchedAnswer (I E : Type)
  | taken (latched : I × E) (cached : Bool)
  | dropped (inpolls : List I) (latches : List E)

/-- What becomes of pairs. -/
def LatchedAnswer.ofPairs : CacheAnswer (I × E) → LatchedAnswer I E
  | .taken latched cached => .taken latched cached
  | .dropped latched => .dropped (latched.map Prod.fst) (latched.map Prod.snd)

/-- A latched inpoll cache. -/
def latchedInpollRingServer (b : Build) (capacity : ℕ) :
    Server (LatchedInpollRing I E) (CacheCall (I × E)) (LatchedAnswer I E) where
  answer cache
    | .put latched =>
        let ((inpoll, latch), cache) := cache.liberate capacity latched
        some (.dropped inpoll.toList latch.toList, cache)
    | .take fresh => (cache.allocate b capacity fresh).map fun r => (.taken r.1.1 r.1.2, r.2)
    | .clear => (cache.finalize capacity).map fun r => (.dropped r.1.1 r.1.2, r.2)

/-! ## Rings hold stacks -/

variable {newest : List E} {pairs : List (I × E)}

/-- The index stays in the ring, so that a `uint8_t` holds it. -/
theorem ringIncrementIndex_eq (hcapacity : 0 < capacity) (hbyte : capacity < 2 ^ 8) (index : ℕ) :
    ringIncrementIndex capacity index = (index + 1) % capacity :=
  Nat.mod_eq_of_lt ((Nat.mod_lt _ hcapacity).trans hbyte)

/-- The loop closes the objects from the latest to the oldest, and leaves no object. -/
theorem finalizeLoop_eq {α : Type} {target : ℕ} {slots : ℕ → Option α} {newest : List α}
    (h : RingHolds capacity target slots newest) {fuel : ℕ} (hfuel : newest.length < fuel) :
    ∃ slots', finalizeLoop capacity fuel target slots = some (newest, slots') ∧
      ∀ i < capacity, slots' i = none := by
  -- induction on the objects that are left, the latest first
  induction newest generalizing target slots fuel with
  | nil =>
      -- the slot at the index is empty, and then all of them are
      obtain ⟨fuel, rfl⟩ := Nat.exists_eq_add_of_lt hfuel
      refine ⟨slots, ?_, fun i hi => ?_⟩
      · rw [finalizeLoop, h.slot_latest]
        rfl
      · obtain ⟨age, hage, rfl⟩ := exists_ringSlot h.latest_lt hi
        exact h.slot age hage
  | cons object older ih =>
      obtain ⟨fuel, rfl⟩ : ∃ n, fuel = n + 1 := Nat.exists_eq_succ_of_ne_zero (by omega)
      obtain ⟨slots', hrun, hnone⟩ := ih h.take (by simpa using hfuel)
      refine ⟨slots', ?_, hnone⟩
      rw [finalizeLoop, h.slot_latest]
      exact Option.map_eq_some_iff.mpr ⟨_, hrun, rfl⟩

/-- The events of the cache, the latest first. -/
def EventRing.Holds (capacity : ℕ) (cache : EventRing E) (newest : List E) : Prop :=
  RingHolds capacity cache.latest cache.events newest

namespace EventRing.Holds

variable {cache : EventRing E} {event fresh : E} {older : List E}

theorem allocate_nil (h : cache.Holds capacity []) : cache.allocate capacity fresh = ((fresh, false), cache) := by
  rw [EventRing.allocate, RingHolds.slot_latest h]
  rfl

/-- The latest event is taken. -/
theorem allocate_cons (h : cache.Holds capacity (event :: older)) (fresh : E) :
    ∃ cache', cache.allocate capacity fresh = ((event, true), cache') ∧ cache'.Holds capacity older := by
  refine ⟨⟨update cache.events cache.latest none, ringDecrementIndex capacity cache.latest⟩,
    ?_, RingHolds.take h⟩
  rw [EventRing.allocate, RingHolds.slot_latest h]
  rfl

/-- The slot after the latest one has the oldest event of a full ring, and is empty otherwise. -/
theorem liberate (hcapacity : 0 < capacity) (hbyte : capacity < 2 ^ 8) (h : cache.Holds capacity newest) (event : E) :
    ∃ cache', cache.liberate capacity event = (newest[capacity - 1]?, cache') ∧
      cache'.Holds capacity ((event :: newest).take capacity) ∧
      cache'.latest = (cache.latest + 1) % capacity := by
  refine ⟨⟨update cache.events ((cache.latest + 1) % capacity) (some event), (cache.latest + 1) % capacity⟩, ?_,
    RingHolds.put h event, rfl⟩
  rw [EventRing.liberate, ringIncrementIndex_eq hcapacity hbyte, RingHolds.slot_next h]

/-- `event_cache_finalize` leaves the cache as it was at first. -/
theorem finalize (h : cache.Holds capacity newest) :
    ∃ cache', cache.finalize capacity = some (newest, cache') ∧ cache'.Holds capacity [] := by
  obtain ⟨slots, hrun, hnone⟩ := finalizeLoop_eq h (Nat.lt_succ_of_le (RingHolds.length_le h))
  refine ⟨⟨slots, 0⟩, ?_, RingHolds.empty ((Nat.zero_le _).trans_lt (RingHolds.latest_lt h)) hnone⟩
  rw [EventRing.finalize, hrun]
  rfl

end EventRing.Holds

/-- Every call on an event cache is answered as the stack of its events answers it. -/
theorem eventRingServer_bisimilar (hcapacity : 0 < capacity) (hbyte : capacity < 2 ^ 8) :
    (eventRingServer capacity : Server (EventRing E) _ _).Bisimilar (recencyCache capacity)
      (EventRing.Holds capacity) := by
  rintro cache newest call h
  cases call with
  | put event =>
      obtain ⟨cache', hliberate, hholds, -⟩ := h.liberate hcapacity hbyte event
      simp only [eventRingServer, hliberate]
      exact .some ⟨rfl, hholds⟩
  | take fresh =>
      cases newest with
      | nil =>
          simp only [eventRingServer, h.allocate_nil]
          exact .some ⟨rfl, h⟩
      | cons event older =>
          obtain ⟨cache', hallocate, hholds⟩ := h.allocate_cons fresh
          simp only [eventRingServer, hallocate]
          exact .some ⟨rfl, hholds⟩
  | clear =>
      obtain ⟨cache', hrun, hholds⟩ := h.finalize
      rw [recencyCache_clear]
      simp only [eventRingServer, hrun]
      exact .some ⟨rfl, hholds⟩

/-- The pairs of the cache, the latest first: inpolls and latches are in the same slots. -/
structure LatchedInpollRing.Holds (capacity : ℕ) (cache : LatchedInpollRing I E) (newest : List (I × E)) :
    Prop where
  inpolls : RingHolds capacity cache.eventCache.latest cache.inpolls (newest.map Prod.fst)
  eventCache : cache.eventCache.Holds capacity (newest.map Prod.snd)

namespace LatchedInpollRing.Holds

variable {b : Build} {cache : LatchedInpollRing I E} {latched fresh : I × E} {older : List (I × E)}

theorem allocate_nil (h : cache.Holds capacity []) :
    cache.allocate b capacity fresh = some ((fresh, false), cache) := by
  simp only [LatchedInpollRing.allocate, h.inpolls.slot_latest, List.map_nil, List.head?_nil]

/-- The latest pair is taken, and the assertion passes. -/
theorem allocate_cons (h : cache.Holds capacity (latched :: older)) (fresh : I × E) :
    ∃ cache', cache.allocate b capacity fresh = some ((latched, true), cache') ∧ cache'.Holds capacity older := by
  have hinpoll : cache.inpolls cache.eventCache.latest = some latched.1 := h.inpolls.slot_latest
  have hlatch : cache.eventCache.events cache.eventCache.latest = some latched.2 :=
    RingHolds.slot_latest h.eventCache
  obtain ⟨eventCache, hallocate, hholds⟩ := EventRing.Holds.allocate_cons h.eventCache fresh.2
  have hindex : eventCache.latest = ringDecrementIndex capacity cache.eventCache.latest := by
    rw [EventRing.allocate, hlatch] at hallocate
    exact congrArg EventRing.latest (Prod.mk.inj hallocate).2.symm
  refine ⟨⟨update cache.inpolls cache.eventCache.latest none, eventCache⟩, ?_, ?_, hholds⟩
  · simp only [LatchedInpollRing.allocate, hinpoll, hlatch, Option.isNone_some, Bool.and_false, hallocate]
    rfl
  · rw [hindex]
    exact h.inpolls.take

/-- The two rings share their index, so that they stay parallel. -/
theorem liberate (hcapacity : 0 < capacity) (hbyte : capacity < 2 ^ 8) {newest : List (I × E)}
    (h : cache.Holds capacity newest) (latched : I × E) :
    ∃ cache', cache.liberate capacity latched =
        ((newest[capacity - 1]?.map Prod.fst, newest[capacity - 1]?.map Prod.snd), cache') ∧
      cache'.Holds capacity ((latched :: newest).take capacity) := by
  obtain ⟨eventCache, hliberate, hholds, hlatest⟩ := h.eventCache.liberate hcapacity hbyte latched.2
  have hput := h.inpolls.put latched.1
  rw [← List.map_cons, ← List.map_take, ← hlatest] at hput
  rw [← List.map_cons, ← List.map_take] at hholds
  refine ⟨⟨update cache.inpolls eventCache.latest (some latched.1), eventCache⟩, ?_, hput, hholds⟩
  rw [LatchedInpollRing.liberate, hliberate]
  simp only [hlatest, h.inpolls.slot_next, List.getElem?_map]

/-- `latched_inpoll_cache_finalize` leaves the cache as it was at first. -/
theorem finalize {newest : List (I × E)} (h : cache.Holds capacity newest) :
    ∃ cache', cache.finalize capacity = some ((newest.map Prod.fst, newest.map Prod.snd), cache') ∧
      cache'.Holds capacity [] := by
  obtain ⟨slots, hrun, hnone⟩ := finalizeLoop_eq h.inpolls (Nat.lt_succ_of_le h.inpolls.length_le)
  obtain ⟨eventCache, hrun', hholds⟩ := h.eventCache.finalize
  refine ⟨⟨slots, eventCache⟩, ?_, .empty (RingHolds.latest_lt hholds) hnone, hholds⟩
  rw [LatchedInpollRing.finalize, hrun, hrun']
  rfl

end LatchedInpollRing.Holds

/-- Every call on a latched inpoll cache is answered as the stack of its pairs answers it. -/
theorem latchedInpollRingServer_bisimilar (b : Build) (hcapacity : 0 < capacity) (hbyte : capacity < 2 ^ 8) :
    (latchedInpollRingServer b capacity : Server (LatchedInpollRing I E) _ _).Bisimilar
      ((recencyCache capacity).map LatchedAnswer.ofPairs) (LatchedInpollRing.Holds capacity) := by
  rintro cache newest call h
  cases call with
  | put latched =>
      obtain ⟨cache', hliberate, hholds⟩ := h.liberate hcapacity hbyte latched
      simp only [latchedInpollRingServer, hliberate]
      refine .some ⟨?_, hholds⟩
      simp only [LatchedAnswer.ofPairs]
      cases newest[capacity - 1]? <;> rfl
  | take fresh =>
      cases newest with
      | nil =>
          simp only [latchedInpollRingServer, h.allocate_nil]
          exact .some ⟨rfl, h⟩
      | cons latched older =>
          obtain ⟨cache', hallocate, hholds⟩ := h.allocate_cons (b := b) fresh
          simp only [latchedInpollRingServer, hallocate]
          exact .some ⟨rfl, hholds⟩
  | clear =>
      obtain ⟨cache', hrun, hholds⟩ := h.finalize
      simp only [latchedInpollRingServer, hrun, Server.map, recencyCache_clear]
      exact .some ⟨rfl, hholds⟩

/-! ## The caches of four slots -/

/-- The slots of a cache of `SyncCaches`. -/
def ringSlots (slots : SyncCacheIndex → Option Fd) (i : ℕ) : Option Fd :=
  if h : i < eventCacheCapacity then slots ⟨i, h⟩ else none

@[simp] theorem ringSlots_val (slots : SyncCacheIndex → Option Fd) (i : SyncCacheIndex) :
    ringSlots slots i = slots i := by
  simp [ringSlots, i.isLt]

/-- Writing a slot. -/
theorem ringSlots_update (slots : SyncCacheIndex → Option Fd) (i : SyncCacheIndex) (v : Option Fd) :
    ringSlots (update slots i v) = update (ringSlots slots) i v := by
  funext j
  -- past the four slots, both are empty
  by_cases hj : j < eventCacheCapacity
  · by_cases hji : j = i
    · subst hji
      simp
    · have hne : (⟨j, hj⟩ : SyncCacheIndex) ≠ i := fun heq => hji (congrArg Fin.val heq)
      simp [ringSlots, hj, update_of_ne hne, update_of_ne hji]
  · have hji : j ≠ i := fun heq => hj (heq ▸ i.isLt)
    simp [ringSlots, hj, update_of_ne hji]

theorem syncCacheDecrementIndex_val (index : SyncCacheIndex) :
    (syncCacheDecrementIndex index).val = ringDecrementIndex eventCacheCapacity index := by
  rw [syncCacheDecrementIndex, ringDecrementIndex]
  split <;> rfl

theorem syncCacheIncrementIndex_val (index : SyncCacheIndex) :
    (syncCacheIncrementIndex index).val = ringIncrementIndex eventCacheCapacity index :=
  (ringIncrementIndex_eq (by decide) (by decide) _).symm

/-- A cache of `SyncCaches`. -/
def EventCache.ring (cache : EventCache) : EventRing Fd where
  events := ringSlots cache.events
  latest := cache.latest

/-- `event_cache_allocate` is that of the ring. -/
theorem EventCache.ring_allocate (cache : EventCache) (fds : Descriptors) (fresh : Fd) :
    ∃ cached, cache.ring.allocate eventCacheCapacity fresh =
      (((cache.allocate fds fresh).1, cached), (cache.allocate fds fresh).2.1.ring) := by
  rw [EventRing.allocate, EventCache.allocate]
  simp only [ring, ringSlots_val]
  cases cache.events cache.latest with
  | none => exact ⟨false, rfl⟩
  | some event =>
      refine ⟨true, ?_⟩
      simp only [ringSlots_update, syncCacheDecrementIndex_val]

/-- `event_cache_liberate` is that of the ring, with the event closed that the ring drops. -/
theorem EventCache.ring_liberate {cache cache' : EventCache} {fds fds' : Descriptors} {event : Fd}
    (h : cache.liberate fds (some event) = some (cache', fds')) :
    ∃ dropped, cache.ring.liberate eventCacheCapacity event = (dropped, cache'.ring) ∧
      liberateOldest fds dropped = some fds' := by
  obtain ⟨fds'', hclose, heq⟩ := Option.map_eq_some_iff.mp h
  cases heq
  refine ⟨cache.events (syncCacheIncrementIndex cache.latest), ?_, hclose⟩
  rw [EventRing.liberate]
  simp only [ring, ← syncCacheIncrementIndex_val, ringSlots_val, ringSlots_update]

/-- A latched inpoll cache of `SyncCaches`. -/
def LatchedInpollCache.ring (cache : LatchedInpollCache) : LatchedInpollRing Fd Fd where
  inpolls := ringSlots cache.inpolls
  eventCache := cache.eventCache.ring

/-- `latched_inpoll_cache_allocate` is that of the ring. -/
theorem LatchedInpollCache.ring_allocate {b : Build} {cache cache' : LatchedInpollCache} {fds fds' : Descriptors}
    {fresh : FreshFds} {pair : InpollWithLatch} (h : cache.allocate b fds fresh = some (pair, cache', fds')) :
    ∃ cached, cache.ring.allocate b eventCacheCapacity (fresh.inpoll, fresh.event) =
      some (((pair.inpoll, pair.latch), cached), cache'.ring) := by
  simp only [allocate] at h
  have hinpoll : ringSlots cache.inpolls cache.eventCache.ring.latest = cache.inpolls cache.eventCache.latest :=
    ringSlots_val ..
  have hevent : cache.eventCache.ring.events cache.eventCache.ring.latest =
      cache.eventCache.events cache.eventCache.latest := ringSlots_val ..
  simp only [LatchedInpollRing.allocate, ring, hinpoll, hevent]
  split at h
  · rename_i hnone
    simp only [Option.some.injEq, Prod.mk.injEq] at h
    obtain ⟨rfl, rfl, -⟩ := h
    simp only [hnone]
    exact ⟨false, rfl⟩
  · rename_i candidate hcandidate
    split at h
    · cases h
    · rename_i hassert
      simp only [Option.some.injEq, Prod.mk.injEq] at h
      obtain ⟨rfl, rfl, -⟩ := h
      obtain ⟨cached, hallocate⟩ := cache.eventCache.ring_allocate fds fresh.event
      refine ⟨true, ?_⟩
      simp only [hcandidate, if_neg hassert, hallocate, ringSlots_update]
      rfl

/-- `latched_inpoll_cache_liberate` is that of the ring, with the latch and then the inpoll closed that the ring
drops. -/
theorem LatchedInpollCache.ring_liberate {cache cache' : LatchedInpollCache} {fds fds' : Descriptors}
    {inpoll latch : Fd}
    (h : cache.liberate fds (some inpoll) (some latch) = some (cache', fds')) :
    ∃ dropped fds₁, cache.ring.liberate eventCacheCapacity (inpoll, latch) = (dropped, cache'.ring) ∧
      liberateOldest fds dropped.2 = some fds₁ ∧ liberateOldest fds₁ dropped.1 = some fds' := by
  simp only [liberate, Option.bind_eq_some_iff, Option.map_eq_some_iff, Prod.exists, Prod.mk.injEq] at h
  obtain ⟨eventCache, fds₁, hevents, fds₂, hclose, rfl, rfl⟩ := h
  obtain ⟨dropped, hliberate, hdropped⟩ := EventCache.ring_liberate hevents
  refine ⟨(cache.inpolls eventCache.latest, dropped), fds₁, ?_, hdropped, hclose⟩
  simp only [LatchedInpollRing.liberate, ring, hliberate, ringSlots_update]
  simp only [EventCache.ring, ringSlots_val]

/-! ## Whole histories -/

/-- The cache starts without objects. -/
theorem EventRing.holds_initial (hcapacity : 0 < capacity) :
    (EventRing.initial : EventRing E).Holds capacity [] :=
  RingHolds.empty hcapacity fun _ _ => rfl

theorem LatchedInpollRing.holds_initial (hcapacity : 0 < capacity) :
    (LatchedInpollRing.initial : LatchedInpollRing I E).Holds capacity [] :=
  ⟨RingHolds.empty hcapacity fun _ _ => rfl, EventRing.holds_initial hcapacity⟩

/-- Both arrays of a latched inpoll cache have, at each index, the parts of one pair or nothing. -/
theorem LatchedInpollRing.Holds.parallel {cache : LatchedInpollRing I E} {newest : List (I × E)}
    (h : cache.Holds capacity newest) {i : ℕ} (hi : i < capacity) :
    ∃ pair : Option (I × E), cache.inpolls i = pair.map Prod.fst ∧
      cache.eventCache.events i = pair.map Prod.snd ∧ ∀ p ∈ pair, p ∈ newest := by
  obtain ⟨age, hage, rfl⟩ := exists_ringSlot h.inpolls.latest_lt hi
  refine ⟨newest[age]?, ?_, ?_, fun p hp => List.mem_of_getElem? hp⟩
  · rw [h.inpolls.slot age hage, List.getElem?_map]
  · rw [RingHolds.slot h.eventCache age hage, List.getElem?_map]

/-- Over every list of calls on the two caches, of any capacity that a `uint8_t` can count:
* they answer as stacks that forget their oldest object, which the rings hold;
* the slots of a latched inpoll cache have the parts of pairs that have been liberated together;
* what has been liberated is what has been taken back, what has been closed and what is still there, and
  nothing is there after `event_cache_finalize` or `latched_inpoll_cache_finalize`. -/
theorem syncCaches_history (b : Build) (hcapacity : 1 ≤ capacity) (hbyte : capacity ≤ 255) :
    (∀ calls : List (CacheCall E), ∃ answers cache newest,
      (eventRingServer capacity).serve .initial calls = some (answers, cache) ∧
      (recencyCache capacity).serve [] calls = some (answers, newest) ∧
      RingHolds capacity cache.latest cache.events newest ∧
      (calls.map CacheCall.handed).sum = (answers.map CacheAnswer.left).sum + newest ∧
      (calls.getLast? = some .clear → newest = [])) ∧
    ∀ calls : List (CacheCall (I × E)), ∃ answers cache newest,
      (latchedInpollRingServer b capacity).serve .initial calls
        = some (answers.map LatchedAnswer.ofPairs, cache) ∧
      (recencyCache capacity).serve [] calls = some (answers, newest) ∧
      RingHolds capacity cache.eventCache.latest cache.inpolls (newest.map Prod.fst) ∧
      RingHolds capacity cache.eventCache.latest cache.eventCache.events (newest.map Prod.snd) ∧
      (∀ i < capacity, ∃ pair : Option (I × E), cache.inpolls i = pair.map Prod.fst ∧
        cache.eventCache.events i = pair.map Prod.snd ∧
        ∀ p ∈ pair, p ∈ (calls.map CacheCall.handed).sum) ∧
      (calls.map CacheCall.handed).sum = (answers.map CacheAnswer.left).sum + newest ∧
      (calls.getLast? = some .clear → newest = []) := by
  have hbyte' : capacity < 2 ^ 8 := Nat.lt_succ_of_le hbyte
  constructor
  · intro calls
    -- the stack answers every list of calls, and the cache answers as the stack does
    obtain ⟨answers, newest, hstack⟩ := recencyCache_serve_isSome capacity ([] : List E) calls
    obtain ⟨cache, hserve, hholds⟩ := (eventRingServer_bisimilar hcapacity hbyte').serve_of_eq_some
      (EventRing.holds_initial hcapacity) hstack
    exact ⟨answers, cache, newest, hserve, hstack, hholds, recencyCache_handed hcapacity hstack,
      recencyCache_of_getLast?_clear hstack⟩
  · intro calls
    obtain ⟨answers, newest, hstack⟩ := recencyCache_serve_isSome capacity ([] : List (I × E)) calls
    -- the cache answers with inpolls and latches apart
    have hsplit : ((recencyCache capacity).map LatchedAnswer.ofPairs).serve [] calls
        = some (answers.map LatchedAnswer.ofPairs, newest) := by
      rw [Server.serve_map, hstack]
      rfl
    obtain ⟨cache, hserve, hholds⟩ :=
      (latchedInpollRingServer_bisimilar b hcapacity hbyte').serve_of_eq_some
        (LatchedInpollRing.holds_initial hcapacity) hsplit
    have hhanded := recencyCache_handed hcapacity hstack
    refine ⟨answers, cache, newest, hserve, hstack, hholds.inpolls, hholds.eventCache, fun i hi => ?_,
      hhanded, recencyCache_of_getLast?_clear hstack⟩
    obtain ⟨pair, hinpoll, hevent, hmem⟩ := hholds.parallel hi
    refine ⟨pair, hinpoll, hevent, fun p hp => ?_⟩
    rw [hhanded, Multiset.mem_add]
    exact .inr (Multiset.mem_coe.mpr (hmem p hp))

/-- With two slots: the third event that is liberated closes the first. -/
theorem syncCaches_history_threeEvents :
    ∃ (answers : List (CacheAnswer ℕ)) (cache : EventRing ℕ),
      (eventRingServer 2).serve .initial [.put 1, .put 2, .put 3, .take 9, .clear] = some (answers, cache) ∧
      answers = [.dropped [], .dropped [], .dropped [1], .taken 3 true, .dropped [2]] ∧
      RingHolds 2 cache.latest cache.events [] ∧
      (answers.map CacheAnswer.left).sum = {1, 2, 3} := by
  obtain ⟨answers, cache, newest, hserve, hstack, hholds, hhanded, hlast⟩ :=
    (syncCaches_history (E := ℕ) (I := ℕ) ⟨true⟩ (by decide : 1 ≤ 2) (by decide)).1
      [.put 1, .put 2, .put 3, .take 9, .clear]
  cases hstack
  refine ⟨_, cache, hserve, rfl, hholds, ?_⟩
  rw [Multiset.coe_nil, add_zero] at hhanded
  rw [← hhanded]
  rfl

end Udipe

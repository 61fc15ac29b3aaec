import Udipe.Future.Status
import Mathlib.Logic.Function.Basic

/-!
# The synchronization objects of a future and the caches they are recycled through

Reference: `event.h`, `fd.h`, `future/allocator/sync_caches.h`, `future/allocator/sync_caches.c`,
`future/latched_inpoll.c`, `future/allocator.c` (`future_sync_initialize`, `future_sync_finalize`), the
Linux branches.

`EVENT_INVALID` and `FD_INVALID` are `none`. A function that ends the process has the result `none`. The
timers, the upstream inpoll of an unordered future and the interest lists of the inpolls are left out:
no event passes through them.
-/

namespace Udipe

open Function

/-- A file descriptor. -/
abbrev Fd := ℕ

/-- What an open descriptor stands for. -/
inductive Descriptor where
  /-- An eventfd; `signaled` when its counter is not zero. -/
  | eventfd (signaled : Bool)
  | inpoll
deriving DecidableEq, Repr

/-- The open descriptors of the process. -/
abbrev Descriptors := Fd → Option Descriptor

/-- The event is readable. -/
def Descriptors.signaled (fds : Descriptors) (event : Option Fd) : Bool :=
  event.any fun fd => fds fd == some (.eventfd true)

/-- `event_initialize(false)`, where the kernel answers `fd`. -/
def eventInitialize (fds : Descriptors) (fd : Fd) : Descriptors :=
  update fds fd (some (.eventfd false))

/-- `event_signal`. Writing to something that is not an open eventfd ends the process. -/
def eventSignal (fds : Descriptors) (event : Option Fd) : Option Descriptors :=
  event.bind fun fd =>
    match fds fd with
    | some (.eventfd _) => some (update fds fd (some (.eventfd true)))
    | _ => none

/-- `close_virtual_fd`, and so `event_finalize` and `inpoll_finalize`. -/
def closeVirtualFd (fds : Descriptors) (fd : Option Fd) : Option Descriptors :=
  fd.bind fun fd => if (fds fd).isSome then some (update fds fd none) else none

/-- The descriptors that the kernel would give next, one for an eventfd and one for an inpoll. -/
structure FreshFds where
  event : Fd
  inpoll : Fd
deriving DecidableEq, Repr

/-- The kernel only gives numbers that are not in use. -/
def FreshFds.allowed (fresh : FreshFds) (fds : Descriptors) : Bool :=
  (fds fresh.event).isNone && (fds fresh.inpoll).isNone && fresh.event != fresh.inpoll

/-! ## The ring buffer -/

/-- `EVENT_CACHE_CAPACITY`. -/
def eventCacheCapacity : ℕ := 4

/-- `sync_cache_index_t`, an index into a cache. -/
abbrev SyncCacheIndex := Fin eventCacheCapacity

/-- `sync_cache_increment_index`. -/
def syncCacheIncrementIndex (index : SyncCacheIndex) : SyncCacheIndex :=
  ⟨(index + 1) % eventCacheCapacity, Nat.mod_lt _ (by decide)⟩

/-- `sync_cache_decrement_index`. -/
def syncCacheDecrementIndex (index : SyncCacheIndex) : SyncCacheIndex :=
  if 1 ≤ index.val then ⟨index - 1, by omega⟩ else ⟨eventCacheCapacity - 1, by decide⟩

/-- `event_cache_t`. -/
structure EventCache where
  events : SyncCacheIndex → Option Fd
  latest : SyncCacheIndex

/-- `event_cache_initialize`. -/
def eventCacheInitialize : EventCache where
  events := fun _ => none
  latest := ⟨0, by decide⟩

/-- `event_cache_allocate`. -/
def EventCache.allocate (cache : EventCache) (fds : Descriptors) (fresh : Fd) :
    Fd × EventCache × Descriptors :=
  match cache.events cache.latest with
  | none => (fresh, cache, eventInitialize fds fresh)
  | some candidate =>
      (candidate,
        { events := update cache.events cache.latest none
          latest := syncCacheDecrementIndex cache.latest }, fds)

/-- `event_finalize` or `inpoll_finalize` of a ring slot that is about to be reused. -/
def liberateOldest (fds : Descriptors) (slot : Option Fd) : Option Descriptors :=
  if slot.isSome then closeVirtualFd fds slot else some fds

/-- `event_cache_liberate`. The caller's `event` becomes invalid. -/
def EventCache.liberate (cache : EventCache) (fds : Descriptors) (event : Option Fd) :
    Option (EventCache × Descriptors) :=
  let latest := syncCacheIncrementIndex cache.latest
  (liberateOldest fds (cache.events latest)).map fun fds' =>
    ({ events := update cache.events latest event, latest := latest }, fds')

/-- `latched_inpoll_cache_t`. -/
structure LatchedInpollCache where
  inpolls : SyncCacheIndex → Option Fd
  eventCache : EventCache

/-- `latched_inpoll_cache_initialize`. -/
def latchedInpollCacheInitialize : LatchedInpollCache where
  inpolls := fun _ => none
  eventCache := eventCacheInitialize

/-- `inpoll_with_latch_t`. -/
structure InpollWithLatch where
  inpoll : Fd
  latch : Fd

/-- `latched_inpoll_cache_allocate`; without a candidate it is `latched_inpoll_initialize`. -/
def LatchedInpollCache.allocate (b : Build) (cache : LatchedInpollCache) (fds : Descriptors)
    (fresh : FreshFds) : Option (InpollWithLatch × LatchedInpollCache × Descriptors) :=
  let target := cache.eventCache.latest
  match cache.inpolls target with
  | none =>
      some ({ inpoll := fresh.inpoll, latch := fresh.event }, cache,
        update (eventInitialize fds fresh.event) fresh.inpoll (some .inpoll))
  | some inpollCandidate =>
      if b.assertions && (cache.eventCache.events target).isNone then none
      else
        let (latch, eventCache, fds') := cache.eventCache.allocate fds fresh.event
        some ({ inpoll := inpollCandidate, latch := latch },
          { inpolls := update cache.inpolls target none, eventCache := eventCache }, fds')

/-- `latched_inpoll_cache_liberate`. -/
def LatchedInpollCache.liberate (cache : LatchedInpollCache) (fds : Descriptors)
    (inpoll latch : Option Fd) : Option (LatchedInpollCache × Descriptors) :=
  (cache.eventCache.liberate fds latch).bind fun (eventCache, fds') =>
    let target := eventCache.latest
    (liberateOldest fds' (cache.inpolls target)).map fun fds'' =>
      ({ inpolls := update cache.inpolls target inpoll, eventCache := eventCache }, fds'')

/-- The caches of one thread, from `future_thread_cache_t`. -/
structure SyncCaches where
  events : EventCache
  latchedInpolls : LatchedInpollCache

/-- As `future_thread_cache_initialize` leaves them. -/
def SyncCaches.initial : SyncCaches where
  events := eventCacheInitialize
  latchedInpolls := latchedInpollCacheInitialize

/-! ## Initialization and finalization -/

/-- The descriptors of a future that go through the caches. -/
structure FutureSync where
  /-- `status_sync.event`. -/
  event : Option Fd
  /-- `status_sync.latched_inpoll`. -/
  latchedInpoll : Option Fd
  /-- `inpoll_latch` in `specific.join`, `specific.unordered` or `specific.timer_repeat`. -/
  inpollLatch : Option Fd
deriving DecidableEq, Repr

/-- None is valid. -/
def FutureSync.invalid : FutureSync where
  event := none
  latchedInpoll := none
  inpollLatch := none

/-- `future_sync_initialize`. -/
def futureSyncInitialize (b : Build) (type : FutureType) (caches : SyncCaches) (fds : Descriptors)
    (fresh : FreshFds) : Option (FutureSync × SyncCaches × Descriptors) :=
  match type with
  | .networkConnect | .networkDisconnect | .networkSend | .networkRecv | .custom =>
      let (event, cache, fds') := caches.events.allocate fds fresh.event
      some ({ FutureSync.invalid with event := some event }, { caches with events := cache }, fds')
  | .timerOnce => some (.invalid, caches, fds)
  | .join | .unordered | .timerRepeat =>
      (caches.latchedInpolls.allocate b fds fresh).map fun (latched, cache, fds') =>
        ({ FutureSync.invalid with
            latchedInpoll := some latched.inpoll
            inpollLatch := some latched.latch },
          { caches with latchedInpolls := cache }, fds')
  | _ => none

/-- `future_sync_finalize`. -/
def futureSyncFinalize (type : FutureType) (sync : FutureSync) (caches : SyncCaches)
    (fds : Descriptors) : Option (FutureSync × SyncCaches × Descriptors) :=
  match type with
  | .networkConnect | .networkDisconnect | .networkSend | .networkRecv | .custom =>
      (caches.events.liberate fds sync.event).map fun (cache, fds') =>
        ({ sync with event := none }, { caches with events := cache }, fds')
  | .timerOnce => some (sync, caches, fds)
  | .join =>
      (caches.events.liberate fds sync.inpollLatch).bind fun (cache, fds') =>
        (closeVirtualFd fds' sync.latchedInpoll).map fun fds'' =>
          ({ sync with inpollLatch := none, latchedInpoll := none },
            { caches with events := cache }, fds'')
  | .unordered | .timerRepeat =>
      (caches.latchedInpolls.liberate fds sync.latchedInpoll sync.inpollLatch).map
        fun (cache, fds') =>
          ({ sync with inpollLatch := none, latchedInpoll := none },
            { caches with latchedInpolls := cache }, fds')
  | _ => none

/-- The event that `future_sync_finalize` puts into a cache. -/
def recycledEvent (type : FutureType) (sync : FutureSync) : Option Fd :=
  match type with
  | .networkConnect | .networkDisconnect | .networkSend | .networkRecv | .custom => sync.event
  | .join | .unordered | .timerRepeat => sync.inpollLatch
  | _ => none

end Udipe

import Udipe.Allocator.PointerCache
import Udipe.Lib.Machine
import Mathlib.Data.Multiset.AddSub

/-!
# Threads that share the cache of a context

Reference: `future/allocator.c` (`future_allocate_uninitialized`, `future_liberate_uninitialized`),
`future/allocator/thread_cache.c`, `future/allocator/context_cache.c`, `future/allocator/storage_page.c`.

Each thread has its own cache of future pointers, and all of them share the cache of the context under a
mutex. A step of a thread is one call of a function of the pointer cache, or one access to the mutex. A step
that follows a null pointer leaves the state undefined.
-/

namespace Udipe

open Function

/-- Where a thread is, with the pages and the future in its local variables. -/
inductive AllocatorPc (Page Storage : Type)
  /-- The thread has no cache, not yet or not any more. -/
  | unregistered
  | idle
  | allocateLock
  | allocateExtract
  | allocateObtain (futures : Page)
  | allocateInsertEmpty (futures empty : Page)
  | allocateInsertFutures (futures : Page)
  | allocateRefill
  | allocateUnlock
  | allocateRetry
  | liberateExtract (future : FuturePtr Storage)
  | liberateLock (future : FuturePtr Storage) (futures : Page)
  | liberateInsertFutures (future : FuturePtr Storage) (futures : Page)
  | liberateObtain (future : FuturePtr Storage)
  | liberateInsertEmpty (future : FuturePtr Storage) (empty : Page)
  | liberateUnlock (future : FuturePtr Storage)
  | liberateRetry (future : FuturePtr Storage)
  | spillLock
  | spill
  | spillUnlock
deriving DecidableEq

/-- The caches of a context and their users. `live` is history: the futures that have been allocated
and not been liberated since. -/
structure AllocatorState (T Page Storage : Type) where
  memory : PageMemory Page Storage
  /-- `context_cache->futures`, and below it `context_cache->mutex`. -/
  contextCache : PointerCache Page
  mutex : Option T
  /-- `thread_cache->futures`. -/
  threadCaches : T → PointerCache Page
  pc : T → AllocatorPc Page Storage
  /-- The storage pages, `context_cache->first_storage_page` and those after it. -/
  storages : Storage → Bool
  live : Multiset (FuturePtr Storage)
  undefined : Bool

/-- A call of a thread, or one step of the call it is in; `register` is the call that sets up its cache. `freshPages`,
`freshPage` and `freshStorage` are what the system's allocators answer, should they be asked. -/
inductive AllocatorEvent (T Page Storage : Type)
  | register (t : T) (freshPages : List Page)
  | allocate (t : T)
  | liberate (t : T) (future : FuturePtr Storage)
  | exit (t : T)
  | advance (t : T) (freshPage : Page) (freshStorage : Storage)

variable {T Page Storage : Type} [DecidableEq T]

namespace AllocatorState

/-- A null pointer has been followed. -/
def fault (s : AllocatorState T Page Storage) : AllocatorState T Page Storage :=
  { s with undefined := true }

/-- Thread `t` goes on to `pc`. -/
def goto (s : AllocatorState T Page Storage) (t : T) (pc : AllocatorPc Page Storage) :
    AllocatorState T Page Storage :=
  { s with pc := update s.pc t pc }

/-- Thread `t` has changed its own cache. -/
def setThread (s : AllocatorState T Page Storage) (t : T) (cache : PointerCache Page)
    (m : PageMemory Page Storage) : AllocatorState T Page Storage :=
  { s with memory := m, threadCaches := update s.threadCaches t cache }

/-- A thread has changed the cache of the context. -/
def setContext (s : AllocatorState T Page Storage) (cache : PointerCache Page)
    (m : PageMemory Page Storage) : AllocatorState T Page Storage :=
  { s with memory := m, contextCache := cache }

/-- `mtx_lock`: thread `t` waits while the mutex is locked. -/
def lock (s : AllocatorState T Page Storage) (t : T) (pc : AllocatorPc Page Storage) :
    Option (AllocatorState T Page Storage) :=
  if s.mutex = none then some { s.goto t pc with mutex := some t } else none

/-- `mtx_unlock`. -/
def unlock (s : AllocatorState T Page Storage) (t : T) (pc : AllocatorPc Page Storage) :
    AllocatorState T Page Storage :=
  { s.goto t pc with mutex := none }

end AllocatorState

variable [DecidableEq Page] [DecidableEq Storage]

/-- One step of thread `t` in its call. A page obtained from `malloc` is new, and so is a storage page. -/
def allocatorThreadStep (pageSize : ℕ) (t : T) (freshPage : Page) (freshStorage : Storage)
    (s : AllocatorState T Page Storage) : Option (AllocatorState T Page Storage) :=
  let capacity := futurePointerPageCapacity pageSize
  match s.pc t with
  | .unregistered | .idle => none
  -- `future_allocate_uninitialized`
  | .allocateLock => s.lock t .allocateExtract
  | .allocateExtract =>
      match futurePointerCacheExtractFutures s.memory s.contextCache with
      | (some futures, cache, m) => some ((s.setContext cache m).goto t (.allocateObtain futures))
      | (none, cache, m) => some ((s.setContext cache m).goto t .allocateRefill)
  | .allocateObtain futures =>
      let (empty, cache, m) := futurePointerCacheObtainEmpty s.memory (s.threadCaches t) freshPage
      if empty = freshPage ∧ s.memory.allocated freshPage = true then none
      else some ((s.setThread t cache m).goto t (.allocateInsertEmpty futures empty))
  | .allocateInsertEmpty futures empty =>
      let (cache, m) := futurePointerCacheInsertEmpty s.memory s.contextCache empty
      some ((s.setContext cache m).goto t (.allocateInsertFutures futures))
  | .allocateInsertFutures futures =>
      match futurePointerCacheInsertFutures capacity s.memory (s.threadCaches t) futures with
      | some (cache, m) => some ((s.setThread t cache m).goto t .allocateUnlock)
      | none => some s.fault
  | .allocateRefill =>
      if s.storages freshStorage = true then none
      else
        match futurePointerCacheRefillLocal (futureStoragePageLength pageSize) s.memory
            (s.threadCaches t) freshStorage with
        | some (cache, m) =>
            some { (s.setThread t cache m).goto t .allocateUnlock with
              storages := update s.storages freshStorage true }
        | none => some s.fault
  | .allocateUnlock => some (s.unlock t .allocateRetry)
  | .allocateRetry =>
      match futurePointerCacheAllocateLocal capacity s.memory (s.threadCaches t) with
      | some (some future, cache, m) =>
          some { (s.setThread t cache m).goto t .idle with live := future ::ₘ s.live }
      -- the caller does not expect a null pointer
      | some (none, _, _) | none => some s.fault
  -- `future_liberate_uninitialized`
  | .liberateExtract future =>
      match futurePointerCacheExtractFutures s.memory (s.threadCaches t) with
      | (some futures, cache, m) => some ((s.setThread t cache m).goto t (.liberateLock future futures))
      -- the page is used next
      | (none, _, _) => some s.fault
  | .liberateLock future futures => s.lock t (.liberateInsertFutures future futures)
  | .liberateInsertFutures future futures =>
      match futurePointerCacheInsertFutures capacity s.memory s.contextCache futures with
      | some (cache, m) => some ((s.setContext cache m).goto t (.liberateObtain future))
      | none => some s.fault
  | .liberateObtain future =>
      let (empty, cache, m) := futurePointerCacheObtainEmpty s.memory s.contextCache freshPage
      if empty = freshPage ∧ s.memory.allocated freshPage = true then none
      else some ((s.setContext cache m).goto t (.liberateInsertEmpty future empty))
  | .liberateInsertEmpty future empty =>
      let (cache, m) := futurePointerCacheInsertEmpty s.memory (s.threadCaches t) empty
      some ((s.setThread t cache m).goto t (.liberateUnlock future))
  | .liberateUnlock future => some (s.unlock t (.liberateRetry future))
  | .liberateRetry future =>
      -- the answer is ignored: without room, the future is lost
      match futurePointerCacheLiberateLocal capacity s.memory (s.threadCaches t) future with
      | some (_, cache, m) => some ((s.setThread t cache m).goto t .idle)
      | none => some s.fault
  -- `future_thread_cache_finalize_from_thread`
  | .spillLock => s.lock t .spill
  | .spill =>
      match futurePointerCacheSpill capacity freshPage ⟨s.threadCaches t, s.contextCache, s.memory⟩ with
      | some spilled =>
          some (((s.setThread t spilled.localCache spilled.memory).setContext spilled.globalCache
            spilled.memory).goto t .spillUnlock)
      | none => some s.fault
  | .spillUnlock => some (s.unlock t .unregistered)

/-- One step of one thread; `none` when the event cannot happen. Only a live future is liberated. -/
def allocatorStep (pageSize : ℕ) (s : AllocatorState T Page Storage) (e : AllocatorEvent T Page Storage) :
    Option (AllocatorState T Page Storage) :=
  let capacity := futurePointerPageCapacity pageSize
  if s.undefined then none else
  match e with
  | .register t freshPages =>
      if s.pc t = .unregistered ∧ freshPages.length = localFuturePointerPages ∧ freshPages.Nodup ∧
          ∀ p ∈ freshPages, s.memory.allocated p = false then
        let (cache, m) := futurePointerCacheInitializeLocal s.memory freshPages
        some ((s.setThread t cache m).goto t .idle)
      else none
  | .allocate t =>
      if s.pc t = .idle then
        match futurePointerCacheAllocateLocal capacity s.memory (s.threadCaches t) with
        | some (some future, cache, m) =>
            some { (s.setThread t cache m).goto t .idle with live := future ::ₘ s.live }
        | some (none, cache, m) => some ((s.setThread t cache m).goto t .allocateLock)
        | none => some s.fault
      else none
  | .liberate t future =>
      if s.pc t = .idle ∧ future ∈ s.live then
        match futurePointerCacheLiberateLocal capacity s.memory (s.threadCaches t) future with
        | some (true, cache, m) =>
            some { (s.setThread t cache m).goto t .idle with live := s.live.erase future }
        | some (false, cache, m) =>
            some { (s.setThread t cache m).goto t (.liberateExtract future) with
              live := s.live.erase future }
        | none => some s.fault
      else none
  | .exit t => if s.pc t = .idle then some (s.goto t .spillLock) else none
  | .advance t freshPage freshStorage => allocatorThreadStep pageSize t freshPage freshStorage s

/-- The machine of the allocator of one context. -/
def futureAllocator (pageSize : ℕ) :
    Machine (AllocatorState T Page Storage) (AllocatorEvent T Page Storage) where
  step := allocatorStep pageSize

omit [DecidableEq T] [DecidableEq Page] [DecidableEq Storage] in
/-- `future_context_cache_initialize`, before any thread has a cache. -/
def AllocatorState.start (pages : Page → PointerPage Page Storage) : AllocatorState T Page Storage where
  memory := ⟨pages, fun _ => false⟩
  contextCache := .initializeGlobal
  mutex := none
  threadCaches := fun _ => .initializeGlobal
  pc := fun _ => .unregistered
  storages := fun _ => false
  live := 0
  undefined := false

end Udipe

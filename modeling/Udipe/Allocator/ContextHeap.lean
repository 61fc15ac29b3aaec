import Udipe.Allocator.Threads
import Udipe.Context.Teardown
import Udipe.Lib.LinkedFree

/-!
# The memory of a context, from its first page to its last

Reference: `future/allocator/context_cache.c`, `future/allocator/storage_page.c`,
`future/allocator/pointer_cache.c` (`future_pointer_cache_finalize`), `future/allocator/thread_cache.c`
(`future_thread_cache_initialize`, `future_thread_cache_finalize_from_context`), `context.c`
(`future_thread_cache_destructor`).

`AllocatorState` is what the threads work on. `ContextHeap` adds the list of the storage pages and the array
of the thread caches, and the destructor of the context, which gives everything back while threads may still
be leaving. A step of the destructor handles one cache. Reading or freeing memory that is not allocated
leaves the state undefined, as does an access to the array behind its capacity.

A thread leaves through the destructor of its TSS slot, which is a parameter: what the machine does for it
is the thread half, and `future_thread_cache_destructor` calls the other one.
-/

namespace Udipe

open Function

variable {T Page Storage : Type}

/-! ## The storage pages -/

/-- `context_cache->first_storage_page`, and `next` of every storage page. -/
structure StorageList (Storage : Type) where
  firstStoragePage : Option Storage
  next : Storage → Option Storage

/-- `future_storage_allocate`, when `realtime_allocate` answers `new`. -/
def futureStorageAllocate [DecidableEq Storage] (list : StorageList Storage) (new : Storage) :
    StorageList Storage :=
  { firstStoragePage := some new, next := update list.next new list.firstStoragePage }

/-- `future_storage_liberate_all`, in at most `rounds` rounds; `storages` are the pages that are allocated. -/
def futureStorageLiberateAll [DecidableEq Storage] (rounds : ℕ) (list : StorageList Storage)
    (storages : Storage → Bool) : Except FreeError (StorageList Storage × (Storage → Bool)) := do
  let storages ← freeList list.next rounds list.firstStoragePage storages
  pure ({ list with firstStoragePage := none }, storages)

/-- `future_pointer_cache_finalize`, in at most `rounds` rounds. -/
def futurePointerCacheFinalize [DecidableEq Page] (rounds : ℕ) (m : PageMemory Page Storage)
    (cache : PointerCache Page) : Except FreeError (PointerCache Page × PageMemory Page Storage) := do
  let allocated ← freeList (fun p => (m.pages p).next) rounds cache.bottom m.allocated
  pure (⟨none, none, 0⟩, { m with allocated })

/-! ## The thread caches -/

/-- `context_cache->thread_caches`, with its length and its capacity. `allocated` says whether the array is. -/
structure ThreadCacheArray (T : Type) where
  threadCaches : ℕ → Option T
  length : ℕ
  capacity : ℕ
  allocated : Bool

namespace ThreadCacheArray

/-- The array that `future_context_cache_initialize` allocates: a page of pointers. -/
def initial (pageSize : ℕ) : ThreadCacheArray T :=
  ⟨fun _ => none, 0, pageSize / pointerSize, true⟩

/-- `thread_caches[i]`. -/
def get? (array : ThreadCacheArray T) (i : ℕ) : Option T :=
  if array.allocated ∧ i < array.capacity then array.threadCaches i else none

/-- `thread_caches[i] = cache`. -/
def set? (array : ThreadCacheArray T) (i : ℕ) (cache : T) : Option (ThreadCacheArray T) :=
  if array.allocated ∧ i < array.capacity then
    some { array with threadCaches := update array.threadCaches i (some cache) }
  else none

/-- `free(thread_caches)`, and what the structure is set to then. -/
def free? (array : ThreadCacheArray T) : Option (ThreadCacheArray T) :=
  if array.allocated then some ⟨fun _ => none, 0, 0, false⟩ else none

end ThreadCacheArray

/-- `future_context_cache_register_thread`, under the mutex. `realloc` keeps what is in the array. -/
def futureContextCacheRegisterThread (array : ThreadCacheArray T) (threadCache : T) :
    Option (ThreadCacheArray T) :=
  let array :=
    if array.length = array.capacity then { array with capacity := array.capacity * 2 } else array
  let index := array.length
  { array with length := array.length + 1 }.set? index threadCache

/-! ## The machine -/

/-- How far `future_context_cache_finalize` is. -/
inductive TeardownPc
  /-- It has not been called. -/
  | inUse
  /-- `future_context_cache_finalize_threads` has finalized the first `index` caches. -/
  | threads (index : ℕ)
  /-- The pointer cache and the storage pages of the context are left. -/
  | contextCache
  | done
deriving DecidableEq

/-- `future_context_cache_t`, with the thread caches and the memory that they hold. -/
structure ContextHeap (T Page Storage : Type) where
  allocator : AllocatorState T Page Storage
  storage : StorageList Storage
  threads : ThreadCacheArray T
  teardown : TeardownPc

/-- A step of a thread, the call of the destructor, or a step of the destructor, whose loops may take `rounds`
rounds. -/
inductive HeapEvent (T Page Storage : Type)
  | thread (e : AllocatorEvent T Page Storage)
  | finalize
  | finalizeNext (rounds : ℕ)

/-- `future_context_cache_initialize`. -/
def ContextHeap.start (pageSize : ℕ) (pages : Page → PointerPage Page Storage) :
    ContextHeap T Page Storage where
  allocator := .start pages
  storage := ⟨none, fun _ => none⟩
  threads := .initial pageSize
  teardown := .inUse

namespace ContextHeap

/-- Memory that is not allocated has been used. -/
def fault (s : ContextHeap T Page Storage) : ContextHeap T Page Storage :=
  { s with allocator := s.allocator.fault }

/-- The state after a loop over memory, which takes as many rounds as it needs. -/
def finish {α : Type} (s : ContextHeap T Page Storage) (result : Except FreeError α)
    (next : α → ContextHeap T Page Storage) : Option (ContextHeap T Page Storage) :=
  match result with
  | .ok a => some (next a)
  | .error .exhausted => none
  | .error .notAllocated => some s.fault

variable [DecidableEq T] [DecidableEq Page] [DecidableEq Storage]

/-- A step of a thread. The address of a new thread cache is not that of another one, and is added to the array
under the mutex; a new storage page is added to the list. -/
def threadStep (pageSize : ℕ) (s : ContextHeap T Page Storage) (e : AllocatorEvent T Page Storage) :
    Option (ContextHeap T Page Storage) := do
  let allocator ← allocatorStep pageSize s.allocator e
  match e with
  | .register t _ =>
      if s.allocator.mutex = none ∧ ∀ i < s.threads.length, s.threads.threadCaches i ≠ some t then
        match futureContextCacheRegisterThread s.threads t with
        | some threads => some { s with allocator, threads }
        | none => some s.fault
      else none
  | .advance t _ freshStorage =>
      if s.allocator.pc t = .allocateRefill then
        some { s with allocator, storage := futureStorageAllocate s.storage freshStorage }
      else some { s with allocator }
  | .allocate _ | .liberate _ _ | .exit _ => some { s with allocator }

/-- The destructor of the TSS slot of a thread that leaves. The thread has no logger: the context half reads
through a null pointer at its first log, if no assertion has ended the process before. -/
def exitStep (destructor : Half) (pageSize : ℕ) (s : ContextHeap T Page Storage) (t : T) :
    Option (ContextHeap T Page Storage) :=
  match destructor with
  | .thread => s.threadStep pageSize (.exit t)
  | .context => if s.allocator.pc t = .idle then some s.fault else none

/-- `future_thread_cache_finalize_from_context`. A cache that its thread has spilled is empty; the destructor
waits for a thread that is spilling. -/
def finalizeThreadCache (rounds : ℕ) (s : ContextHeap T Page Storage) (t : T) (teardown : TeardownPc) :
    Option (ContextHeap T Page Storage) :=
  match s.allocator.pc t with
  | .unregistered => some { s with teardown }
  | .idle =>
      s.finish (futurePointerCacheFinalize rounds s.allocator.memory (s.allocator.threadCaches t))
        fun (cache, memory) =>
          { s with allocator := (s.allocator.setThread t cache memory).goto t .unregistered, teardown }
  | _ => none

/-- A step of `future_context_cache_finalize`. -/
def finalizeStep (rounds : ℕ) (s : ContextHeap T Page Storage) : Option (ContextHeap T Page Storage) :=
  match s.teardown with
  | .inUse | .done => none
  | .threads i =>
      if i < s.threads.length then
        match s.threads.get? i with
        | some t => s.finalizeThreadCache rounds t (.threads (i + 1))
        | none => some s.fault
      else
        match s.threads.free? with
        | some threads => some { s with threads, teardown := .contextCache }
        | none => some s.fault
  | .contextCache =>
      -- `mtx_lock`
      if s.allocator.mutex ≠ none then none
      else
        s.finish (do
          let (cache, memory) ← futurePointerCacheFinalize rounds s.allocator.memory s.allocator.contextCache
          let (storage, storages) ← futureStorageLiberateAll rounds s.storage s.allocator.storages
          pure (cache, memory, storage, storages))
        fun (cache, memory, storage, storages) =>
          { s with
            allocator := { s.allocator.setContext cache memory with storages }, storage, teardown := .done }

/-- A step; `none` when the event cannot happen. -/
def step (destructor : Half) (pageSize : ℕ) (s : ContextHeap T Page Storage) (e : HeapEvent T Page Storage) :
    Option (ContextHeap T Page Storage) :=
  if s.allocator.undefined then none else
  match e with
  | .thread (.exit t) => s.exitStep destructor pageSize t
  | .thread e => s.threadStep pageSize e
  | .finalize => if s.teardown = .inUse then some { s with teardown := .threads 0 } else none
  | .finalizeNext rounds => s.finalizeStep rounds

end ContextHeap

/-- The machine of a context, its threads and its destructor. -/
def contextHeap (destructor : Half) (pageSize : ℕ) [DecidableEq T] [DecidableEq Page] [DecidableEq Storage] :
    Machine (ContextHeap T Page Storage) (HeapEvent T Page Storage) where
  step := ContextHeap.step destructor pageSize

/-! ## How a context is used -/

/-- The thread neither allocates nor liberates a future. -/
def AllocatorPc.outside : AllocatorPc Page Storage → Bool
  | .unregistered | .idle | .spillLock | .spill | .spillUnlock => true
  | _ => false

/-- The context is destroyed once nobody uses its futures, and no thread uses it after that; threads may leave
at any time. -/
def ContextHeap.Legal (s : ContextHeap T Page Storage) : HeapEvent T Page Storage → Prop
  | .thread (.register _ _) | .thread (.allocate _) | .thread (.liberate _ _) => s.teardown = .inUse
  | .finalize => ∀ t, (s.allocator.pc t).outside = true
  | .thread (.exit _) | .thread (.advance _ _ _) | .finalizeNext _ => True

end Udipe

import Udipe.Lib.Loops
import Mathlib.Logic.Function.Basic

/-!
# The cache of future pointers

Reference: `future/allocator/pointer_cache.h`, `future/allocator/pointer_cache.c`,
`future/allocator/storage_page.h`.

Pages of pointers live in a memory indexed by their addresses. A function has the result `none` where
the code would follow a null pointer. The size of a memory page is that of the operating system; the
fresh page of `malloc` is an argument. Assertions are compiled out.
-/

namespace Udipe

open Function

/-- `sizeof(udipe_future_t*)`. -/
def pointerSize : ℕ := 8

/-- `sizeof(udipe_future_t)`, which is `FALSE_SHARING_GRANULARITY`. -/
def futureSize : ℕ := 128

/-- `future_pointer_page_capacity`: what is left of a page after the two links. -/
def futurePointerPageCapacity (pageSize : ℕ) : ℕ := (pageSize - 2 * pointerSize) / pointerSize

/-- `future_storage_page_length`: what is left of a page after the link, which takes the room of one
future. -/
def futureStoragePageLength (pageSize : ℕ) : ℕ := (pageSize - futureSize) / futureSize

/-- `LOCAL_FUTURE_POINTER_PAGES`. -/
def localFuturePointerPages : ℕ := 2

/-- A `udipe_future_t*`: a storage page and the index of the future in it. -/
structure FuturePtr (Storage : Type) where
  storage : Storage
  index : ℕ
deriving DecidableEq

/-- `future_pointer_page_t`. -/
@[ext] structure PointerPage (Page Storage : Type) where
  previous : Option Page
  next : Option Page
  futures : ℕ → Option (FuturePtr Storage)

/-- The memory of the process, with the pages that have been allocated. -/
structure PageMemory (Page Storage : Type) where
  pages : Page → PointerPage Page Storage
  allocated : Page → Bool

/-- `future_pointer_cache_t`. -/
structure PointerCache (Page : Type) where
  bottom : Option Page
  top : Option Page
  numTopFutures : ℕ
deriving DecidableEq

variable {Page Storage : Type} [DecidableEq Page]

namespace PageMemory

/-- Writing a page. -/
def write (m : PageMemory Page Storage) (p : Page) (page : PointerPage Page Storage) :
    PageMemory Page Storage :=
  { m with pages := update m.pages p page }

/-- `p->previous = v`. -/
def setPrevious (m : PageMemory Page Storage) (p : Page) (v : Option Page) : PageMemory Page Storage :=
  m.write p { m.pages p with previous := v }

/-- `p->next = v`. -/
def setNext (m : PageMemory Page Storage) (p : Page) (v : Option Page) : PageMemory Page Storage :=
  m.write p { m.pages p with next := v }

/-- `p->futures[i] = v`. -/
def setFuture (m : PageMemory Page Storage) (p : Page) (i : ℕ) (v : Option (FuturePtr Storage)) :
    PageMemory Page Storage :=
  m.write p { m.pages p with futures := update (m.pages p).futures i v }

/-- `if (p) p->previous = v`. -/
def setPreviousIfAny (m : PageMemory Page Storage) (p v : Option Page) : PageMemory Page Storage :=
  match p with
  | some p => m.setPrevious p v
  | none => m

/-- `if (p) p->next = v`. -/
def setNextIfAny (m : PageMemory Page Storage) (p v : Option Page) : PageMemory Page Storage :=
  match p with
  | some p => m.setNext p v
  | none => m

end PageMemory

/-! ## Pages -/

/-- `future_pointer_page_initialize`, where `malloc` answers `fresh`. -/
def futurePointerPageInitialize (m : PageMemory Page Storage) (fresh : Page) :
    PageMemory Page Storage :=
  { pages := update m.pages fresh { previous := none, next := none, futures := fun _ => none }
    allocated := update m.allocated fresh true }

/-- The binary search of `future_pointer_page_occupancy`; `first_absent` stays above `last_present`. -/
def occupancySearch (futures : ℕ → Option (FuturePtr Storage)) (lastPresent firstAbsent : ℕ) : ℕ :=
  if lastPresent + 1 < firstAbsent then
    let midpoint := lastPresent + (firstAbsent - lastPresent) / 2
    if (futures midpoint).isSome then occupancySearch futures midpoint firstAbsent
    else occupancySearch futures lastPresent midpoint
  else firstAbsent
termination_by firstAbsent - lastPresent

/-- `future_pointer_page_occupancy`. -/
def futurePointerPageOccupancy (capacity : ℕ) (page : PointerPage Page Storage) : ℕ :=
  if page.futures 0 = none then 0
  else if (page.futures (capacity - 1)).isSome then capacity
  else occupancySearch page.futures 0 (capacity - 1)

/-- `future_pointer_page_unlink`. -/
def futurePointerPageUnlink (m : PageMemory Page Storage) (extracted : Page) :
    PageMemory Page Storage :=
  let m := m.setPreviousIfAny (m.pages extracted).next (m.pages extracted).previous
  let m := m.setNextIfAny (m.pages extracted).previous (m.pages extracted).next
  let m := m.setNext extracted none
  m.setPrevious extracted none

/-! ## The cache -/

/-- `future_pointer_cache_initialize(true)`. -/
def PointerCache.initializeGlobal : PointerCache Page := ⟨none, none, 0⟩

/-- `future_pointer_cache_initialize(false)`, where the answers of `malloc` are `fresh`, one for each of
the `LOCAL_FUTURE_POINTER_PAGES`. -/
def futurePointerCacheInitializeLocal (m : PageMemory Page Storage) (fresh : List Page) :
    PointerCache Page × PageMemory Page Storage :=
  let (current, m) := fresh.foldl (fun (s : Option Page × PageMemory Page Storage) page =>
      let next := s.1
      let m := futurePointerPageInitialize s.2 page
      let m := m.setNext page next
      (some page, m.setPreviousIfAny next (some page))) (none, m)
  (⟨current, current, 0⟩, m)

/-- `future_pointer_cache_allocate_local`. -/
def futurePointerCacheAllocateLocal (capacity : ℕ) (m : PageMemory Page Storage)
    (cache : PointerCache Page) :
    Option (Option (FuturePtr Storage) × PointerCache Page × PageMemory Page Storage) :=
  if cache.numTopFutures = 0 then some (none, cache, m)
  else do
    let lastIdx := cache.numTopFutures - 1
    let top ← cache.top
    let future := (m.pages top).futures lastIdx
    let m := m.setFuture top lastIdx none
    let cache := { cache with numTopFutures := cache.numTopFutures - 1 }
    if cache.numTopFutures = 0 then
      match (m.pages top).previous with
      | some previous =>
          some (future, { cache with top := some previous, numTopFutures := capacity }, m)
      | none => some (future, cache, m)
    else some (future, cache, m)

/-- `future_pointer_cache_liberate_local`. The future that it resets is not part of the memory of
pointer pages. -/
def futurePointerCacheLiberateLocal (capacity : ℕ) (m : PageMemory Page Storage)
    (cache : PointerCache Page) (future : FuturePtr Storage) :
    Option (Bool × PointerCache Page × PageMemory Page Storage) := do
  let top ← cache.top
  if cache.numTopFutures = capacity then
    match (m.pages top).next with
    | none => some (false, cache, m)
    | some next =>
        some (true, { cache with top := some next, numTopFutures := 0 + 1 },
          m.setFuture next 0 (some future))
  else
    some (true, { cache with numTopFutures := cache.numTopFutures + 1 },
      m.setFuture top cache.numTopFutures (some future))

/-- `future_pointer_cache_extract_futures`. -/
def futurePointerCacheExtractFutures (m : PageMemory Page Storage) (cache : PointerCache Page) :
    Option Page × PointerCache Page × PageMemory Page Storage :=
  if cache.numTopFutures = 0 then (none, cache, m)
  else
    match cache.bottom with
    | none => (none, cache, m)
    | some extracted =>
        let cache := { cache with bottom := (m.pages extracted).next }
        let cache :=
          if cache.top = some extracted then { cache with top := cache.bottom, numTopFutures := 0 }
          else cache
        (some extracted, cache, futurePointerPageUnlink m extracted)

/-- `future_pointer_cache_obtain_empty`, where `malloc` would answer `fresh`. -/
def futurePointerCacheObtainEmpty (m : PageMemory Page Storage) (cache : PointerCache Page)
    (fresh : Page) : Page × PointerCache Page × PageMemory Page Storage :=
  match cache.top with
  | none => (fresh, cache, futurePointerPageInitialize m fresh)
  | some top =>
      match (m.pages top).next with
      | some extracted => (extracted, cache, futurePointerPageUnlink m extracted)
      | none =>
          if 1 ≤ cache.numTopFutures then (fresh, cache, futurePointerPageInitialize m fresh)
          else (top, { cache with top := none, bottom := none }, m)

/-- `future_pointer_cache_insert_empty`. -/
def futurePointerCacheInsertEmpty (m : PageMemory Page Storage) (cache : PointerCache Page)
    (empty : Page) : PointerCache Page × PageMemory Page Storage :=
  match cache.top with
  | none => ({ cache with top := some empty, bottom := some empty }, m)
  | some top =>
      let m := m.setPrevious empty (some top)
      let m := m.setNext empty (m.pages top).next
      let m := m.setNext top (some empty)
      (cache, m.setPreviousIfAny (m.pages empty).next (some empty))

/-- The `memcpy` and the `memset` of `future_pointer_cache_insert_futures`: the last `movedFutures` of the
`numFutures` in `input` go to `top`, from `numTopFutures` on. -/
def moveFutures (m : PageMemory Page Storage) (input top : Page)
    (numFutures numTopFutures movedFutures : ℕ) : PageMemory Page Storage :=
  let source := numFutures - movedFutures
  let m := m.write top
    { m.pages top with
      futures := fun j =>
        if numTopFutures ≤ j ∧ j < numTopFutures + movedFutures then
          (m.pages input).futures (source + (j - numTopFutures))
        else (m.pages top).futures j }
  m.write input
    { m.pages input with
      futures := fun j =>
        if source ≤ j ∧ j < source + movedFutures then none else (m.pages input).futures j }

/-- `future_pointer_cache_insert_futures`. -/
def futurePointerCacheInsertFutures (capacity : ℕ) (m : PageMemory Page Storage)
    (cache : PointerCache Page) (nonEmpty : Page) :
    Option (PointerCache Page × PageMemory Page Storage) :=
  let numFutures := futurePointerPageOccupancy capacity (m.pages nonEmpty)
  if cache.numTopFutures = 0 ∨ numFutures = capacity then
    let m := m.setNext nonEmpty cache.bottom
    let m := m.setPreviousIfAny cache.bottom (some nonEmpty)
    let cache :=
      if cache.numTopFutures = 0 then
        { cache with top := some nonEmpty, numTopFutures := numFutures }
      else cache
    some ({ cache with bottom := some nonEmpty }, m)
  else do
    let top ← cache.top
    let topCapacity := capacity - cache.numTopFutures
    let movedFutures := if numFutures ≤ topCapacity then numFutures else topCapacity
    let input := nonEmpty
    let m := moveFutures m input top numFutures cache.numTopFutures movedFutures
    let cache := { cache with numTopFutures := cache.numTopFutures + movedFutures }
    let remainingFutures := numFutures - movedFutures
    if remainingFutures = 0 then some (futurePointerCacheInsertEmpty m cache input)
    else
      let m := m.setNext input (m.pages top).next
      let m := m.setPrevious input (some top)
      let m := m.setNext top (some input)
      let m := m.setPreviousIfAny (m.pages input).next (some input)
      some ({ cache with top := some input, numTopFutures := remainingFutures }, m)

/-- `future_pointer_cache_refill_local`. -/
def futurePointerCacheRefillLocal (storagePageLength : ℕ) (m : PageMemory Page Storage)
    (localCache : PointerCache Page) (newFutures : Storage) :
    Option (PointerCache Page × PageMemory Page Storage) := do
  let top ← localCache.top
  let m := forRange 0 storagePageLength m fun m i => m.setFuture top i (some ⟨newFutures, i⟩)
  some ({ localCache with numTopFutures := storagePageLength }, m)

/-! ## Spilling -/

/-- The two caches of `future_pointer_cache_spill` and the memory. -/
structure SpillState (Page Storage : Type) where
  localCache : PointerCache Page
  globalCache : PointerCache Page
  memory : PageMemory Page Storage

/-- The loop `while (local->num_top_futures != 0)`, of at most `fuel` rounds. -/
def spillFutures (capacity : ℕ) : (fuel : ℕ) → SpillState Page Storage →
    Option (SpillState Page Storage)
  | 0, _ => none
  | fuel + 1, s =>
      if s.localCache.numTopFutures = 0 then some s
      else do
        let (futures, localCache, m) := futurePointerCacheExtractFutures s.memory s.localCache
        let futures ← futures
        let (globalCache, m) ← futurePointerCacheInsertFutures capacity m s.globalCache futures
        spillFutures capacity fuel ⟨localCache, globalCache, m⟩

/-- The loop `while (local->top)`, of at most `fuel` rounds; `malloc` would answer `fresh`. -/
def spillEmpty (fresh : Page) : (fuel : ℕ) → SpillState Page Storage →
    Option (SpillState Page Storage)
  | 0, _ => none
  | fuel + 1, s =>
      if s.localCache.top = none then some s
      else
        let (empty, localCache, m) := futurePointerCacheObtainEmpty s.memory s.localCache fresh
        let (globalCache, m) := futurePointerCacheInsertEmpty m s.globalCache empty
        spillEmpty fresh fuel ⟨localCache, globalCache, m⟩

/-- `future_pointer_cache_spill`. Each loop takes out a page a round, and a local cache has
`LOCAL_FUTURE_POINTER_PAGES`. -/
def futurePointerCacheSpill (capacity : ℕ) (fresh : Page) (s : SpillState Page Storage) :
    Option (SpillState Page Storage) := do
  let s ← spillFutures capacity (localFuturePointerPages + 1) s
  spillEmpty fresh (localFuturePointerPages + 1) s

end Udipe

import Udipe.Lib.Checked
import Mathlib.Data.BitVec

/-!
# The two halves of the teardown of a thread cache

Reference: `future/allocator/thread_cache.h`, `future/allocator/thread_cache.c`.

A thread cache is emptied by its thread, which spills it into the global cache, or by `udipe_finalize`,
whichever sets its `DYING` flag first. The struct is freed by the half that sets its `DONE` flag last.

Here are the steps of both halves that touch the cache. What they do to the context is in
`Context.Teardown`.
-/

namespace Udipe

open Checked

/-! ## The flags -/

/-- `THREAD_CACHE_THREAD_DYING`. -/
def threadDying : BitVec 32 := 1
/-- `THREAD_CACHE_CONTEXT_DYING`. -/
def contextDying : BitVec 32 := 2
/-- `THREAD_CACHE_EMPTIED`. -/
def emptied : BitVec 32 := 4
/-- `THREAD_CACHE_THREAD_DONE`. -/
def threadDone : BitVec 32 := 8
/-- `THREAD_CACHE_CONTEXT_DONE`. -/
def contextDone : BitVec 32 := 16

/-- The assertions of the two halves, and what a log without a logger ends with: the assertion of
`validate_log`, or the read of `min_level` through a null pointer. -/
inductive CacheFailure where
  | threadDyingTwice
  | threadEmptiesTwice
  | threadDoneTwice
  | threadFreesEarly
  | contextDyingTwice
  | contextEmptiesTwice
  | contextDoneTwice
  | contextFreesEarly
  | noLogger
  | nullLogger
deriving DecidableEq, Repr

/-- The half that empties a cache. -/
inductive Half where
  | thread
  | context
deriving DecidableEq, Repr

/-- A thread cache. The counts are history: how often its pointers and its event objects were
disposed of, the struct was freed, and a context half has begun. So is `emptier`: the half that came
first. -/
structure ThreadCache where
  flags : BitVec 32
  futures : List ℕ
  futuresEmptied : ℕ
  eventsEmptied : ℕ
  freed : ℕ
  contextHalves : ℕ
  emptier : Option Half
deriving DecidableEq

/-- The cache that `future_thread_cache_initialize` makes. -/
def futureThreadCacheInitialize : ThreadCache where
  flags := 0
  futures := []
  futuresEmptied := 0
  eventsEmptied := 0
  freed := 0
  contextHalves := 0
  emptier := none

/-- `atomic_fetch_or_explicit(&cache->flags, flag)`. -/
def ThreadCache.fetchOr (cache : ThreadCache) (flag : BitVec 32) : ThreadCache :=
  { cache with flags := cache.flags ||| flag }

/-- The half that set the first `DYING` flag. -/
def ThreadCache.claim (cache : ThreadCache) (half : Half) : ThreadCache :=
  { cache with emptier := cache.emptier <|> some half }

/-- The pointers are spilled or liberated. -/
def ThreadCache.emptyFutures (cache : ThreadCache) : ThreadCache :=
  { cache with futures := [], futuresEmptied := cache.futuresEmptied + 1 }

/-- The event objects are liberated. -/
def ThreadCache.emptyEvents (cache : ThreadCache) : ThreadCache :=
  { cache with eventsEmptied := cache.eventsEmptied + 1 }

/-- `free(cache)`. -/
def ThreadCache.free (cache : ThreadCache) : ThreadCache := { cache with freed := cache.freed + 1 }

/-! ## `future_thread_cache_finalize_from_thread` -/

/-- Where the thread half is. -/
inductive ThreadHalfPc where
  | dying
  | lock
  | spill
  | unlock
  | events
  | emptied
  | wake
  | release
  | freeContext
  | clear
  | done
  | freeCache
  | finished
deriving DecidableEq, Repr

/-- The steps of the thread half on its cache. At the other points it works on the context. -/
def threadHalfStep (assertions : Bool) (cache : ThreadCache) :
    ThreadHalfPc → Except CacheFailure (ThreadCache × ThreadHalfPc)
  | .dying => do
      let previousFlags := cache.flags
      assertion assertions (previousFlags &&& (threadDying ||| threadDone) == 0) .threadDyingTwice
      let cache := cache.fetchOr threadDying
      if previousFlags &&& contextDying = 0 then pure (cache.claim .thread, .lock)
      else pure (cache, .release)
  | .spill => pure (cache.emptyFutures, .unlock)
  | .events => pure (cache.emptyEvents, .emptied)
  | .emptied => do
      let previousFlags := cache.flags
      assertion assertions (previousFlags &&& (emptied ||| threadDone) == 0) .threadEmptiesTwice
      pure (cache.fetchOr emptied, if previousFlags &&& contextDying ≠ 0 then .wake else .release)
  | .clear => pure (cache, .done)
  | .done => do
      let previousFlags := cache.flags
      assertion assertions (previousFlags &&& threadDone == 0) .threadDoneTwice
      let cache := cache.fetchOr threadDone
      if previousFlags &&& contextDone ≠ 0 then
        assertion assertions (previousFlags &&& contextDying != 0) .threadFreesEarly
        assertion assertions (previousFlags &&& emptied != 0) .threadFreesEarly
        pure (cache, .freeCache)
      else pure (cache, .finished)
  | .freeCache => pure (cache.free, .finished)
  | pc => pure (cache, pc)

/-! ## `future_thread_cache_finalize_from_context` -/

/-- Where the context half is. `previousFlags` is its view of the flags. -/
inductive ContextHalfPc where
  | dying
  | liberate
  | events
  | emptied
  | wait (previousFlags : BitVec 32)
  | blocked (previousFlags : BitVec 32)
  | reload
  | yield
  | done
  | freeCache
  | finished
deriving DecidableEq, Repr

/-- The loop that busy-waits for `THREAD_DONE`. -/
def awaitThreadDone (previousFlags : BitVec 32) : ContextHalfPc :=
  if previousFlags &&& threadDone = 0 then .yield else .done

/-- The loop that waits for `EMPTIED`. -/
def awaitEmptied (previousFlags : BitVec 32) : ContextHalfPc :=
  if previousFlags &&& emptied = 0 then .wait previousFlags else awaitThreadDone previousFlags

/-- The steps of the context half. `success` is what `wait_on_address` returns when a sleep ends by
itself. -/
def contextHalfStep (assertions success : Bool) (cache : ThreadCache) :
    ContextHalfPc → Except CacheFailure (ThreadCache × ContextHalfPc)
  | .dying => do
      let previousFlags := cache.flags
      assertion assertions (previousFlags &&& (contextDying ||| contextDone) == 0) .contextDyingTwice
      let cache := { cache.fetchOr contextDying with contextHalves := cache.contextHalves + 1 }
      if previousFlags &&& threadDying = 0 then pure (cache.claim .context, .liberate)
      else pure (cache, awaitEmptied previousFlags)
  | .liberate => pure (cache.emptyFutures, .events)
  | .events => pure (cache.emptyEvents, .emptied)
  | .emptied => do
      let previousFlags := cache.flags
      assertion assertions (previousFlags &&& (emptied ||| contextDone) == 0) .contextEmptiesTwice
      pure (cache.fetchOr emptied, .done)
  | .wait previousFlags =>
      pure (cache, if cache.flags = previousFlags then .blocked previousFlags else .reload)
  | .blocked previousFlags => pure (cache, if success then .reload else .wait previousFlags)
  | .reload => pure (cache, awaitEmptied cache.flags)
  | .yield => pure (cache, awaitThreadDone cache.flags)
  | .done => do
      let previousFlags := cache.flags
      assertion assertions (previousFlags &&& contextDone == 0) .contextDoneTwice
      let cache := cache.fetchOr contextDone
      if previousFlags &&& threadDone ≠ 0 then
        assertion assertions (previousFlags &&& threadDying != 0) .contextFreesEarly
        assertion assertions (previousFlags &&& emptied != 0) .contextFreesEarly
        pure (cache, .freeCache)
      else pure (cache, .finished)
  | .freeCache => pure (cache.free, .finished)
  | .finished => pure (cache, .finished)

/-- `wake_by_address_all(&cache->flags)`. -/
def ContextHalfPc.wake : ContextHalfPc → ContextHalfPc
  | .blocked _ => .reload
  | pc => pc

end Udipe

import Udipe.Context.RefcountedTss
import Udipe.Context.ThreadCache

/-!
# Thread exit and `udipe_finalize`

Reference: `context.c`, `future/allocator/thread_cache.c`, `future/allocator/context_cache.c`.

Threads that use a context get a thread cache, registered with the context and found through the
reference-counted slot `future_local_cache_key`. A thread that exits runs the destructor of the slot;
`udipe_finalize` runs the context half of the teardown on every registered cache, finalizes the other
members of the context and discards the slot. Whoever takes the last reference to the slot frees the
context.

`destructor` says which half the destructor of the slot performs, `future_thread_cache_destructor` which
one it performs in the source. The context half starts with a log. `udipe_finalize` has a logger for it.
A thread that exits has none, as every public function has restored the null pointer that it found.
-/

namespace Udipe

open Function

/-- `future_thread_cache_destructor` calls `future_thread_cache_finalize_from_context`. -/
def futureThreadCacheDestructor : Half := .context

/-- Where the destructor of a thread's slot is. -/
inductive DestructorPc where
  | notRun
  | threadHalf (pc : ThreadHalfPc)
  /-- At `LOGGED_FUNCTION_START` in `future_thread_cache_finalize_from_context`. -/
  | contextHalf
deriving DecidableEq, Repr

/-- The first point of the destructor. -/
def Half.destructorPc : Half → DestructorPc
  | .thread => .threadHalf .dying
  | .context => .contextHalf

/-- What ends the log of a thread that has no logger. -/
def logWithoutLogger (assertions : Bool) : CacheFailure :=
  if assertions then .noLogger else .nullLogger

/-- Where `udipe_finalize` is. `caches i` is the loop of `future_context_cache_finalize_threads`. -/
inductive FinalizerPc where
  | outside
  | caches (i : ℕ)
  | globals
  | logger
  | discard
  | freeContext
  | finished
deriving DecidableEq, Repr

/-- A context, the threads that use it and `udipe_finalize`. `contextHalf t` is where the context half
of `udipe_finalize` on the cache of thread `t` is. `contextFreed` is history. -/
structure TeardownState (Tid : Type) (w : ℕ) where
  tss : TssState Tid w
  caches : Tid → ThreadCache
  destructor : Tid → DestructorPc
  contextHalf : Tid → ContextHalfPc
  threadCaches : List Tid
  mutex : Option Tid
  globalFutures : List ℕ
  finalizer : FinalizerPc
  loggerAlive : Bool
  contextFreed : ℕ
  aborted : Option CacheFailure

/-- One step of one party. `success` is what `wait_on_address` returns when a sleep of `udipe_finalize`
ends by itself. -/
inductive TeardownEvent (Tid : Type) where
  | acquire (t : Tid)
  | use (t : Tid)
  | store (t : Tid) (future : ℕ)
  | exit (t : Tid)
  | destructor (t : Tid)
  | finalize
  | finalizer (success : Bool)
deriving DecidableEq

/-- Where the thread half goes on while or after it releases the slot. -/
def afterTssRelease : TssPc → ThreadHalfPc
  | .released true => .freeContext
  | .released false => .clear
  | _ => .release

/-- Where `udipe_finalize` goes on while or after it discards the slot. -/
def afterTssDiscard : TssDiscardPc → FinalizerPc
  | .returned true => .freeContext
  | .returned false => .finished
  | _ => .discard

section

variable {Tid : Type} [DecidableEq Tid] [Fintype Tid] {w : ℕ}

/-- Thread `t` is at a point of the thread half. -/
def TeardownState.atThreadHalf (s : TeardownState Tid w) (t : Tid) (pc : ThreadHalfPc) :
    TeardownState Tid w :=
  { s with destructor := update s.destructor t (.threadHalf pc) }

/-- One step of the thread half in thread `t`. -/
def threadHalfSystemStep (assertions : Bool) (s : TeardownState Tid w) (t : Tid) :
    ThreadHalfPc → Option (TeardownState Tid w)
  | .lock => if s.mutex = none then some { s.atThreadHalf t .spill with mutex := some t } else none
  | .spill =>
      some { s.atThreadHalf t .unlock with
        caches := update s.caches t (s.caches t).emptyFutures
        globalFutures := (s.caches t).futures ++ s.globalFutures }
  | .unlock => some { s.atThreadHalf t .events with mutex := none }
  | .wake =>
      some { s.atThreadHalf t .release with
        contextHalf := update s.contextHalf t (s.contextHalf t).wake }
  | .release =>
      ((refcountedTss assertions).step s.tss (.thread t)).map fun tss =>
        { s.atThreadHalf t (afterTssRelease (tss.threads t).pc) with tss := tss }
  | .freeContext => some { s.atThreadHalf t .clear with contextFreed := s.contextFreed + 1 }
  | .finished => none
  | pc =>
      match threadHalfStep assertions (s.caches t) pc with
      | .ok (cache, pc) => some { s.atThreadHalf t pc with caches := update s.caches t cache }
      | .error f => some { s with aborted := some f }

/-- One step of `udipe_finalize`. -/
def finalizerStep (assertions success : Bool) (s : TeardownState Tid w) :
    FinalizerPc → Option (TeardownState Tid w)
  | .caches i =>
      match s.threadCaches[i]? with
      | none => some { s with finalizer := .globals }
      | some t =>
          if s.contextHalf t = .finished then some { s with finalizer := .caches (i + 1) }
          else
            match contextHalfStep assertions success (s.caches t) (s.contextHalf t) with
            | .ok (cache, pc) =>
                some { s with
                  caches := update s.caches t cache
                  contextHalf := update s.contextHalf t pc }
            | .error f => some { s with aborted := some f }
  | .globals =>
      if s.mutex = none then some { s with finalizer := .logger, globalFutures := [] } else none
  | .logger => some { s with finalizer := .discard, loggerAlive := false }
  | .discard =>
      let event := if s.tss.discard = .outside then .discard else .discarder
      ((refcountedTss assertions).step s.tss event).map fun tss =>
        { s with finalizer := afterTssDiscard tss.discard, tss := tss }
  | .freeContext =>
      some { s with finalizer := .finished, contextFreed := s.contextFreed + 1 }
  | .outside | .finished => none

/-- One step of one party; `none` when the event cannot happen. No public function runs when
`udipe_finalize` starts, and none is called afterwards. -/
def teardownStep (assertions : Bool) (destructor : Half) (s : TeardownState Tid w)
    (e : TeardownEvent Tid) : Option (TeardownState Tid w) :=
  if s.aborted.isSome then none else
  match e with
  | .acquire t =>
      if s.finalizer = .outside then
        ((refcountedTss assertions).step s.tss (.acquire t)).map fun tss => { s with tss := tss }
      else none
  | .use t =>
      if (s.tss.threads t).pc.acquiring then
        ((refcountedTss assertions).step s.tss (.thread t)).map fun tss =>
          -- the constructor makes a thread cache and registers it with the context
          if (s.tss.threads t).pc = .createConstruct then
            { s with
              tss := tss
              caches := update s.caches t futureThreadCacheInitialize
              threadCaches := s.threadCaches ++ [t] }
          else { s with tss := tss }
      else none
  | .store t future =>
      if s.finalizer = .outside ∧ s.tss.threads t = { pc := .outside, slot := true } then
        some { s with
          caches := update s.caches t
            { s.caches t with futures := future :: (s.caches t).futures } }
      else none
  | .exit t =>
      ((refcountedTss assertions).step s.tss (.exit t)).map fun tss =>
        { s with tss := tss, destructor := update s.destructor t destructor.destructorPc }
  | .destructor t =>
      match s.destructor t with
      | .notRun => none
      | .threadHalf pc => threadHalfSystemStep assertions s t pc
      | .contextHalf => some { s with aborted := some (logWithoutLogger assertions) }
  | .finalize =>
      if s.finalizer = .outside ∧ ∀ t, (s.tss.threads t).pc.acquiring = false then
        some { s with finalizer := .caches 0 }
      else none
  | .finalizer success => finalizerStep assertions success s s.finalizer

/-- The machine of one context. -/
def teardown (assertions : Bool) (destructor : Half) :
    Machine (TeardownState Tid w) (TeardownEvent Tid) where
  step := teardownStep assertions destructor

end

/-- The state after `udipe_initialize`. -/
def TeardownState.start (Tid : Type) (w : ℕ) : TeardownState Tid w where
  tss := .start Tid w
  caches := fun _ => futureThreadCacheInitialize
  destructor := fun _ => .notRun
  contextHalf := fun _ => .dying
  threadCaches := []
  mutex := none
  globalFutures := []
  finalizer := .outside
  loggerAlive := true
  contextFreed := 0
  aborted := none

end Udipe

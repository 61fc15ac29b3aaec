import Udipe.Future.SyncCaches
import Udipe.Future.System

/-!
# Many futures that share the caches of their threads

Reference: `future/allocator.c` (`future_allocate`, `future_liberate`), `future/status_sync.h`.

The pool runs the machine of one future for each of any number of futures, each with its own number of
upstreams, and adds what these share: the descriptors of the process and the caches of each thread. A
key stands for one life of a future: the memory of a liberated future may serve a later key.
-/

namespace Udipe

open Function

/-- One future of the pool. -/
structure FutureEntry (Tid P : Type) (n : ℕ) where
  future : State Tid P n
  sync : FutureSync
  /-- What the worker read from `status_sync.event` for its `event_signal`. -/
  fetched : Option (Option Fd)

/-- The state of the pool. -/
structure PoolState (Tid Key P : Type) (arity : Key → ℕ) where
  fds : Descriptors
  caches : Tid → SyncCaches
  futures : (i : Key) → Option (FutureEntry Tid P (arity i))

/-- One step in the pool. -/
inductive PoolEvent (Tid Key P : Type) (arity : Key → ℕ) where
  /-- Thread `t` allocates future `i` and gives it its first status. -/
  | start (t : Tid) (i : Key) (status : FutureStatus) (payload : P)
      (upstream : Fin (arity i) → FutureStatus) (fresh : FreshFds)
  /-- A step of one party of future `i`. -/
  | step (i : Key) (e : Event Tid P (arity i))
  /-- The worker of future `i` reads `status_sync.event`, from the memory of `successor` if `i` was
  liberated and its memory serves again. -/
  | fetchEvent (i : Key) (successor : Option Key)

variable {Tid Key P : Type} {arity : Key → ℕ} {n : ℕ}

/-- No future yet, and empty caches. -/
def PoolState.start : PoolState Tid Key P arity where
  fds := fun _ => none
  caches := fun _ => .initial
  futures := fun _ => none

/-- The future as its next step sees it: the kernel says whether its event and its latch are
readable. -/
def FutureEntry.observe (entry : FutureEntry Tid P n) (fds : Descriptors) : State Tid P n :=
  { entry.future with
    shared := { entry.future.shared with
      event := fds.signaled entry.sync.event
      latch := fds.signaled entry.sync.inpollLatch } }

/-- `future_notify_eager_outcome` is about to signal the event. -/
def WorkerPc.signals : WorkerPc P → Bool
  | .notifyEvent _ status => status.notifyEventOrLazyLock
  | _ => false

/-- What a step of a client thread does to the descriptors, the caches and the future's references. -/
def clientSync (entry : FutureEntry Tid P n) (caches : SyncCaches) (fds : Descriptors) :
    Pc P n → Option (FutureSync × SyncCaches × Descriptors)
  | .joinSignal _ _ => (eventSignal fds entry.sync.inpollLatch).map (entry.sync, caches, ·)
  | .cancelLatch _ _ =>
      if entry.sync.inpollLatch.isSome then
        (eventSignal fds entry.sync.inpollLatch).map (entry.sync, caches, ·)
      else some (entry.sync, caches, fds)
  | .finishLiberate _ _ =>
      futureSyncFinalize entry.future.shared.word.type entry.sync caches fds
  | _ => some (entry.sync, caches, fds)

/-- What a step of the worker does to the descriptors. -/
def workerSync (entry : FutureEntry Tid P n) (fds : Descriptors) : Option Descriptors :=
  if entry.future.worker.signals then entry.fetched.bind (eventSignal fds) else some fds

section

variable [DecidableEq Tid] [Fintype Tid] [DecidableEq Key]

/-- One step; `none` when the event cannot happen or ends the process. -/
def poolStep (b : Build) (s : PoolState Tid Key P arity) :
    PoolEvent Tid Key P arity → Option (PoolState Tid Key P arity)
  | .start t i status payload upstream fresh =>
      if (s.futures i).isNone && status.debugCheck true && status.available &&
          fresh.allowed s.fds then
        (futureSyncInitialize b status.type (s.caches t) s.fds fresh).map fun (sync, caches, fds) =>
          { fds := fds
            caches := update s.caches t caches
            futures := update s.futures i
              (some { future := .start status payload upstream, sync := sync, fetched := none }) }
      else none
  | .step i e => do
      let entry ← s.futures i
      let future ← (Udipe.future b).step (entry.observe s.fds) e
      if future.shared.aborted.isSome then none else
      match e with
      | .client t _ =>
          let (sync, caches, fds) ←
            clientSync entry (s.caches t) s.fds (entry.future.pc t)
          pure { fds := fds
                 caches := update s.caches t caches
                 futures := update s.futures i (some { entry with future := future, sync := sync }) }
      | .worker _ =>
          let fds ← workerSync entry s.fds
          pure { s with
            fds := fds
            futures := update s.futures i
              (some { entry with future := future, fetched := none }) }
      | _ => pure { s with futures := update s.futures i (some { entry with future := future }) }
  | .fetchEvent i successor => do
      let entry ← s.futures i
      if entry.future.worker.signals then
        match successor with
        | none =>
            pure { s with
              futures := update s.futures i (some { entry with fetched := some entry.sync.event }) }
        | some j =>
            let other ← s.futures j
            if entry.future.shared.liberated && !other.future.shared.liberated then
              pure { s with
                futures :=
                  update s.futures i (some { entry with fetched := some other.sync.event }) }
            else none
      else none

/-- The machine of the pool. -/
def pool (b : Build) : Machine (PoolState Tid Key P arity) (PoolEvent Tid Key P arity) where
  step := poolStep b

end

end Udipe

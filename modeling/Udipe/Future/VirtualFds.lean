import Udipe.Future.Rings
import Udipe.Lib.Checked

/-!
# The descriptors of futures and what the kernel makes of them

Reference: `fd.h`, `event.h`, `timer.h`, `inpoll.c`, `future/latched_inpoll.c`, `future/allocator/sync_caches.h`,
`future/allocator/sync_caches.c`, `future/allocator.c` (`future_sync_initialize`, `future_sync_finalize`), the Linux
branches.

The kernel keeps a table of open descriptors and, for each epollfd, the descriptors registered with it. What it
answers where it has a choice, which descriptor is next, whether epollfds are nested too deeply and when it has run
out of something, is a `Kernel`. The counters of eventfds and timerfds are left out: none of these functions reads
them. `FD_INVALID` is `none`.
-/

namespace Udipe.VirtualFds

open Function

/-! ## The kernel -/

/-- What is behind an open descriptor. -/
inductive VirtualFile where
  | eventfd
  | timerfd
  /-- Each registered descriptor, with its identifier. -/
  | epollfd (interest : Fd → Option ℕ)

/-- The open descriptors of the process. -/
abbrev FdTable := Fd → Option VirtualFile

/-- `fd` is registered with the epollfd `poll`. -/
def FdTable.Monitors (table : FdTable) (poll fd : Fd) : Prop :=
  ∃ interest, table poll = some (.epollfd interest) ∧ (interest fd).isSome = true

/-- `errno`. -/
inductive Errno where
  /-- The limit on the descriptors of the process. -/
  | emfile
  /-- The limit on the descriptors of the system. -/
  | enfile
  | enomem
  /-- The limit on epoll watches. -/
  | enospc
  | ebadf
  | einval
  | eloop
  | eexist
  | enoent
deriving DecidableEq, Repr

/-- Why the kernel makes no descriptor. -/
def createErrnos : List Errno := [.emfile, .enfile, .enomem]

/-- Why it registers nothing, where it could. -/
def watchErrnos : List Errno := [.enospc, .enomem]

/-- Why it does not set up a future. -/
def allocateErrnos : List Errno := createErrnos ++ watchErrnos

/-- The choices of the kernel. -/
structure Kernel where
  /-- The descriptor that is given next. -/
  fresh : FdTable → Except Errno Fd
  /-- It is not in use. -/
  fresh_free : ∀ table fd, fresh table = .ok fd → table fd = none
  fresh_errno : ∀ table errno, fresh table = .error errno → errno ∈ createErrnos
  /-- Why a descriptor is not registered with an epollfd. -/
  watch : FdTable → Fd → Fd → Except Errno Unit
  watch_errno : ∀ table poll fd errno, watch table poll fd = .error errno → errno ∈ watchErrnos
  /-- Registering a descriptor with an epollfd would nest epollfds in a loop or too deeply. -/
  nested : FdTable → Fd → Fd → Bool
  /-- An epollfd that monitors nothing may be registered with one that nothing monitors. -/
  nested_law : ∀ table poll fd, nested table poll fd = true →
    (∃ interest, table fd = some (.epollfd interest)) ∧
      ((∃ q, table.Monitors q poll) ∨ ∃ q, table.Monitors fd q)

/-- What is logged before the process ends. -/
inductive ExitMessage where
  /-- "The number of fds in current process reached the limit." -/
  | processLimit
  /-- "The number of fds in the system reached the limit." -/
  | systemLimit
  /-- "The number of epoll attachments the system limit." -/
  | watchLimit
  /-- "Called close_virtual_fd() on an invalid fd." -/
  | invalidFd
  /-- "This error is not expected to happen!" -/
  | unexpected
deriving DecidableEq, Repr

/-- Why the process ends. -/
inductive Exit where
  /-- `exit_after_c_error`, which logs `errno` if it is not zero. -/
  | afterError (errno : Option Errno) (message : ExitMessage)
  | assertion
deriving DecidableEq, Repr

/-- The process ends after one of these errors. -/
def Exit.IsAfter (errnos : List Errno) (x : Exit) : Prop :=
  ∃ errno ∈ errnos, ∃ message, x = .afterError (some errno) message

/-- An error that no call was expected to leave behind. -/
def Exit.unexpected : Exit := .afterError none .unexpected

/-- Code that makes system calls. -/
abbrev Syscalls := StateT FdTable (Except Exit)

/-- A new descriptor, or a switch on the error. -/
def Kernel.create (k : Kernel) (file : VirtualFile) (message : Errno → ExitMessage) : Syscalls Fd := fun table =>
  match k.fresh table with
  | .ok fd => .ok (fd, update table fd (some file))
  | .error errno => .error (.afterError (some errno) (message errno))

/-- The switch of `event_initialize` and `timer_initialize`. -/
def createMessage : Errno → ExitMessage
  | .emfile => .processLimit
  | .enfile => .systemLimit
  | _ => .unexpected

/-- `event_initialize(false)`. -/
def eventInitialize (k : Kernel) : Syscalls Fd := k.create .eventfd createMessage

/-- `timer_initialize`. -/
def timerInitialize (k : Kernel) : Syscalls Fd := k.create .timerfd createMessage

/-- `inpoll_initialize`. It switches on the result of `epoll_create1`, which is -1 and none of the cases. -/
def inpollInitialize (k : Kernel) : Syscalls Fd := k.create (.epollfd fun _ => none) fun _ => .unexpected

/-- What is left of a file when `fd` is closed. -/
def VirtualFile.forget (fd : Fd) : VirtualFile → VirtualFile
  | .epollfd interest => .epollfd (update interest fd none)
  | file => file

/-- `close`. The kernel drops the registrations of a closed descriptor. -/
def FdTable.close (table : FdTable) (fd : Fd) : FdTable :=
  fun q => (update table fd none q).map (VirtualFile.forget fd)

/-- `close_virtual_fd`, and so `event_finalize`, `timer_finalize` and `inpoll_finalize`. The caller's `fd` becomes
invalid. -/
def closeVirtualFd (fd : Option Fd) : Syscalls Unit := fun table =>
  match fd with
  | none => .error .assertion
  | some fd => if (table fd).isSome then .ok ((), table.close fd) else .error (.afterError (some .ebadf) .invalidFd)

/-- `epoll_ctl(poll, EPOLL_CTL_ADD, fd, identifier)`. -/
def Kernel.epollAdd (k : Kernel) (table : FdTable) (poll fd : Fd) (identifier : ℕ) : Except Errno FdTable :=
  match table poll, table fd with
  | some (.epollfd interest), some _ =>
      if poll = fd then .error .einval
      else if k.nested table poll fd then .error .eloop
      else if (interest fd).isSome then .error .eexist
      else (k.watch table poll fd).map fun _ =>
        update table poll (some (.epollfd (update interest fd (some identifier))))
  | some _, some _ => .error .einval
  | _, _ => .error .ebadf

/-- `epoll_ctl(poll, EPOLL_CTL_DEL, fd, NULL)`. -/
def epollDel (table : FdTable) (poll fd : Fd) : Except Errno FdTable :=
  match table poll, table fd with
  | some (.epollfd interest), some _ =>
      if poll = fd then .error .einval
      else if (interest fd).isSome then .ok (update table poll (some (.epollfd (update interest fd none))))
      else .error .enoent
  | some _, some _ => .error .einval
  | _, _ => .error .ebadf

/-- `inpoll_attach_result_t`. -/
inductive InpollAttachResult where
  | success
  | tooNested
  | redundant
deriving DecidableEq, Repr

/-- `inpoll_attach`. -/
def inpollAttach (k : Kernel) (poll upstreamFd : Fd) (identifier : ℕ) : Syscalls InpollAttachResult := fun table =>
  match k.epollAdd table poll upstreamFd identifier with
  | .ok table' => .ok (.success, table')
  | .error .eloop => .ok (.tooNested, table)
  | .error .enospc => .error (.afterError (some .enospc) .watchLimit)
  | .error .eexist => .ok (.redundant, table)
  | .error errno => .error (.afterError (some errno) .unexpected)

/-- `inpoll_detach_result_t`. -/
inductive InpollDetachResult where
  | success
  | nonexistent
deriving DecidableEq, Repr

/-- `inpoll_detach`. -/
def inpollDetach (poll upstreamFd : Fd) : Syscalls InpollDetachResult := fun table =>
  match epollDel table poll upstreamFd with
  | .ok table' => .ok (.success, table')
  | .error .enoent => .ok (.nonexistent, table)
  | .error errno => .error (.afterError (some errno) .unexpected)

/-! ## The caches of a thread -/

/-- `INPOLL_LATCH_ID`, which is `UINT64_MAX`. -/
def inpollLatchId : ℕ := 2 ^ 64 - 1

/-- `INPOLL_SINGLE_UPSTREAM_ID`. -/
def inpollSingleUpstreamId : ℕ := 0

/-- A switch on the result of an attachment that must succeed. `inpoll_attach` resets `errno` after a loop. -/
def expectAttached : InpollAttachResult → Syscalls Unit
  | .success => pure ()
  | .tooNested => throw .unexpected
  | .redundant => throw (.afterError (some .eexist) .unexpected)

/-- A switch on the result of a detachment that must succeed. -/
def expectDetached : InpollDetachResult → Syscalls Unit
  | .success => pure ()
  | .nonexistent => throw .unexpected

/-- An assertion of a debug build. -/
def assertion (cond : Bool) : Syscalls Unit := StateT.lift (Checked.assertion true cond .assertion)

/-- `latched_inpoll_initialize`. -/
def latchedInpollInitialize (k : Kernel) : Syscalls InpollWithLatch := do
  let latch ← eventInitialize k
  let inpoll ← inpollInitialize k
  let result ← inpollAttach k inpoll latch inpollLatchId
  expectAttached result
  pure { inpoll, latch }

/-- `event_cache_allocate`. -/
def eventCacheAllocate (k : Kernel) (cache : EventRing Fd) : Syscalls (Fd × EventRing Fd) :=
  match cache.events cache.latest with
  | none => do
      let event ← eventInitialize k
      pure (event, cache)
  | some candidate =>
      pure (candidate,
        { events := update cache.events cache.latest none
          latest := ringDecrementIndex eventCacheCapacity cache.latest })

/-- `event_cache_liberate`. -/
def eventCacheLiberate (cache : EventRing Fd) (event : Option Fd) : Syscalls (EventRing Fd) := do
  let latest := ringIncrementIndex eventCacheCapacity cache.latest
  if (cache.events latest).isSome then closeVirtualFd (cache.events latest)
  pure { events := update cache.events latest event, latest := latest }

/-- A loop that closes the descriptors of a ring, from the latest to the oldest, of at most `fuel` rounds. -/
def closeRing : (fuel : ℕ) → (target : ℕ) → (ℕ → Option Fd) → Syscalls (ℕ → Option Fd)
  | 0, _, _ => throw .assertion
  | fuel + 1, target, slots =>
      match slots target with
      | none => pure slots
      | some fd => do
          assertion (target < eventCacheCapacity)
          closeVirtualFd (some fd)
          closeRing fuel (ringDecrementIndex eventCacheCapacity target) (update slots target none)

/-- `event_cache_finalize`. -/
def eventCacheFinalize (cache : EventRing Fd) : Syscalls (EventRing Fd) := do
  let events ← closeRing (eventCacheCapacity + 1) cache.latest cache.events
  pure { events, latest := 0 }

/-- `latched_inpoll_cache_allocate`. -/
def latchedInpollCacheAllocate (k : Kernel) (cache : LatchedInpollRing Fd Fd) :
    Syscalls (InpollWithLatch × LatchedInpollRing Fd Fd) := do
  let target := cache.eventCache.latest
  match cache.inpolls target with
  | none =>
      let result ← latchedInpollInitialize k
      pure (result, cache)
  | some inpollCandidate =>
      assertion (cache.eventCache.events target).isSome
      let (latch, eventCache) ← eventCacheAllocate k cache.eventCache
      pure ({ inpoll := inpollCandidate, latch },
        { inpolls := update cache.inpolls target none, eventCache })

/-- `latched_inpoll_cache_liberate`. -/
def latchedInpollCacheLiberate (cache : LatchedInpollRing Fd Fd) (inpoll latch : Option Fd) :
    Syscalls (LatchedInpollRing Fd Fd) := do
  let eventCache ← eventCacheLiberate cache.eventCache latch
  let target := eventCache.latest
  assertion (target < eventCacheCapacity)
  if (cache.inpolls target).isSome then closeVirtualFd (cache.inpolls target)
  pure { inpolls := update cache.inpolls target inpoll, eventCache }

/-- `latched_inpoll_cache_finalize`. -/
def latchedInpollCacheFinalize (cache : LatchedInpollRing Fd Fd) : Syscalls (LatchedInpollRing Fd Fd) := do
  let inpolls ← closeRing (eventCacheCapacity + 1) cache.eventCache.latest cache.inpolls
  let eventCache ← eventCacheFinalize cache.eventCache
  pure { inpolls, eventCache }

/-- The caches of a `future_thread_cache_t`. -/
structure ThreadCaches where
  events : EventRing Fd
  latchedInpolls : LatchedInpollRing Fd Fd

/-- As `future_thread_cache_initialize` leaves them. -/
def ThreadCaches.initial : ThreadCaches where
  events := .initial
  latchedInpolls := .initial

/-- The part of `future_thread_cache_finalize_from_thread` and `future_thread_cache_finalize_from_context` that
empties the caches. -/
def ThreadCaches.finalize (caches : ThreadCaches) : Syscalls ThreadCaches := do
  let events ← eventCacheFinalize caches.events
  let latchedInpolls ← latchedInpollCacheFinalize caches.latchedInpolls
  pure { events, latchedInpolls }

/-! ## The descriptors of a future -/

/-- The descriptors in a future. -/
structure FutureFds where
  /-- `status_sync`, an event, a timer or a latched inpoll. -/
  statusSync : Option Fd
  /-- `inpoll_latch` in `specific`. -/
  inpollLatch : Option Fd
  /-- `upstream_inpoll` or `timerfd` in `specific`. -/
  inner : Option Fd
deriving DecidableEq, Repr

/-- None is valid. -/
def FutureFds.invalid : FutureFds where
  statusSync := none
  inpollLatch := none
  inner := none

/-- The branch for `TYPE_UNORDERED` and the one for `TYPE_TIMER_REPEAT`, which differ in how `inner` is made. -/
def chainedInitialize (k : Kernel) (caches : ThreadCaches) (inner : Syscalls Fd) :
    Syscalls (FutureFds × ThreadCaches) := do
  let inner ← inner
  let (latched, latchedInpolls) ← latchedInpollCacheAllocate k caches.latchedInpolls
  let attachResult ← inpollAttach k latched.inpoll inner inpollSingleUpstreamId
  expectAttached attachResult
  pure ({ statusSync := some latched.inpoll, inpollLatch := some latched.latch, inner := some inner },
    { caches with latchedInpolls })

/-- `future_sync_initialize`. -/
def futureSyncInitialize (k : Kernel) (type : FutureType) (caches : ThreadCaches) :
    Syscalls (FutureFds × ThreadCaches) :=
  match type with
  | .networkConnect | .networkDisconnect | .networkSend | .networkRecv | .custom => do
      let (event, events) ← eventCacheAllocate k caches.events
      pure ({ FutureFds.invalid with statusSync := some event }, { caches with events })
  | .timerOnce => do
      let timer ← timerInitialize k
      pure ({ FutureFds.invalid with statusSync := some timer }, caches)
  | .join => do
      let (latched, latchedInpolls) ← latchedInpollCacheAllocate k caches.latchedInpolls
      pure ({ FutureFds.invalid with statusSync := some latched.inpoll, inpollLatch := some latched.latch },
        { caches with latchedInpolls })
  | .unordered => chainedInitialize k caches (inpollInitialize k)
  | .timerRepeat => chainedInitialize k caches (timerInitialize k)
  | _ => throw .unexpected

/-- `inpoll_detach` of two descriptors of a future. -/
def detachOwn (poll upstreamFd : Option Fd) : Syscalls Unit :=
  match poll, upstreamFd with
  | some poll, some upstreamFd => do
      let detachResult ← inpollDetach poll upstreamFd
      expectDetached detachResult
  | _, _ => throw (.afterError (some .ebadf) .unexpected)

/-- `future_sync_finalize`. -/
def futureSyncFinalize (type : FutureType) (fds : FutureFds) (caches : ThreadCaches) :
    Syscalls (FutureFds × ThreadCaches) :=
  match type with
  | .networkConnect | .networkDisconnect | .networkSend | .networkRecv | .custom => do
      let events ← eventCacheLiberate caches.events fds.statusSync
      pure ({ fds with statusSync := none }, { caches with events })
  | .timerOnce => do
      closeVirtualFd fds.statusSync
      pure ({ fds with statusSync := none }, caches)
  | .join => do
      detachOwn fds.statusSync fds.inpollLatch
      let events ← eventCacheLiberate caches.events fds.inpollLatch
      closeVirtualFd fds.statusSync
      pure ({ fds with statusSync := none, inpollLatch := none }, { caches with events })
  | .unordered | .timerRepeat => do
      detachOwn fds.statusSync fds.inner
      let latchedInpolls ← latchedInpollCacheLiberate caches.latchedInpolls fds.statusSync fds.inpollLatch
      closeVirtualFd fds.inner
      pure ({ statusSync := none, inpollLatch := none, inner := none }, { caches with latchedInpolls })
  | _ => throw .unexpected

end Udipe.VirtualFds

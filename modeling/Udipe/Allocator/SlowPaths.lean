import Udipe.Allocator.Conservation
import Udipe.Allocator.SpillChecks

/-!
# The slow paths of the allocator

When its cache is empty, a thread gets a page of futures from the context or from the system; when it is full,
the thread gives its oldest page to the context and gets an empty one. The second try then succeeds, and the
calls on the cache of the thread pass their assertions on the way.
-/

namespace Udipe

open Checked Function

variable {T Page Storage : Type} {capacity length pageSize : ℕ}

/-- The cache of the thread has all its pages: it is in no call, or has not begun to exchange pages, or has
exchanged them. -/
def AllocatorPc.AtRest : AllocatorPc Page Storage → Prop
  | .idle | .allocateLock | .allocateExtract | .allocateRefill | .allocateUnlock | .allocateRetry
  | .liberateExtract _ | .liberateUnlock _ | .liberateRetry _ => True
  | _ => False

/-- The assertions of the next call of thread `t` on its own cache, and those of its caller on the answer. A
thread without a call can allocate or liberate. -/
def AllocatorState.localAssertions [DecidableEq Page] (pageSize : ℕ) (s : AllocatorState T Page Storage)
    (t : T) : Except PointerCacheFailure Unit :=
  let capacity := futurePointerPageCapacity pageSize
  let cache := s.threadCaches t
  match s.pc t with
  | .idle => do
      futurePointerCacheAllocateLocalAssertions capacity s.memory cache
      futurePointerCacheLiberateLocalAssertions capacity s.memory cache
  -- `future_allocate_uninitialized`
  | .allocateObtain _ => futurePointerCacheObtainEmptyAssertions s.memory cache
  | .allocateInsertFutures futures =>
      futurePointerCacheInsertFuturesAssertions capacity s.memory cache futures
  | .allocateRefill =>
      futurePointerCacheRefillLocalAssertions capacity cache (futureStoragePageLength pageSize)
  | .allocateRetry => do
      futurePointerCacheAllocateLocalAssertions capacity s.memory cache
      -- `assert(future)`
      ensure ((futurePointerCacheAllocateLocal capacity s.memory cache).any (·.1.isSome)) .noFuture
  -- `future_liberate_uninitialized`
  | .liberateExtract _ => do
      futurePointerCacheExtractFuturesAssertions s.memory cache
      -- `assert(futures)`
      ensure (futurePointerCacheExtractFutures s.memory cache).1.isSome .noFutures
  | .liberateInsertEmpty _ empty => futurePointerCacheInsertEmptyAssertions s.memory cache empty
  | .liberateRetry future => do
      futurePointerCacheLiberateLocalAssertions capacity s.memory cache
      -- `assert(success)`
      ensure ((futurePointerCacheLiberateLocal capacity s.memory cache future).any (·.1)) .noRoom
  | _ => .ok ()

namespace AllocatorState.Law

variable {s : AllocatorState T Page Storage} {w : Place T → List (Cell Page Storage)} {t : T}
  {f : FuturePtr Storage}
  (h : s.Law capacity length w)

include h

/-- At rest, a thread has all its pages. -/
theorem length_of_atRest (hrest : (s.pc t).AtRest) :
    (w (.thread t)).length = localFuturePointerPages := by
  rw [(h.fits t).pages]
  cases hpc : s.pc t <;> first | rfl | simp [hpc, AllocatorPc.AtRest] at hrest

theorem ne_nil_of_atRest (hrest : (s.pc t).AtRest) : w (.thread t) ≠ [] := by
  intro hnil
  have hlen := h.length_of_atRest hrest
  simp [hnil, localFuturePointerPages] at hlen

variable [DecidableEq Page]

/-- The second try of an allocation succeeds. -/
theorem allocateLocal_of_retry (hcapacity : 0 < capacity) (hpc : s.pc t = .allocateRetry) :
    ∃ f cache m, futurePointerCacheAllocateLocal capacity s.memory (s.threadCaches t)
      = some (some f, cache, m) := by
  have hfits := h.fits t
  rw [hpc] at hfits
  rcases futurePointerCacheAllocateLocal_spec (h.holds (.thread t)) hcapacity with
    ⟨hnil, -⟩ | ⟨f, cache, m, -, hrun, -⟩
  · exact absurd hnil hfits.expects
  · exact ⟨f, cache, m, hrun⟩

/-- The second try of a liberation succeeds. -/
theorem liberateLocal_of_retry (hcapacity : 0 < capacity) (hpc : s.pc t = .liberateRetry f) :
    ∃ cache m, futurePointerCacheLiberateLocal capacity s.memory (s.threadCaches t) f
      = some (true, cache, m) := by
  have hfits := h.fits t
  rw [hpc] at hfits
  obtain ⟨c, hc, hroom⟩ : ∃ c ∈ w (.thread t), c.2.length < capacity := hfits.expects
  rcases futurePointerCacheLiberateLocal_spec (h.holds (.thread t)) hcapacity (List.ne_nil_of_mem hc) f with
    ⟨hfull, -⟩ | ⟨cache, m, -, hrun, -⟩
  · exact absurd (hfull c hc) hroom.ne
  · exact ⟨cache, m, hrun⟩

/-- There is a page to extract from a full cache. -/
theorem extractFutures_of_liberate (hcapacity : 0 < capacity) (hpc : s.pc t = .liberateExtract f) :
    (futurePointerCacheExtractFutures s.memory (s.threadCaches t)).1.isSome = true := by
  have hfits := h.fits t
  rw [hpc] at hfits
  rcases futurePointerCacheExtractFutures_spec (h.holds (.thread t)) hcapacity with
    ⟨hnil, -⟩ | ⟨c, -, cache, m, -, -, hrun, -⟩
  · exact absurd hnil hfits.expects
  · rw [hrun]
    rfl

/-- A page of futures goes into an empty cache. -/
theorem insertFutures_of_allocate (hcapacity : 0 < capacity) {p : Page}
    (hpc : s.pc t = .allocateInsertFutures p) [DecidableEq T] :
    futurePointerCacheInsertFuturesAssertions capacity s.memory (s.threadCaches t) p = .ok () := by
  have hfits := h.fits t
  rw [hpc] at hfits
  obtain ⟨y, hy, hhand⟩ := hfits.carries
  have hrep : (s.threadCaches t).Represents s.memory capacity (w (.thread t)) := h.holds (.thread t)
  have hp : s.memory.Detached capacity (p, y) := h.holds (.hand t) (p, y) (by simp [hhand])
  have hnotin : p ∉ pagesOf (w (.thread t)) :=
    h.disjoint (a := .hand t) (by simp) (by simp [hhand])
  have hnum : (s.threadCaches t).numTopFutures = 0 := hrep.numTopFutures_eq_zero_iff.mpr hfits.expects
  have hle : y.length ≤ capacity := hp.holds.length_le
  rw [futurePointerCacheInsertFuturesAssertions_eq hrep hcapacity hp hy hnotin, if_pos (by omega)]

end AllocatorState.Law

/-- Every call on the cache of the thread passes its assertions. -/
theorem AllocatorState.Law.localAssertions_ok [DecidableEq T] [DecidableEq Page]
    {s : AllocatorState T Page Storage} {w : Place T → List (Cell Page Storage)}
    (h : s.Law (futurePointerPageCapacity pageSize) (futureStoragePageLength pageSize) w)
    (hcapacity : 0 < futurePointerPageCapacity pageSize) (t : T) :
    s.localAssertions pageSize t = .ok () := by
  have hfits := h.fits t
  have hrep : (s.threadCaches t).Represents s.memory (futurePointerPageCapacity pageSize) (w (.thread t)) :=
    h.holds (.thread t)
  have hallocate := futurePointerCacheAllocateLocalAssertions_ok hrep
  rw [localAssertions]
  cases hpc : s.pc t with
  | idle =>
      have hcells : w (.thread t) ≠ [] := h.ne_nil_of_atRest (by simp [hpc, AllocatorPc.AtRest])
      simp only [hallocate, ok_bind]
      exact futurePointerCacheLiberateLocalAssertions_ok hrep hcapacity hcells
  | allocateObtain => exact futurePointerCacheObtainEmptyAssertions_ok hrep
  | allocateInsertFutures => exact h.insertFutures_of_allocate hcapacity hpc
  | allocateRefill =>
      rw [hpc] at hfits
      have hcells : w (.thread t) ≠ [] := h.ne_nil_of_atRest (by simp [hpc, AllocatorPc.AtRest])
      exact futurePointerCacheRefillLocalAssertions_ok hrep hcells hfits.expects
        (futureStoragePageLength_le pageSize)
  | allocateRetry =>
      obtain ⟨f, cache, m, hrun⟩ := h.allocateLocal_of_retry hcapacity hpc
      simp [hallocate, ok_bind, hrun, ensure]
  | liberateExtract =>
      simp [futurePointerCacheExtractFuturesAssertions_ok hrep, ok_bind, ensure,
        h.extractFutures_of_liberate hcapacity hpc]
  | liberateInsertEmpty f e =>
      rw [hpc] at hfits
      have hhand : w (.hand t) = [(e, [])] := hfits.carries
      exact futurePointerCacheInsertEmptyAssertions_ok hrep hcapacity
        (h.holds (.hand t) (e, []) (by simp [hhand]))
  | liberateRetry f =>
      have hcells : w (.thread t) ≠ [] := h.ne_nil_of_atRest (by simp [hpc, AllocatorPc.AtRest])
      obtain ⟨cache, m, hrun⟩ := h.liberateLocal_of_retry hcapacity hpc
      simp [futurePointerCacheLiberateLocalAssertions_ok hrep hcapacity hcells, ok_bind, hrun, ensure]
  | unregistered | allocateLock | allocateExtract | allocateInsertEmpty | allocateUnlock | liberateLock
  | liberateInsertFutures | liberateObtain | liberateUnlock | spillLock | spill | spillUnlock => rfl

/-- In every reachable state, the calls of a thread on its own cache pass their assertions, the second try of an
allocation answers a future, that of a liberation succeeds, and outside the exchange of pages the cache has
`LOCAL_FUTURE_POINTER_PAGES` of them. -/
theorem slowPaths_succeed [DecidableEq T] [DecidableEq Page] [DecidableEq Storage]
    {s : AllocatorState T Page Storage} (hpage : futureSize ≤ pageSize - futureSize)
    {pages : Page → PointerPage Page Storage}
    (hreach : (futureAllocator pageSize).Reachable (AllocatorState.start pages) s) (t : T) :
    s.localAssertions pageSize t = .ok () ∧
      (s.pc t = .allocateRetry → ∃ f cache m,
        futurePointerCacheAllocateLocal (futurePointerPageCapacity pageSize) s.memory (s.threadCaches t)
          = some (some f, cache, m)) ∧
      (∀ f, s.pc t = .liberateRetry f → ∃ cache m,
        futurePointerCacheLiberateLocal (futurePointerPageCapacity pageSize) s.memory (s.threadCaches t) f
          = some (true, cache, m)) ∧
      ((s.pc t).AtRest → ∃ cells : List (Cell Page Storage),
        (s.threadCaches t).Represents s.memory (futurePointerPageCapacity pageSize) cells ∧
          cells.length = localFuturePointerPages) := by
  obtain ⟨w, h⟩ := AllocatorState.invariant_of_reachable hpage hreach
  have hlength : 0 < futureStoragePageLength pageSize := Nat.div_pos hpage (by decide)
  have hle := futureStoragePageLength_le pageSize
  have hcapacity : 0 < futurePointerPageCapacity pageSize := by omega
  exact ⟨h.localAssertions_ok hcapacity t, h.allocateLocal_of_retry hcapacity,
    fun f => h.liberateLocal_of_retry hcapacity,
    fun hrest => ⟨w (.thread t), h.holds (.thread t), h.length_of_atRest hrest⟩⟩

/-- The cache of a thread is empty, and it gets the futures of a storage page. -/
def allocateRefilling (storage : ℕ) : List (AllocatorEvent (Fin 1) ℕ ℕ) :=
  [.allocate 0, .advance 0 0 0, .advance 0 0 0, .advance 0 0 storage, .advance 0 0 0, .advance 0 0 0]

/-- A thread of a system with pages of 256 bytes allocates 61 futures, and liberates them again. Its two
pages have room for 30 each, so that it gives one back to the context. -/
def refillThenSpill : List (AllocatorEvent (Fin 1) ℕ ℕ) :=
  .register 0 [10, 11] ::
    (List.range 61).flatMap allocateRefilling ++
    (List.range 61).map (fun k => .liberate 0 ⟨k, 0⟩) ++ List.replicate 6 (.advance 0 12 0)

/-- The second try of the thread succeeds, both after the refill and after the spill. -/
theorem slowPaths_succeed_refillThenSpill :
    (∃ s : AllocatorState (Fin 1) ℕ ℕ,
      (futureAllocator 256).run (AllocatorState.start fun _ => ⟨none, none, fun _ => none⟩)
        (refillThenSpill.take 6) = some s ∧
      s.pc 0 = .allocateRetry ∧ s.localAssertions 256 0 = .ok () ∧
      ∃ f cache m, futurePointerCacheAllocateLocal (futurePointerPageCapacity 256) s.memory
        (s.threadCaches 0) = some (some f, cache, m)) ∧
    ∃ s : AllocatorState (Fin 1) ℕ ℕ,
      (futureAllocator 256).run (AllocatorState.start fun _ => ⟨none, none, fun _ => none⟩)
        refillThenSpill = some s ∧
      s.pc 0 = .liberateRetry ⟨60, 0⟩ ∧ s.localAssertions 256 0 = .ok () ∧
      (∃ cache m, futurePointerCacheLiberateLocal (futurePointerPageCapacity 256) s.memory
        (s.threadCaches 0) ⟨60, 0⟩ = some (true, cache, m)) ∧
      ∃ cells : List (Cell ℕ ℕ),
        (s.threadCaches 0).Represents s.memory (futurePointerPageCapacity 256) cells ∧
          cells.length = localFuturePointerPages := by
  have hrefill : ((futureAllocator 256).run
      (AllocatorState.start fun _ => ⟨none, none, fun _ => none⟩) (refillThenSpill.take 6)).map
        (fun s => s.pc 0) = some .allocateRetry := by decide +kernel
  have hspill : ((futureAllocator 256).run
      (AllocatorState.start fun _ => ⟨none, none, fun _ => none⟩) refillThenSpill).map
        (fun s => s.pc 0) = some (.liberateRetry ⟨60, 0⟩) := by decide +kernel
  obtain ⟨s, hrun, hpc⟩ := Option.map_eq_some_iff.mp hrefill
  obtain ⟨s', hrun', hpc'⟩ := Option.map_eq_some_iff.mp hspill
  obtain ⟨hassertions, hallocate, -, -⟩ := slowPaths_succeed (by decide) ⟨_, hrun⟩ 0
  obtain ⟨hassertions', -, hliberate, hrest⟩ := slowPaths_succeed (by decide) ⟨_, hrun'⟩ 0
  exact ⟨⟨s, hrun, hpc, hassertions, hallocate hpc⟩, s', hrun', hpc', hassertions',
    hliberate _ hpc', hrest (by simp [hpc', AllocatorPc.AtRest])⟩

end Udipe

import Udipe.Allocator.HeapSteps
import Udipe.Allocator.Conservation
import Mathlib.Algebra.BigOperators.Intervals

/-!
# The destructor of a context gives all memory back

In every state that threads and the destructor reach, in whatever order they take their steps, no memory is
used that is not allocated, and nothing is freed twice. The destructor never waits for a thread that does not
go on, it ends after at most five steps for each thread cache, and nothing is allocated then.
-/

namespace Udipe

open Function

variable {T Page Storage : Type} {pageSize : ℕ} {s s' : ContextHeap T Page Storage} {t : T}

/-! ## The invariant -/

namespace TeardownPc

/-- The destructor has not come to the cache at `i` yet. -/
def Awaits : TeardownPc → ℕ → Prop
  | .inUse, _ => True
  | .threads index, i => index ≤ i
  | .contextCache, _ | .done, _ => False

/-- The array of the thread caches is still there. -/
def holdsArray : TeardownPc → Bool
  | .inUse | .threads _ => true
  | .contextCache | .done => false

theorem Awaits.holdsArray {pc : TeardownPc} {i : ℕ} (h : pc.Awaits i) : pc.holdsArray = true := by
  cases pc with
  | inUse | threads => rfl
  | contextCache | done => exact h.elim

theorem ne_done_of_holdsArray {pc : TeardownPc} (h : pc.holdsArray = true) : pc ≠ .done := by
  rintro rfl
  cases h

end TeardownPc

namespace ContextHeap

/-- What holds while the context is used and while it is destroyed. -/
structure Invariant (pageSize : ℕ) (s : ContextHeap T Page Storage) : Prop where
  defined : s.allocator.undefined = false
  /-- `forgotten` are the futures in the caches that the destructor has finalized. -/
  account : s.teardown ≠ .done → ∃ forgotten,
    (s.allocator.withLive (s.allocator.live + forgotten)).Invariant pageSize ∧
      (s.teardown = .inUse → forgotten = 0)
  storages : s.teardown ≠ .done → s.storage.Holds s.allocator.storages
  array : s.teardown.holdsArray = true → s.threads.Valid
  freed : s.teardown.holdsArray = false → s.threads.allocated = false
  cached : ∀ t, s.allocator.pc t ≠ .unregistered →
    ∃ i < s.threads.length, s.teardown.Awaits i ∧ s.threads.threadCaches i = some t
  outside : s.teardown ≠ .inUse → ∀ t, (s.allocator.pc t).outside = true
  released : s.teardown = .done → (∀ p, s.allocator.memory.allocated p = false) ∧
    (∀ p, s.allocator.storages p = false) ∧ s.allocator.contextCache = ⟨none, none, 0⟩ ∧
    s.storage.firstStoragePage = none

theorem start_invariant (hpage : pointerSize ≤ pageSize) (pages : Page → PointerPage Page Storage) :
    (ContextHeap.start pageSize pages : ContextHeap T Page Storage).Invariant pageSize where
  defined := rfl
  account _ := by
    refine ⟨0, ?_, fun _ => rfl⟩
    rw [add_zero]
    exact AllocatorState.start_invariant pages
  storages _ := ⟨[], trivial, rfl, List.nodup_nil, fun p => by simp [ContextHeap.start, AllocatorState.start]⟩
  array _ := ThreadCacheArray.Valid.initial hpage
  freed h := by cases h
  cached t h := absurd rfl h
  outside h := absurd rfl h
  released h := by cases h

variable [DecidableEq T] [DecidableEq Page] [DecidableEq Storage] {e : AllocatorEvent T Page Storage}

/-! ## Steps of the threads -/

/-- What a step of a thread does. -/
theorem threadStep_cases (hstep : s.threadStep pageSize e = some s') :
    ∃ allocator, allocatorStep pageSize s.allocator e = some allocator ∧
      ((∃ t pages, e = .register t pages ∧ (∀ i < s.threads.length, s.threads.threadCaches i ≠ some t) ∧
          (futureContextCacheRegisterThread s.threads t = none ∨
            ∃ threads, futureContextCacheRegisterThread s.threads t = some threads ∧
              s' = { s with allocator, threads })) ∨
        (∃ t freshPage freshStorage, e = .advance t freshPage freshStorage ∧
          s.allocator.pc t = .allocateRefill ∧
            s' = { s with allocator, storage := futureStorageAllocate s.storage freshStorage }) ∨
        (∀ t pages, e ≠ .register t pages) ∧ (∀ t freshPage freshStorage,
          e = .advance t freshPage freshStorage → s.allocator.pc t ≠ .allocateRefill) ∧
          s' = { s with allocator }) := by
  obtain ⟨allocator, hallocator, hstep⟩ := Option.bind_eq_some_iff.mp hstep
  refine ⟨allocator, hallocator, ?_⟩
  cases e with
  | register t pages =>
      simp only [Option.ite_none_right_eq_some] at hstep
      obtain ⟨⟨-, hnew⟩, hstep⟩ := hstep
      refine .inl ⟨t, pages, rfl, hnew, ?_⟩
      split at hstep
      · rename_i threads hthreads
        exact .inr ⟨threads, hthreads, (Option.some.inj hstep).symm⟩
      · rename_i hnone
        exact .inl hnone
  | advance t freshPage freshStorage =>
      simp only at hstep
      split at hstep
      · rename_i hrefill
        exact .inr (.inl ⟨t, freshPage, freshStorage, rfl, hrefill, (Option.some.inj hstep).symm⟩)
      · rename_i hrefill
        refine .inr (.inr ⟨(fun _ _ h => nomatch h), fun t' _ _ heq => ?_, (Option.some.inj hstep).symm⟩)
        obtain ⟨rfl, -, -⟩ := AllocatorEvent.advance.inj heq
        exact hrefill
  | allocate | liberate | exit =>
      exact .inr (.inr ⟨(fun _ _ h => nomatch h), (fun _ _ _ h => nomatch h), (Option.some.inj hstep).symm⟩)

/-- The thread caches of the threads that go on are still in the array. -/
theorem Invariant.cached_step (h : s.Invariant pageSize) {allocator : AllocatorState T Page Storage}
    (hallocator : allocatorStep pageSize s.allocator e = some allocator)
    (hnew : ∀ t pages, e ≠ .register t pages) (t : T) (ht : allocator.pc t ≠ .unregistered) :
    ∃ i < s.threads.length, s.teardown.Awaits i ∧ s.threads.threadCaches i = some t := by
  obtain ⟨hpc, hregistered, -⟩ := allocatorStep_frame hallocator
  refine h.cached t ?_
  rcases eq_or_ne t e.by with rfl | hne
  · rcases hregistered with ⟨pages, he⟩ | hne
    · exact absurd he (hnew _ _)
    · exact hne
  · rwa [hpc t hne] at ht

/-- A step that allocates no storage page leaves the list of them as it is. -/
theorem Invariant.storages_step (h : s.Invariant pageSize) (hne : s.teardown ≠ .done)
    {allocator : AllocatorState T Page Storage}
    (hallocator : allocatorStep pageSize s.allocator e = some allocator)
    (hrefill : ∀ t freshPage freshStorage,
      e = .advance t freshPage freshStorage → s.allocator.pc t ≠ .allocateRefill) :
    s.storage.Holds allocator.storages := by
  obtain ⟨-, -, hframe⟩ := allocatorStep_frame hallocator
  rcases hframe with ⟨freshPage, freshStorage, he⟩ | hsame
  · rw [he, allocatorStep_advance h.defined] at hallocator
    obtain ⟨-, hsame⟩ := allocatorThreadStep_other (hrefill _ _ _ he) hallocator
    rw [hsame]
    exact h.storages hne
  · rw [hsame]
    exact h.storages hne

/-- A step of a thread that uses the context. -/
theorem Invariant.threadStep (h : s.Invariant pageSize) (hpage : futureSize ≤ pageSize - futureSize)
    (hteardown : s.teardown = .inUse) (hstep : s.threadStep pageSize e = some s') : s'.Invariant pageSize := by
  obtain ⟨allocator, hallocator, hcases⟩ := threadStep_cases hstep
  have hne : s.teardown ≠ .done := by simp [hteardown]
  -- the account
  obtain ⟨forgotten, hinv, hforgotten⟩ := h.account hne
  rw [hforgotten hteardown, add_zero] at hinv
  have hinv' : allocator.Invariant pageSize :=
    AllocatorState.Invariant.step_of_room (show s.allocator.Invariant pageSize from hinv) hpage hallocator
  have haccount : s.teardown ≠ .done → ∃ forgotten,
      (allocator.withLive (allocator.live + forgotten)).Invariant pageSize ∧
        (s.teardown = .inUse → forgotten = 0) := by
    refine fun _ => ⟨0, ?_, fun _ => rfl⟩
    rw [add_zero]
    exact hinv'
  have hdefined : allocator.undefined = false := by
    obtain ⟨w, hlaw⟩ := hinv'
    exact hlaw.defined
  have hstorages := h.storages hne
  obtain ⟨hpc, -, hframe⟩ := allocatorStep_frame hallocator
  rcases hcases with ⟨t, pages, rfl, hnew, hthreads⟩ | ⟨t, freshPage, freshStorage, rfl, hrefill, rfl⟩ |
    ⟨hnew, hrefill, rfl⟩
  · obtain ⟨threads, hthreads', hvalid, hlen, hentries⟩ :=
      (h.array (by rw [hteardown]; rfl)).register hnew
    rcases hthreads with hnone | ⟨threads', hsome, rfl⟩
    · simp [hnone] at hthreads'
    obtain rfl := Option.some.inj (hthreads'.symm.trans hsome)
    obtain ⟨_, _, heq⟩ | hframe := hframe
    · cases heq
    refine ⟨hdefined, haccount, fun _ => ?_, fun _ => hvalid, fun hfree => ?_, fun u hu => ?_,
      fun hnot => absurd hteardown hnot, fun hdone => absurd hdone hne⟩
    · show s.storage.Holds allocator.storages
      rw [hframe]
      exact hstorages
    · simp [hteardown, TeardownPc.holdsArray] at hfree
    · show ∃ i < threads.length, s.teardown.Awaits i ∧ threads.threadCaches i = some u
      rw [hteardown, hlen, hentries]
      rcases eq_or_ne u t with rfl | hut
      · exact ⟨s.threads.length, Nat.lt_succ_self _, trivial, update_self ..⟩
      · obtain ⟨i, hi, -, hentry⟩ := h.cached u ((hpc u hut) ▸ hu)
        exact ⟨i, hi.trans (Nat.lt_succ_self _), trivial, by rw [update_of_ne hi.ne, hentry]⟩
  · have hallocator' := hallocator
    rw [allocatorStep_advance h.defined] at hallocator'
    obtain ⟨-, hundefined | ⟨hfresh, hstorage⟩⟩ := allocatorThreadStep_refill hrefill hallocator'
    · simp [hdefined] at hundefined
    refine ⟨hdefined, haccount, fun _ => ?_, h.array, h.freed,
      h.cached_step hallocator (fun _ _ heq => nomatch heq), fun hnot => absurd hteardown hnot,
      fun hdone => absurd hdone hne⟩
    show (futureStorageAllocate s.storage freshStorage).Holds allocator.storages
    rw [hstorage]
    exact hstorages.allocate hfresh
  · exact ⟨hdefined, haccount, fun hne => h.storages_step hne hallocator hrefill, h.array, h.freed,
      h.cached_step hallocator hnew, fun hnot => absurd hteardown hnot, fun hdone => absurd hdone hne⟩

omit [DecidableEq T] [DecidableEq Page] [DecidableEq Storage] in
/-- Only threads that leave take steps while the context is destroyed. -/
theorem Legal.leaves (hlegal : s.Legal (.thread e)) (hteardown : s.teardown ≠ .inUse) : e.leaves = true := by
  cases e with
  | register | allocate | liberate => exact absurd hlegal hteardown
  | exit | advance => rfl

/-- A step of a thread that leaves while the context is destroyed. -/
theorem Invariant.threadLeaves (h : s.Invariant pageSize) (hpage : futureSize ≤ pageSize - futureSize)
    (hteardown : s.teardown ≠ .inUse) (hleaves : e.leaves = true)
    (hstep : s.threadStep pageSize e = some s') :
    s'.Invariant pageSize ∧ ∃ allocator, s' = { s with allocator } ∧
      (∀ u, u ≠ e.by → allocator.pc u = s.allocator.pc u) ∧
      (allocator.pc e.by).stepsToLeave + 1 = (s.allocator.pc e.by).stepsToLeave ∧
      ∃ i < s.threads.length, s.teardown.Awaits i ∧ s.threads.threadCaches i = some e.by := by
  have houtside := h.outside hteardown
  obtain ⟨allocator, hallocator, hcases⟩ := threadStep_cases hstep
  have hnew : ∀ t pages, e ≠ .register t pages := by
    rintro t pages rfl
    cases hleaves
  have hrefill : ∀ u, s.allocator.pc u ≠ .allocateRefill := fun u hu => by
    simpa [hu, AllocatorPc.outside] using houtside u
  obtain rfl : s' = { s with allocator } := by
    rcases hcases with ⟨t, pages, he, -⟩ | ⟨t, _, _, -, hat, -⟩ | ⟨-, -, heq⟩
    · exact absurd he (hnew t pages)
    · exact absurd hat (hrefill t)
    · exact heq
  obtain ⟨hpc, hregistered, -⟩ := allocatorStep_frame hallocator
  obtain ⟨hleft, hlive, hwith⟩ := allocatorStep_leaves h.defined (houtside e.by) hleaves hallocator
  -- the cache of the thread is in the array
  have hregistered' : s.allocator.pc e.by ≠ .unregistered := by
    rcases hregistered with ⟨pages, he⟩ | hne
    · exact absurd he (hnew _ pages)
    · exact hne
  have hawaits := h.cached e.by hregistered'
  have hne : s.teardown ≠ .done := by
    obtain ⟨i, -, hawaits, -⟩ := hawaits
    exact TeardownPc.ne_done_of_holdsArray hawaits.holdsArray
  obtain ⟨forgotten, hinv, -⟩ := h.account hne
  have hinv' : (allocator.withLive (allocator.live + forgotten)).Invariant pageSize := by
    rw [hlive]
    exact hinv.step_of_room hpage (hwith _)
  have hdefined : allocator.undefined = false := by
    obtain ⟨w, hlaw⟩ := hinv'
    exact hlaw.defined
  have hleft := hleft.resolve_right (by simp [hdefined])
  refine ⟨⟨hdefined, fun _ => ⟨forgotten, hinv', fun heq => absurd heq hteardown⟩,
    fun hne => h.storages_step hne hallocator fun u _ _ _ => hrefill u, h.array, h.freed,
    h.cached_step hallocator hnew, fun _ u => ?_, fun hdone => absurd hdone hne⟩,
    allocator, rfl, hpc, hleft.2, hawaits⟩
  show (allocator.pc u).outside = true
  rcases eq_or_ne u e.by with rfl | hu
  · exact hleft.1
  · rw [hpc u hu]
    exact houtside u

/-! ## Steps of the destructor -/

omit [DecidableEq T] [DecidableEq Page] [DecidableEq Storage] in
/-- The caches of the other threads come after the one that the destructor is at. -/
theorem Invariant.cached_next (h : s.Invariant pageSize) {i : ℕ} (hteardown : s.teardown = .threads i)
    (ht : s.threads.threadCaches i = some t) {u : T} (hu : s.allocator.pc u ≠ .unregistered) (hut : u ≠ t) :
    ∃ j < s.threads.length, i + 1 ≤ j ∧ s.threads.threadCaches j = some u := by
  obtain ⟨j, hj, hawaits, hentry⟩ := h.cached u hu
  rw [hteardown] at hawaits
  have hji : j ≠ i := by
    rintro rfl
    exact hut (Option.some.inj (hentry.symm.trans ht))
  exact ⟨j, hj, lt_of_le_of_ne hawaits hji.symm, hentry⟩

omit [DecidableEq Storage] in
/-- The cache of an idle thread is finalized, with enough rounds. -/
theorem Invariant.finalizeThreadCache_idle (h : s.Invariant pageSize) {i : ℕ} (hteardown : s.teardown = .threads i)
    (ht : s.threads.threadCaches i = some t) (hpc : s.allocator.pc t = .idle) :
    ∃ cells n, (∀ rounds, s.finalizeThreadCache rounds t (.threads (i + 1)) =
        if n < rounds then
          some { s with allocator := s.allocator.finalized t cells, teardown := .threads (i + 1) }
        else none) ∧
      ({ s with allocator := s.allocator.finalized t cells, teardown := .threads (i + 1) } :
        ContextHeap T Page Storage).Invariant pageSize := by
  have hne : s.teardown ≠ .done := by simp [hteardown]
  obtain ⟨forgotten, ⟨w, hlaw⟩, -⟩ := h.account hne
  have hrep : (s.allocator.threadCaches t).Represents s.allocator.memory
      (futurePointerPageCapacity pageSize) (w (.thread t)) := hlaw.holds (.thread t)
  have hallocated : ∀ p ∈ pagesOf (w (.thread t)), s.allocator.memory.allocated p = true :=
    fun p hp => hlaw.allocated hp
  have hvalid := h.array (by rw [hteardown]; rfl)
  refine ⟨w (.thread t), (w (.thread t)).length, fun rounds => ?_, ?_⟩
  · simp only [finalizeThreadCache, hpc, futurePointerCacheFinalize_eq hrep hallocated rounds]
    split_ifs <;> rfl
  · have hother : ∀ u, u ≠ t →
        (s.allocator.finalized t (w (.thread t))).pc u = s.allocator.pc u := fun u hu => update_of_ne hu ..
    have hself : (s.allocator.finalized t (w (.thread t))).pc t = .unregistered := update_self ..
    refine ⟨h.defined, fun _ => ?_, fun _ => h.storages hne, fun _ => hvalid, fun hfree => ?_, fun u hu => ?_,
      fun _ u => ?_, fun hdone => ?_⟩
    · have hlaw' := hlaw.finalized hpc
      refine ⟨forgotten + futuresOf (w (.thread t)), ⟨update w (.thread t) [], ?_⟩, (fun heq => nomatch heq)⟩
      rw [← add_assoc]
      exact hlaw'
    · cases hfree
    · have hut : u ≠ t := by
        rintro rfl
        exact hu hself
      exact h.cached_next hteardown ht (by rwa [← hother u hut]) hut
    · rcases eq_or_ne u t with rfl | hut
      · show ((s.allocator.finalized u (w (.thread u))).pc u).outside = true
        rw [hself]
        rfl
      · show ((s.allocator.finalized t (w (.thread t))).pc u).outside = true
        rw [hother u hut]
        exact h.outside (by simp [hteardown]) u
    · cases hdone

omit [DecidableEq T] [DecidableEq Page] [DecidableEq Storage] in
/-- A cache that its thread has spilled is passed over. -/
theorem Invariant.skip (h : s.Invariant pageSize) {i : ℕ} (hteardown : s.teardown = .threads i)
    (ht : s.threads.threadCaches i = some t) (hpc : s.allocator.pc t = .unregistered) :
    ({ s with teardown := .threads (i + 1) } : ContextHeap T Page Storage).Invariant pageSize := by
  have hne : s.teardown ≠ .done := by simp [hteardown]
  obtain ⟨forgotten, hinv, -⟩ := h.account hne
  refine ⟨h.defined, fun _ => ⟨forgotten, hinv, (fun heq => nomatch heq)⟩, fun _ => h.storages hne,
    fun _ => h.array (by rw [hteardown]; rfl), fun hfree => ?_, fun u hu => ?_,
    fun _ => h.outside (by simp [hteardown]), fun hdone => ?_⟩
  · cases hfree
  · have hut : u ≠ t := by
      rintro rfl
      exact hu hpc
    exact h.cached_next hteardown ht hu hut
  · cases hdone

omit [DecidableEq T] [DecidableEq Page] [DecidableEq Storage] in
/-- When all caches are finalized, no thread is left and the array is freed. -/
theorem Invariant.freeArray (h : s.Invariant pageSize) {i : ℕ} (hteardown : s.teardown = .threads i)
    (hi : s.threads.length ≤ i) :
    s.threads.free? = some ⟨fun _ => none, 0, 0, false⟩ ∧
      ({ s with threads := ⟨fun _ => none, 0, 0, false⟩, teardown := .contextCache } :
        ContextHeap T Page Storage).Invariant pageSize := by
  have hne : s.teardown ≠ .done := by simp [hteardown]
  obtain ⟨forgotten, hinv, -⟩ := h.account hne
  refine ⟨if_pos (h.array (by rw [hteardown]; rfl)).allocated, h.defined,
    fun _ => ⟨forgotten, hinv, (fun heq => nomatch heq)⟩, fun _ => h.storages hne, (fun hheld => nomatch hheld),
    fun _ => rfl, fun u hu => ?_, fun _ => h.outside (by simp [hteardown]), (fun hdone => nomatch hdone)⟩
  obtain ⟨j, hj, hawaits, -⟩ := h.cached u hu
  rw [hteardown] at hawaits
  exact absurd hj (not_lt.mpr (hi.trans hawaits))

/-- The last pages are those of the cache of the context and the storage pages; they are freed, with enough
rounds. -/
theorem Invariant.finalizeContext (h : s.Invariant pageSize) (hteardown : s.teardown = .contextCache) :
    ∃ n s', s'.teardown = .done ∧ s'.Invariant pageSize ∧
      ∀ rounds, s.finalizeStep rounds = if n < rounds then some s' else none := by
  have hne : s.teardown ≠ .done := by simp [hteardown]
  obtain ⟨forgotten, ⟨w, hlaw⟩, -⟩ := h.account hne
  obtain ⟨n, hstorages⟩ := (h.storages hne).liberateAll
  -- no thread has a page any more
  have hpc : ∀ t, s.allocator.pc t = .unregistered := by
    intro t
    by_contra ht
    obtain ⟨i, -, hawaits, -⟩ := h.cached t ht
    rw [hteardown] at hawaits
    exact hawaits
  obtain ⟨hmutex, hcontext⟩ := hlaw.unregistered hpc
  have hrep : s.allocator.contextCache.Represents s.allocator.memory
      (futurePointerPageCapacity pageSize) (w .context) := hlaw.holds .context
  have hallocated : ∀ p ∈ pagesOf (w .context), s.allocator.memory.allocated p = true :=
    fun p hp => hlaw.allocated hp
  have hall : ∀ p, (s.allocator.memory.without (w .context)).allocated p = false := by
    intro p
    show (if p ∈ pagesOf (w .context) then false else s.allocator.memory.allocated p) = false
    split_ifs with hp
    · rfl
    · exact Bool.eq_false_iff.mpr fun hpage => hp (hcontext p hpage)
  refine ⟨max (w .context).length n, { s with
    allocator := { s.allocator.setContext ⟨none, none, 0⟩ (s.allocator.memory.without (w .context)) with
      storages := fun _ => false }
    storage := { s.storage with firstStoragePage := none }
    teardown := .done }, rfl, ⟨h.defined, fun hnot => absurd rfl hnot, fun hnot => absurd rfl hnot,
      (fun hheld => nomatch hheld), fun _ => h.freed (by rw [hteardown]; rfl),
      fun t ht => absurd (hpc t) ht, fun _ t => ?_, fun _ => ⟨hall, fun _ => rfl, rfl, rfl⟩⟩, fun rounds => ?_⟩
  · show (s.allocator.pc t).outside = true
    rw [hpc t]
    rfl
  · simp only [finalizeStep, hteardown, show s.allocator.mutex = none from hmutex, ne_eq, not_true_eq_false, if_false,
      futurePointerCacheFinalize_eq hrep hallocated rounds, hstorages rounds, max_lt_iff]
    by_cases hcache : (w .context).length < rounds <;> by_cases hstorage : n < rounds <;>
      simp only [hcache, hstorage, if_true, if_false, and_true, and_false] <;> rfl

/-! ## The steps that are left -/

/-- The steps that the threads and the destructor still have to make for the cache at `i`. -/
def stepsFor (s : ContextHeap T Page Storage) (i : ℕ) : ℕ :=
  match s.threads.threadCaches i with
  | some t => (s.allocator.pc t).stepsToLeave + 1
  | none => 1

/-- The steps until the context is destroyed, at most. -/
def stepsLeft (s : ContextHeap T Page Storage) : ℕ :=
  match s.teardown with
  | .inUse | .done => 0
  | .threads index => ∑ i ∈ Finset.Ico index s.threads.length, s.stepsFor i + 2
  | .contextCache => 1

omit [DecidableEq T] [DecidableEq Page] [DecidableEq Storage] in
/-- At most five steps for each thread cache, and two for the rest. -/
theorem stepsLeft_le (s : ContextHeap T Page Storage) : s.stepsLeft ≤ 5 * s.threads.length + 2 := by
  have hfor : ∀ i, s.stepsFor i ≤ 5 := by
    intro i
    rw [stepsFor]
    split
    · rename_i t _
      cases s.allocator.pc t <;> simp [AllocatorPc.stepsToLeave]
    · omega
  cases hteardown : s.teardown with
  | threads index =>
      have hsum : ∑ i ∈ Finset.Ico index s.threads.length, s.stepsFor i ≤ _ :=
        Finset.sum_le_card_nsmul _ _ 5 fun i _ => hfor i
      rw [Nat.card_Ico, nsmul_eq_mul, Nat.cast_id] at hsum
      simp only [stepsLeft, hteardown]
      omega
  | inUse | contextCache | done =>
      simp only [stepsLeft, hteardown]
      omega

omit [DecidableEq T] [DecidableEq Page] [DecidableEq Storage] in
/-- A thread that is a step nearer to leaving takes a step off what is left. -/
theorem stepsLeft_lt_of_thread {allocator : AllocatorState T Page Storage} {i : ℕ}
    (hteardown : s.teardown ≠ .inUse) (hi : i < s.threads.length) (hawaits : s.teardown.Awaits i)
    (hentry : s.threads.threadCaches i = some t) (hpc : ∀ u, u ≠ t → allocator.pc u = s.allocator.pc u)
    (hleft : (allocator.pc t).stepsToLeave + 1 = (s.allocator.pc t).stepsToLeave) :
    ({ s with allocator } : ContextHeap T Page Storage).stepsLeft < s.stepsLeft := by
  have hle : ∀ j, ({ s with allocator } : ContextHeap T Page Storage).stepsFor j ≤ s.stepsFor j := by
    intro j
    simp only [stepsFor]
    split
    · rename_i u _
      rcases eq_or_ne u t with rfl | hu
      · omega
      · rw [hpc u hu]
    · exact le_rfl
  have hlt : ({ s with allocator } : ContextHeap T Page Storage).stepsFor i < s.stepsFor i := by
    simp only [stepsFor, hentry]
    omega
  cases hat : s.teardown with
  | inUse => exact absurd hat hteardown
  | contextCache | done =>
      rw [hat] at hawaits
      exact hawaits.elim
  | threads index =>
      rw [hat] at hawaits
      simp only [stepsLeft, hat]
      exact Nat.add_lt_add_right (Finset.sum_lt_sum (fun j _ => hle j)
        ⟨i, Finset.mem_Ico.mpr ⟨hawaits, hi⟩, hlt⟩) 2

omit [DecidableEq T] [DecidableEq Page] [DecidableEq Storage] in
/-- The destructor takes a step off what is left when it goes on to the next cache. -/
theorem stepsLeft_lt_of_next {allocator : AllocatorState T Page Storage} {i : ℕ}
    (hteardown : s.teardown = .threads i) (hi : i < s.threads.length)
    (hpc : ∀ u, (allocator.pc u).stepsToLeave ≤ (s.allocator.pc u).stepsToLeave) :
    ({ s with allocator, teardown := .threads (i + 1) } : ContextHeap T Page Storage).stepsLeft < s.stepsLeft := by
  have hle : ∀ j, ({ s with allocator, teardown := .threads (i + 1) } :
      ContextHeap T Page Storage).stepsFor j ≤ s.stepsFor j := by
    intro j
    simp only [stepsFor]
    split
    · exact Nat.add_le_add_right (hpc _) 1
    · exact le_rfl
  have hpos : 0 < s.stepsFor i := by
    rw [stepsFor]
    split <;> omega
  have hsum := Finset.sum_le_sum fun j (_ : j ∈ Finset.Ico (i + 1) s.threads.length) => hle j
  simp only [stepsLeft, hteardown, Finset.sum_eq_sum_Ico_succ_bot hi]
  omega

/-! ## All steps -/

variable {event : HeapEvent T Page Storage} {rounds : ℕ}

omit [DecidableEq Storage] in
/-- No thread is further from leaving once a cache is finalized. -/
theorem stepsToLeave_finalized (allocator : AllocatorState T Page Storage) (cells : List (Cell Page Storage))
    (u : T) : ((allocator.finalized t cells).pc u).stepsToLeave ≤ (allocator.pc u).stepsToLeave := by
  show (update allocator.pc t .unregistered u).stepsToLeave ≤ _
  rcases eq_or_ne u t with rfl | hu
  · rw [update_self]
    exact Nat.zero_le _
  · rw [update_of_ne hu]

/-- A step of the destructor. -/
theorem Invariant.finalizeStep (h : s.Invariant pageSize) (hstep : s.finalizeStep rounds = some s') :
    s'.Invariant pageSize ∧ s'.teardown ≠ .inUse ∧ s'.stepsLeft < s.stepsLeft := by
  cases hteardown : s.teardown with
  | inUse | done => simp [ContextHeap.finalizeStep, hteardown] at hstep
  | contextCache =>
      obtain ⟨n, t, hdone, hinv, hall⟩ := h.finalizeContext hteardown
      rw [hall rounds, Option.ite_none_right_eq_some, Option.some.injEq] at hstep
      obtain ⟨-, rfl⟩ := hstep
      refine ⟨hinv, by simp [hdone], ?_⟩
      simp [stepsLeft, hdone, hteardown]
  | threads i =>
      by_cases hi : i < s.threads.length
      · obtain ⟨t, hget, hentry⟩ := (h.array (by rw [hteardown]; rfl)).get?_eq hi
        simp only [ContextHeap.finalizeStep, hteardown, if_pos hi, hget] at hstep
        cases hpc : s.allocator.pc t
        case unregistered =>
          simp only [finalizeThreadCache, hpc, Option.some.injEq] at hstep
          obtain rfl := hstep
          exact ⟨h.skip hteardown hentry hpc, by simp,
            stepsLeft_lt_of_next hteardown hi fun u => le_rfl⟩
        case idle =>
          obtain ⟨cells, n, hall, hinv⟩ := h.finalizeThreadCache_idle hteardown hentry hpc
          rw [hall rounds, Option.ite_none_right_eq_some, Option.some.injEq] at hstep
          obtain ⟨-, rfl⟩ := hstep
          exact ⟨hinv, by simp, stepsLeft_lt_of_next hteardown hi (stepsToLeave_finalized _ cells)⟩
        all_goals simp [finalizeThreadCache, hpc] at hstep
      · obtain ⟨hfree, hinv⟩ := h.freeArray hteardown (not_lt.mp hi)
        simp only [ContextHeap.finalizeStep, hteardown, if_neg hi, hfree, Option.some.injEq] at hstep
        obtain rfl := hstep
        refine ⟨hinv, by simp, ?_⟩
        simp only [stepsLeft, hteardown]
        omega

/-- A destructor that performs the thread half makes the exit a step of the thread. -/
theorem step_thread (s : ContextHeap T Page Storage) (e : AllocatorEvent T Page Storage) :
    s.step .thread pageSize (.thread e) = if s.allocator.undefined then none else s.threadStep pageSize e := by
  cases e <;> rfl

/-- Every legal step keeps the invariant, and once the context is being destroyed takes a step off what is
left. -/
theorem Invariant.step (h : s.Invariant pageSize) (hpage : futureSize ≤ pageSize - futureSize)
    (hlegal : s.Legal event) (hstep : s.step .thread pageSize event = some s') :
    s'.Invariant pageSize ∧ (s.teardown ≠ .inUse → s'.teardown ≠ .inUse ∧ s'.stepsLeft < s.stepsLeft) := by
  have hundefined : ¬ s.allocator.undefined = true := by simp [h.defined]
  cases event with
  | thread e =>
      rw [step_thread, if_neg hundefined] at hstep
      by_cases hteardown : s.teardown = .inUse
      · exact ⟨h.threadStep hpage hteardown hstep, fun hnot => absurd hteardown hnot⟩
      · obtain ⟨hinv, allocator, rfl, hpc, hleft, i, hi, hawaits, hentry⟩ :=
          h.threadLeaves hpage hteardown (hlegal.leaves hteardown) hstep
        exact ⟨hinv, fun _ => ⟨hteardown, stepsLeft_lt_of_thread hteardown hi hawaits hentry hpc hleft⟩⟩
  | finalizeNext rounds =>
      simp only [ContextHeap.step, if_neg hundefined] at hstep
      obtain ⟨hinv, hnot, hless⟩ := h.finalizeStep hstep
      exact ⟨hinv, fun _ => ⟨hnot, hless⟩⟩
  | finalize =>
      simp only [ContextHeap.step, if_neg hundefined, Option.ite_none_right_eq_some, Option.some.injEq] at hstep
      obtain ⟨hteardown, rfl⟩ := hstep
      have hne : s.teardown ≠ .done := by simp [hteardown]
      obtain ⟨forgotten, hinv, -⟩ := h.account hne
      refine ⟨⟨h.defined, fun _ => ⟨forgotten, hinv, (fun heq => nomatch heq)⟩, fun _ => h.storages hne,
        fun _ => h.array (by rw [hteardown]; rfl), (fun hfree => nomatch hfree), fun t ht => ?_,
        fun _ => hlegal, (fun hdone => nomatch hdone)⟩, fun hnot => absurd hteardown hnot⟩
      obtain ⟨i, hi, -, hentry⟩ := h.cached t ht
      exact ⟨i, hi, Nat.zero_le i, hentry⟩

/-- A thread of which the destructor waits, or the one that holds the mutex before it, can go on. -/
theorem Invariant.threadGoesOn (h : s.Invariant pageSize) (hteardown : s.teardown ≠ .inUse)
    (hne : s.teardown ≠ .done) (hpc : s.allocator.pc t ≠ .unregistered ∧ s.allocator.pc t ≠ .idle)
    (freshPage : Page) (freshStorage : Storage) :
    ∃ u s', s.step .thread pageSize (.thread (.advance u freshPage freshStorage)) = some s' := by
  have houtside := h.outside hteardown
  -- a step of a call that is not an allocation is a step of the machine
  have henabled : ∀ u, (∃ allocator, allocatorThreadStep pageSize u freshPage freshStorage s.allocator
      = some allocator) → ∃ s', s.step .thread pageSize (.thread (.advance u freshPage freshStorage))
        = some s' := by
    rintro u ⟨allocator, hallocator⟩
    have hundefined : ¬ s.allocator.undefined = true := by simp [h.defined]
    have hrefill : s.allocator.pc u ≠ .allocateRefill := fun hu => by
      simpa [hu, AllocatorPc.outside] using houtside u
    refine ⟨{ s with allocator }, ?_⟩
    simp only [ContextHeap.step, if_neg hundefined, ContextHeap.threadStep, allocatorStep_advance h.defined,
      hallocator, Option.bind_eq_bind, Option.bind_some, if_neg hrefill]
  -- the holder of the mutex is spilling
  have hholder : ∀ u, s.allocator.pc u = .spill ∨ s.allocator.pc u = .spillUnlock →
      ∃ allocator, allocatorThreadStep pageSize u freshPage freshStorage s.allocator = some allocator := by
    rintro u (hu | hu) <;> simp only [allocatorThreadStep, hu]
    · split <;> exact ⟨_, rfl⟩
    · exact ⟨_, rfl⟩
  cases hat : s.allocator.pc t
  case unregistered => exact absurd hat hpc.1
  case idle => exact absurd hat hpc.2
  case spill => exact ⟨t, henabled t (hholder t (.inl hat))⟩
  case spillUnlock => exact ⟨t, henabled t (hholder t (.inr hat))⟩
  case spillLock =>
    cases hmutex : s.allocator.mutex with
    | none =>
        refine ⟨t, henabled t ?_⟩
        simp only [allocatorThreadStep, hat, AllocatorState.lock, hmutex, if_true]
        exact ⟨_, rfl⟩
    | some u =>
        obtain ⟨forgotten, ⟨w, hlaw⟩, -⟩ := h.account hne
        have hlocks : (s.allocator.pc u).locks = true := (hlaw.mutex u).mp hmutex
        refine ⟨u, henabled u (hholder u ?_)⟩
        have hu := houtside u
        cases hpcu : s.allocator.pc u <;> simp [hpcu, AllocatorPc.locks, AllocatorPc.outside] at hlocks hu ⊢
  all_goals
    have ht := houtside t
    simp [hat, AllocatorPc.outside] at ht

/-- The destructor or a thread that leaves can take a step, until the context is destroyed. -/
theorem Invariant.progress (h : s.Invariant pageSize) (hteardown : s.teardown ≠ .inUse)
    (hne : s.teardown ≠ .done) (freshPage : Page) (freshStorage : Storage) :
    ∃ (event : HeapEvent T Page Storage) (s' : ContextHeap T Page Storage),
      s.Legal event ∧ s.step .thread pageSize event = some s' := by
  have hundefined : ¬ s.allocator.undefined = true := by simp [h.defined]
  cases hat : s.teardown with
  | inUse => exact absurd hat hteardown
  | done => exact absurd hat hne
  | contextCache =>
      obtain ⟨n, s', -, -, hall⟩ := h.finalizeContext hat
      refine ⟨.finalizeNext (n + 1), s', trivial, ?_⟩
      simp only [ContextHeap.step, if_neg hundefined, hall, if_pos (Nat.lt_succ_self n)]
  | threads i =>
      by_cases hi : i < s.threads.length
      · obtain ⟨t, hget, hentry⟩ := (h.array (by rw [hat]; rfl)).get?_eq hi
        by_cases hgone : s.allocator.pc t = .unregistered
        · refine ⟨.finalizeNext 0, { s with teardown := .threads (i + 1) }, trivial, ?_⟩
          simp only [ContextHeap.step, if_neg hundefined, ContextHeap.finalizeStep, hat, if_pos hi, hget,
            finalizeThreadCache, hgone]
        by_cases hidle : s.allocator.pc t = .idle
        · obtain ⟨cells, n, hall, -⟩ := h.finalizeThreadCache_idle hat hentry hidle
          refine ⟨.finalizeNext (n + 1),
            { s with allocator := s.allocator.finalized t cells, teardown := .threads (i + 1) }, trivial, ?_⟩
          simp only [ContextHeap.step, if_neg hundefined, ContextHeap.finalizeStep, hat, if_pos hi, hget,
            hall, if_pos (Nat.lt_succ_self n)]
        · obtain ⟨u, s', hstep⟩ := h.threadGoesOn hteardown hne ⟨hgone, hidle⟩ freshPage freshStorage
          exact ⟨.thread (.advance u freshPage freshStorage), s', trivial, hstep⟩
      · obtain ⟨hfree, -⟩ := h.freeArray hat (not_lt.mp hi)
        refine ⟨.finalizeNext 0,
          { s with threads := ⟨fun _ => none, 0, 0, false⟩, teardown := .contextCache }, trivial, ?_⟩
        simp only [ContextHeap.step, if_neg hundefined, ContextHeap.finalizeStep, hat, if_neg hi, hfree]

/-! ## Over every run -/

/-- What a maintainer relies on in every state. -/
structure MemoryLaw (s : ContextHeap T Page Storage) : Prop where
  /-- Nothing was read, written or freed that was not allocated. -/
  defined : s.allocator.undefined = false
  storages : s.teardown ≠ .done → s.storage.Holds s.allocator.storages
  array : s.teardown.holdsArray = true → s.threads.Valid
  /-- The cache of a thread is in the array once, and the destructor has not passed it. -/
  cached : ∀ t, s.allocator.pc t ≠ .unregistered → ∃! i, i < s.threads.length ∧
    s.teardown.Awaits i ∧ s.threads.threadCaches i = some t
  released : s.teardown = .done → (∀ p, s.allocator.memory.allocated p = false) ∧
    (∀ p, s.allocator.storages p = false) ∧ s.threads.allocated = false

omit [DecidableEq T] [DecidableEq Page] [DecidableEq Storage] in
theorem Invariant.memoryLaw (h : s.Invariant pageSize) : s.MemoryLaw := by
  refine ⟨h.defined, h.storages, h.array, fun t ht => ?_, fun hdone => ?_⟩
  · obtain ⟨i, hi, hawaits, hentry⟩ := h.cached t ht
    refine ⟨i, ⟨hi, hawaits, hentry⟩, ?_⟩
    rintro j ⟨hj, -, hentry'⟩
    exact (h.array hawaits.holdsArray).injective j hj i hi (hentry'.trans hentry.symm)
  · obtain ⟨hpages, hstorages, -⟩ := h.released hdone
    exact ⟨hpages, hstorages, h.freed (by rw [hdone]; rfl)⟩

end ContextHeap

variable [DecidableEq T] [DecidableEq Page] [DecidableEq Storage]
  {pages : Page → PointerPage Page Storage} {es fs : List (HeapEvent T Page Storage)}

/-- The run lemma. -/
theorem ContextHeap.invariant_of_run (hpage : futureSize ≤ pageSize - futureSize)
    (hlegal : (contextHeap .thread pageSize).Along (fun s e _ => s.Legal e) (.start pageSize pages) es)
    (hrun : (contextHeap .thread pageSize).run (.start pageSize pages) es = some s) : s.Invariant pageSize := by
  have hsize : pointerSize ≤ pageSize := by
    simp only [futureSize, pointerSize] at hpage ⊢
    omega
  exact Machine.invariant_of_along (fun s e s' h hlegal hstep => (h.step hpage hlegal hstep).1)
    (ContextHeap.start_invariant hsize pages) hlegal hrun

/-- The other half, which `udipe_initialize` installs, is not defined when a thread leaves. -/
theorem exit_undefined {t : T}
    (hstep : (contextHeap futureThreadCacheDestructor pageSize).step s (.thread (.exit t)) = some s') :
    s'.allocator.undefined = true := by
  simp only [contextHeap, ContextHeap.step, ContextHeap.exitStep, futureThreadCacheDestructor,
    Option.ite_none_left_eq_some, Option.ite_none_right_eq_some, Option.some.injEq] at hstep
  obtain ⟨-, -, rfl⟩ := hstep
  rfl

variable {destructor : Half}

/-- Over every run of the threads and the destructor of a context: no memory is used that is not allocated and
none is freed twice, the list of storage pages leads through all of them, each thread that has a cache is in the
array once, and when the context is destroyed every page and the array have been freed. The destructor of the TSS
performs the thread half, and a storage page has room for a future. -/
theorem contextHeap_memoryLaw (hdestructor : destructor = .thread) (hpage : futureSize ≤ pageSize - futureSize)
    (hlegal : (contextHeap destructor pageSize).Along (fun s e _ => s.Legal e) (.start pageSize pages) es)
    (hrun : (contextHeap destructor pageSize).run (.start pageSize pages) es = some s) : s.MemoryLaw := by
  subst hdestructor
  exact (ContextHeap.invariant_of_run hpage hlegal hrun).memoryLaw

/-- From any state in which the context is being destroyed, whatever the order of the steps, if the destructor of the
TSS performs the thread half: at most five steps for each thread cache and two more are taken, and as long as the
context is not destroyed, the destructor or a thread that leaves can take one. -/
theorem contextHeap_teardownEnds (hdestructor : destructor = .thread) (hpage : futureSize ≤ pageSize - futureSize)
    (hlegal : (contextHeap destructor pageSize).Along (fun s e _ => s.Legal e) (.start pageSize pages) es)
    (hrun : (contextHeap destructor pageSize).run (.start pageSize pages) es = some s)
    (hteardown : s.teardown ≠ .inUse)
    (hlegal' : (contextHeap destructor pageSize).Along (fun s e _ => s.Legal e) s fs)
    (hrun' : (contextHeap destructor pageSize).run s fs = some s') :
    fs.length ≤ 5 * s.threads.length + 2 ∧
      ∀ (_ : Page) (_ : Storage), s'.teardown = .done ∨
        ∃ (event : HeapEvent T Page Storage) (s'' : ContextHeap T Page Storage),
          s'.Legal event ∧ (contextHeap destructor pageSize).step s' event = some s'' := by
  subst hdestructor
  have hinv := ContextHeap.invariant_of_run hpage hlegal hrun
  have hkeep : ∀ (s : ContextHeap T Page Storage) (e : HeapEvent T Page Storage) s',
      (s.Invariant pageSize ∧ s.teardown ≠ .inUse) → s.Legal e →
        (contextHeap .thread pageSize).step s e = some s' →
      (s'.Invariant pageSize ∧ s'.teardown ≠ .inUse) ∧ s'.stepsLeft < s.stepsLeft := by
    rintro s e s' ⟨h, hteardown⟩ hlegal hstep
    obtain ⟨h', hnext⟩ := h.step hpage hlegal hstep
    exact ⟨⟨h', (hnext hteardown).1⟩, (hnext hteardown).2⟩
  constructor
  · have hlength := Machine.length_add_le_of_variant
      (I := fun s : ContextHeap T Page Storage => s.Invariant pageSize ∧ s.teardown ≠ .inUse)
      (v := ContextHeap.stepsLeft) (fun s e s' h hC hs => (hkeep s e s' h hC hs).1)
      (fun s e s' h hC hs => (hkeep s e s' h hC hs).2) ⟨hinv, hteardown⟩ hlegal' hrun'
    have hle := s.stepsLeft_le
    omega
  · intro freshPage freshStorage
    obtain ⟨hinv', hteardown'⟩ := Machine.invariant_of_along
      (I := fun s : ContextHeap T Page Storage => s.Invariant pageSize ∧ s.teardown ≠ .inUse)
      (fun s e s' h hC hs => (hkeep s e s' h hC hs).1) ⟨hinv, hteardown⟩ hlegal' hrun'
    by_cases hdone : s'.teardown = .done
    · exact .inl hdone
    · exact .inr (hinv'.progress hteardown' hdone freshPage freshStorage)

/-! ## A run -/

instance decidableHeapLegal [Fintype T] (s : ContextHeap T Page Storage) :
    ∀ e, Decidable (s.Legal e)
  | .thread (.register _ _) | .thread (.allocate _) | .thread (.liberate _ _) =>
      inferInstanceAs (Decidable (s.teardown = .inUse))
  | .finalize => inferInstanceAs (Decidable (∀ t, (s.allocator.pc t).outside = true))
  | .thread (.exit _) | .thread (.advance _ _ _) | .finalizeNext _ => isTrue trivial

/-- Thread 0 allocates a future from a new storage page, and thread 1 begins to leave. -/
def usedContext : List (HeapEvent (Fin 2) ℕ ℕ) :=
  [.thread (.register 0 [10, 11]), .thread (.register 1 [20, 21]), .thread (.allocate 0),
    .thread (.advance 0 0 0), .thread (.advance 0 0 0), .thread (.advance 0 0 7), .thread (.advance 0 0 0),
    .thread (.advance 0 0 0), .thread (.exit 1), .finalize]

/-- The destructor finalizes the cache of thread 0, waits for thread 1 and frees what is left. -/
def destroyedContext : List (HeapEvent (Fin 2) ℕ ℕ) :=
  [.finalizeNext 3, .thread (.advance 1 0 0), .thread (.advance 1 0 0), .thread (.advance 1 0 0),
    .finalizeNext 0, .finalizeNext 0, .finalizeNext 3]

/-- Pages that are not initialized. -/
def freshPages : ℕ → PointerPage ℕ ℕ := fun _ => ⟨none, none, fun _ => none⟩

theorem usedContext_legal : (contextHeap .thread 256).Along (fun s e _ => s.Legal e)
    (.start 256 freshPages) (usedContext ++ destroyedContext) := by
  decide +kernel

theorem contextHeap_memoryLaw_destroyed :
    ∃ s, (contextHeap .thread 256).run (.start 256 freshPages) (usedContext ++ destroyedContext) = some s ∧
      s.teardown = .done ∧ s.MemoryLaw := by
  have hend : ((contextHeap .thread 256).run (.start 256 freshPages) (usedContext ++ destroyedContext)).map
      ContextHeap.teardown = some .done := by
    decide +kernel
  obtain ⟨s, hrun, hdone⟩ := Option.map_eq_some_iff.mp hend
  exact ⟨s, hrun, hdone, contextHeap_memoryLaw rfl (by decide) usedContext_legal hrun⟩

/-- Seven steps of the twelve that there may be. -/
theorem contextHeap_teardownEnds_destroyed :
    ∃ s s', (contextHeap .thread 256).run (.start 256 freshPages) usedContext = some s ∧
      (contextHeap .thread 256).run s destroyedContext = some s' ∧
      destroyedContext.length ≤ 5 * s.threads.length + 2 := by
  have hend : (((contextHeap .thread 256).run (.start 256 freshPages) usedContext).any
      fun s => s.teardown ≠ .inUse) = true := by
    decide +kernel
  obtain ⟨s, hrun, hteardown⟩ := (Option.any_eq_true _ _).mp hend
  obtain ⟨s', hrun'⟩ : ∃ s', (contextHeap .thread 256).run s destroyedContext = some s' := by
    have hall : ((contextHeap .thread 256).run (.start 256 freshPages) (usedContext ++ destroyedContext)).isSome
        = true := by
      decide +kernel
    rw [Machine.run_append, hrun] at hall
    exact Option.isSome_iff_exists.mp hall
  exact ⟨s, s', hrun, hrun', (contextHeap_teardownEnds rfl (by decide) usedContext_legal.append_left hrun
    (of_decide_eq_true hteardown) (usedContext_legal.append_right hrun) hrun').1⟩

end Udipe

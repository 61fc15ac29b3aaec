import Udipe.Allocator.ContextHeap
import Udipe.Allocator.Steps

/-!
# What the steps of a context's memory do

The array of the thread caches, the list of the storage pages and the pages of a cache that is finalized, each
on its own. A cache that is finalized takes the futures in it out of the account; they are counted with those
of the application from then on.
-/

namespace Udipe

open Function Checked

variable {T Page Storage : Type} {t u : T}

/-! ## The array of the thread caches -/

/-- The first `length` entries of the array are thread caches, no two the same. -/
structure ThreadCacheArray.Valid (array : ThreadCacheArray T) : Prop where
  allocated : array.allocated = true
  capacity_pos : 0 < array.capacity
  length_le : array.length ≤ array.capacity
  entry : ∀ i < array.length, ∃ t, array.threadCaches i = some t
  injective : ∀ i < array.length, ∀ j < array.length, array.threadCaches i = array.threadCaches j → i = j

namespace ThreadCacheArray.Valid

variable {array : ThreadCacheArray T}

theorem initial {pageSize : ℕ} (hpage : pointerSize ≤ pageSize) :
    (ThreadCacheArray.initial pageSize : ThreadCacheArray T).Valid where
  allocated := rfl
  capacity_pos := Nat.div_pos hpage (by decide)
  length_le := Nat.zero_le _
  entry i hi := absurd hi (Nat.not_lt_zero i)
  injective i hi := absurd hi (Nat.not_lt_zero i)

/-- The destructor reads thread caches. -/
theorem get?_eq (h : array.Valid) {i : ℕ} (hi : i < array.length) :
    ∃ t, array.get? i = some t ∧ array.threadCaches i = some t := by
  obtain ⟨t, ht⟩ := h.entry i hi
  refine ⟨t, ?_, ht⟩
  rw [ThreadCacheArray.get?, if_pos ⟨h.allocated, hi.trans_le h.length_le⟩, ht]

/-- A new thread cache finds room behind the others. -/
theorem register (h : array.Valid) (hnew : ∀ i < array.length, array.threadCaches i ≠ some t) :
    ∃ array', futureContextCacheRegisterThread array t = some array' ∧ array'.Valid ∧
      array'.length = array.length + 1 ∧ array'.threadCaches = update array.threadCaches array.length (some t) := by
  -- whether or not the array has grown
  obtain ⟨capacity, hgrown, hpos, hlt⟩ : ∃ capacity,
      (if array.length = array.capacity then { array with capacity := array.capacity * 2 } else array)
        = { array with capacity } ∧ 0 < capacity ∧ array.length < capacity := by
    have hcapacity := h.capacity_pos
    have hle := h.length_le
    split_ifs with hfull
    · exact ⟨array.capacity * 2, rfl, by omega, by omega⟩
    · exact ⟨array.capacity, rfl, hcapacity, by omega⟩
  have hother : ∀ i < array.length,
      update array.threadCaches array.length (some t) i = array.threadCaches i :=
    fun i hi => update_of_ne hi.ne ..
  refine ⟨⟨update array.threadCaches array.length (some t), array.length + 1, capacity, true⟩, ?_, ?_, rfl, rfl⟩
  · simp only [futureContextCacheRegisterThread, hgrown]
    rw [set?, if_pos ⟨h.allocated, hlt⟩, h.allocated]
  · refine ⟨rfl, hpos, hlt, fun i hi => ?_, fun i hi j hj heq => ?_⟩
    · rcases Nat.lt_succ_iff_lt_or_eq.mp hi with hi | rfl
      · obtain ⟨v, hv⟩ := h.entry i hi
        exact ⟨v, (hother i hi).trans hv⟩
      · exact ⟨t, update_self ..⟩
    · rcases Nat.lt_succ_iff_lt_or_eq.mp hi with hi | rfl <;>
        rcases Nat.lt_succ_iff_lt_or_eq.mp hj with hj | rfl
      · simp only [hother i hi, hother j hj] at heq
        exact h.injective i hi j hj heq
      · simp only [hother i hi, update_self] at heq
        exact absurd heq (hnew i hi)
      · simp only [hother j hj, update_self] at heq
        exact absurd heq.symm (hnew j hj)
      · rfl

end ThreadCacheArray.Valid

/-! ## The storage pages -/

section

variable [DecidableEq Storage]

/-- The list leads through the storage pages that are allocated, once each. -/
def StorageList.Holds (list : StorageList Storage) (storages : Storage → Bool) : Prop :=
  ∃ pages, LeadsThrough list.next pages ∧ list.firstStoragePage = pages.head? ∧ pages.Nodup ∧
    ∀ p, storages p = true ↔ p ∈ pages

variable {list : StorageList Storage} {storages : Storage → Bool} {new : Storage} {rounds : ℕ}

theorem StorageList.Holds.allocate (h : list.Holds storages) (hnew : storages new = false) :
    (futureStorageAllocate list new).Holds (update storages new true) := by
  obtain ⟨pages, hlist, hfirst, hnodup, hiff⟩ := h
  have hnot : new ∉ pages := fun hmem => by simp [(hiff new).mpr hmem] at hnew
  refine ⟨new :: pages, ?_, rfl, List.nodup_cons.mpr ⟨hnot, hnodup⟩, fun p => ?_⟩
  · show LeadsThrough (update list.next new list.firstStoragePage) (new :: pages)
    rw [hfirst]
    exact hlist.push hnot
  · rcases eq_or_ne p new with rfl | hne
    · simp
    · rw [update_of_ne hne, hiff, List.mem_cons]
      exact (or_iff_right hne).symm

/-- Every storage page is freed, once, with enough rounds. -/
theorem StorageList.Holds.liberateAll (h : list.Holds storages) :
    ∃ n, ∀ rounds, futureStorageLiberateAll rounds list storages =
      if n < rounds then .ok ({ list with firstStoragePage := none }, fun _ => false) else .error .exhausted := by
  obtain ⟨pages, hlist, hfirst, hnodup, hiff⟩ := h
  have hall : ∀ p ∈ pages, storages p = true := fun p => (hiff p).mpr
  have hnone : (fun p => if p ∈ pages then false else storages p) = fun _ => false := by
    funext p
    split_ifs with hp
    · rfl
    · exact Bool.eq_false_iff.mpr fun htrue => hp ((hiff p).mp htrue)
  refine ⟨pages.length, fun rounds => ?_⟩
  rw [futureStorageLiberateAll, hfirst]
  split_ifs with hrounds
  · rw [freeList_eq hlist hnodup hall hrounds, hnone]
    rfl
  · rw [freeList_exhausted hlist hnodup hall (not_lt.mp hrounds)]
    rfl

end

/-! ## The pages of a cache -/

/-- The memory once the pages of the cells are freed. -/
def PageMemory.without [DecidableEq Page] (m : PageMemory Page Storage) (cells : List (Cell Page Storage)) :
    PageMemory Page Storage :=
  { m with allocated := fun p => if p ∈ pagesOf cells then false else m.allocated p }

/-- Every page of a cache is freed, once, with enough rounds. -/
theorem futurePointerCacheFinalize_eq [DecidableEq Page] {capacity : ℕ} {m : PageMemory Page Storage}
    {cache : PointerCache Page} {cells : List (Cell Page Storage)} (h : cache.Represents m capacity cells)
    (hallocated : ∀ p ∈ pagesOf cells, m.allocated p = true) (rounds : ℕ) :
    futurePointerCacheFinalize rounds m cache =
      if cells.length < rounds then .ok (⟨none, none, 0⟩, m.without cells) else .error .exhausted := by
  have hlist : LeadsThrough (fun p => (m.pages p).next) (pagesOf cells) := LeadsThrough.of_lists h.linked
  have hnodup := h.linked.nodup
  rw [futurePointerCacheFinalize, h.bottom]
  split_ifs with hrounds
  · rw [freeList_eq hlist hnodup hallocated (by rwa [length_pagesOf])]
    rfl
  · rw [freeList_exhausted hlist hnodup hallocated (by simpa using hrounds)]
    rfl

/-! ## The account -/

namespace AllocatorState

/-- The state with other futures of the application. -/
def withLive (s : AllocatorState T Page Storage) (live : Multiset (FuturePtr Storage)) :
    AllocatorState T Page Storage :=
  { s with live }

variable [DecidableEq T] [DecidableEq Page] {s : AllocatorState T Page Storage} {capacity length : ℕ}
  {w : Place T → List (Cell Page Storage)}

/-- Thread `t` when the context has finalized its cache, whose cells were these. -/
def finalized (s : AllocatorState T Page Storage) (t : T) (cells : List (Cell Page Storage)) :
    AllocatorState T Page Storage :=
  (s.setThread t ⟨none, none, 0⟩ (s.memory.without cells)).goto t .unregistered

/-- The pages of the cache are gone, and its futures are with the application. -/
theorem Law.finalized (h : s.Law capacity length w) (hpc : s.pc t = .idle) :
    ((s.finalized t (w (.thread t))).withLive (s.live + futuresOf (w (.thread t)))).Law capacity length
      (update w (.thread t) []) := by
  have hfits := h.fits t
  rw [hpc] at hfits
  have hhand : w (.hand t) = [] := hfits.carries
  have hother : ∀ place, place ≠ .thread t → update w (.thread t) [] place = w place :=
    fun place hne => update_of_ne hne ..
  have hthread : update w (.thread t) [] (.thread t) = [] := update_self ..
  refine ⟨fun place => ?_, fun u => ?_, ?_, ?_, fun u => ?_, h.defined⟩
  · rcases eq_or_ne place (.thread t) with rfl | hne
    · rw [hthread]
      show PointerCache.Represents _ _ (update s.threadCaches t ⟨none, none, 0⟩ t) []
      rw [update_self]
      exact PointerCache.represents_initializeGlobal _ _
    · rw [hother place hne]
      refine (h.holds place).congr (fun _ _ => rfl) (fun _ => rfl) fun u hu => update_of_ne ?_ ..
      intro heq
      exact hne (by rw [hu, heq])
  · rcases eq_or_ne u t with rfl | hne
    · rw [hthread, hother _ (by simp)]
      show (update s.pc u .unregistered u).Fits capacity [] (w (.hand u))
      rw [update_self, hhand]
      exact ⟨rfl, rfl, trivial⟩
    · rw [hother _ (by simpa using hne), hother _ (by simp)]
      show (update s.pc t .unregistered u).Fits _ _ _
      rw [update_of_ne hne]
      exact h.fits u
  · refine h.pages.discard (.thread t) (by rw [hthread]; rfl) (fun place hne => by rw [hother place hne]) fun p => ?_
    show (if p ∈ pagesOf (w (.thread t)) then false else s.memory.allocated p) = true ↔ _
    split_ifs with hp
    · simpa using fun _ => hp
    · simpa using fun _ => hp
  · refine h.futures.exchange {.thread t, .client} 0 (fun place hplace => ?_) ?_ Multiset.nodup_zero
      (by simp) (fun f => ?_)
    · have hne : place ≠ .thread t ∧ place ≠ .client := by simpa [not_or] using hplace
      rw [hother place hne.1]
      rcases place with _ | v | v | _
      · rfl
      · rfl
      · show _ + (update s.pc t .unregistered v).held = _ + (s.pc v).held
        rcases eq_or_ne v t with rfl | hv
        · rw [update_self, hpc]
          rfl
        · rw [update_of_ne hv]
      · exact absurd rfl hne.2
    · rw [Finset.sum_pair (by simp), Finset.sum_pair (by simp), hthread, hother .client (by simp)]
      show ((futuresOf [] : List (FuturePtr Storage)) : Multiset _) + 0 + (_ + (s.live + _))
        = 0 + (_ + 0 + (_ + s.live))
      simp only [futuresOf_nil, Multiset.coe_nil, zero_add, add_zero]
      rw [add_comm s.live, ← add_assoc, ← add_assoc]
      exact congrArg (· + s.live) (add_comm _ _)
    · show _ ↔ f ∈ (0 : Multiset (FuturePtr Storage)) ∨ _
      exact (or_iff_right (Multiset.notMem_zero f)).symm
  · show s.mutex = some u ↔ (update s.pc t .unregistered u).locks = true
    rw [h.mutex u]
    rcases eq_or_ne u t with rfl | hne
    · rw [update_self, hpc]
      rfl
    · rw [update_of_ne hne]

omit [DecidableEq T] [DecidableEq Page] in
/-- When no thread has a cache, the mutex is free and all pages are with the context. -/
theorem Law.unregistered (h : s.Law capacity length w) (hpc : ∀ t, s.pc t = .unregistered) :
    s.mutex = none ∧ ∀ p, s.memory.allocated p = true → p ∈ pagesOf (w .context) := by
  constructor
  · rw [Option.eq_none_iff_forall_not_mem]
    intro t ht
    have hlocks := (h.mutex t).mp ht
    rw [hpc t] at hlocks
    cases hlocks
  · intro p hp
    obtain ⟨place, hmem⟩ := (h.pages.all_iff p).mp hp
    have hempty : place ≠ .context → w place = [] := by
      intro hplace
      rcases place with _ | t | t | _
      · exact absurd rfl hplace
      · have hfits := h.fits t
        rw [hpc t] at hfits
        exact List.length_eq_zero_iff.mp hfits.pages
      · have hfits := h.fits t
        rw [hpc t] at hfits
        exact hfits.carries
      · exact h.holds .client
    by_contra hnot
    rw [hempty fun hplace => hnot (hplace ▸ hmem)] at hmem
    exact absurd hmem (Multiset.notMem_zero p)

end AllocatorState

/-! ## The steps of the threads -/

/-- The thread that makes the step. -/
def AllocatorEvent.by : AllocatorEvent T Page Storage → T
  | .register t _ | .allocate t | .liberate t _ | .exit t | .advance t _ _ => t

/-- The steps of threads that leave. -/
def AllocatorEvent.leaves : AllocatorEvent T Page Storage → Bool
  | .exit _ | .advance _ _ _ => true
  | .register _ _ | .allocate _ | .liberate _ _ => false

/-- The steps that a thread still has to make to leave. -/
def AllocatorPc.stepsToLeave : AllocatorPc Page Storage → ℕ
  | .unregistered => 0
  | .spillUnlock => 1
  | .spill => 2
  | .spillLock => 3
  | _ => 4

section

variable [DecidableEq T] [DecidableEq Page] [DecidableEq Storage] {pageSize : ℕ}
  {s s' : AllocatorState T Page Storage} {e : AllocatorEvent T Page Storage} {freshPage : Page}
  {freshStorage : Storage}

/-- The refill allocates a storage page. -/
theorem allocatorThreadStep_refill (hpc : s.pc t = .allocateRefill)
    (hstep : allocatorThreadStep pageSize t freshPage freshStorage s = some s') :
    (∃ pc, s'.pc = update s.pc t pc) ∧
      (s'.undefined = true ∨
        s.storages freshStorage = false ∧ s'.storages = update s.storages freshStorage true) := by
  simp only [allocatorThreadStep, hpc] at hstep
  split at hstep
  · cases hstep
  rename_i hnew
  split at hstep <;> obtain rfl := Option.some.inj hstep
  · exact ⟨⟨_, rfl⟩, .inr ⟨Bool.eq_false_iff.mpr hnew, rfl⟩⟩
  · exact ⟨⟨_, (update_eq_self t s.pc).symm⟩, .inl rfl⟩

/-- The other steps of a call allocate none. -/
theorem allocatorThreadStep_other (hpc : s.pc t ≠ .allocateRefill)
    (hstep : allocatorThreadStep pageSize t freshPage freshStorage s = some s') :
    (∃ pc, s'.pc = update s.pc t pc) ∧ s'.storages = s.storages := by
  have hfault : (∃ pc, s.fault.pc = update s.pc t pc) ∧ s.fault.storages = s.storages :=
    ⟨⟨_, (update_eq_self t s.pc).symm⟩, rfl⟩
  cases hat : s.pc t <;> simp only [allocatorThreadStep, hat] at hstep
  case unregistered | idle => cases hstep
  case allocateRefill => exact absurd hat hpc
  case allocateLock | liberateLock | spillLock =>
    rw [AllocatorState.lock, Option.ite_none_right_eq_some] at hstep
    obtain rfl := Option.some.inj hstep.2
    exact ⟨⟨_, rfl⟩, rfl⟩
  case allocateUnlock | liberateUnlock | spillUnlock | allocateInsertEmpty | liberateInsertEmpty =>
    obtain rfl := Option.some.inj hstep
    exact ⟨⟨_, rfl⟩, rfl⟩
  case allocateObtain | liberateObtain =>
    rw [Option.ite_none_left_eq_some] at hstep
    obtain rfl := Option.some.inj hstep.2
    exact ⟨⟨_, rfl⟩, rfl⟩
  case allocateExtract =>
    split at hstep <;> obtain rfl := Option.some.inj hstep <;> exact ⟨⟨_, rfl⟩, rfl⟩
  case allocateRetry =>
    split at hstep <;> obtain rfl := Option.some.inj hstep
    · exact ⟨⟨_, rfl⟩, rfl⟩
    · exact hfault
    · exact hfault
  all_goals
    split at hstep <;> obtain rfl := Option.some.inj hstep
    · exact ⟨⟨_, rfl⟩, rfl⟩
    · exact hfault

/-- A step of a call concerns the thread only. -/
theorem allocatorThreadStep_pc (hstep : allocatorThreadStep pageSize t freshPage freshStorage s = some s')
    {u : T} (hu : u ≠ t) : s'.pc u = s.pc u := by
  obtain ⟨pc, hpc⟩ : ∃ pc, s'.pc = update s.pc t pc := by
    by_cases hrefill : s.pc t = .allocateRefill
    · exact (allocatorThreadStep_refill hrefill hstep).1
    · exact (allocatorThreadStep_other hrefill hstep).1
  rw [hpc, update_of_ne hu]

/-- Only a thread that has a cache is in a call. -/
theorem allocatorThreadStep_registered
    (hstep : allocatorThreadStep pageSize t freshPage freshStorage s = some s') : s.pc t ≠ .unregistered := by
  intro hpc
  simp only [allocatorThreadStep, hpc] at hstep
  cases hstep

/-- A thread goes on in its call. -/
theorem allocatorStep_advance (hdefined : s.undefined = false) :
    allocatorStep pageSize s (.advance t freshPage freshStorage)
      = allocatorThreadStep pageSize t freshPage freshStorage s := by
  rw [allocatorStep, if_neg (by simp [hdefined])]

/-- An event concerns its own thread only, and only in a call a storage page is allocated. -/
theorem allocatorStep_frame (hstep : allocatorStep pageSize s e = some s') :
    (∀ u, u ≠ e.by → s'.pc u = s.pc u) ∧
      ((∃ pages, e = .register e.by pages) ∨ s.pc e.by ≠ .unregistered) ∧
      ((∃ freshPage freshStorage, e = .advance e.by freshPage freshStorage) ∨ s'.storages = s.storages) := by
  have hgoto : ∀ (r : AllocatorState T Page Storage) v pc, ∀ u, u ≠ v → (r.goto v pc).pc u = r.pc u :=
    fun r v pc u hu => update_of_ne hu ..
  simp only [allocatorStep] at hstep
  split at hstep
  · cases hstep
  cases e with
  | advance v freshPage freshStorage =>
      exact ⟨fun u hu => allocatorThreadStep_pc hstep hu, .inr (allocatorThreadStep_registered hstep),
        .inl ⟨freshPage, freshStorage, rfl⟩⟩
  | register v pages =>
      simp only [Option.ite_none_right_eq_some, Option.some.injEq] at hstep
      obtain ⟨-, rfl⟩ := hstep
      exact ⟨fun u hu => hgoto _ v _ u hu, .inl ⟨pages, rfl⟩, .inr rfl⟩
  | exit v =>
      simp only [Option.ite_none_right_eq_some, Option.some.injEq] at hstep
      obtain ⟨hidle, rfl⟩ := hstep
      refine ⟨fun u hu => hgoto _ v _ u hu, .inr ?_, .inr rfl⟩
      simp [AllocatorEvent.by, hidle]
  | allocate v | liberate v f =>
      rw [Option.ite_none_right_eq_some] at hstep
      obtain ⟨hidle, hstep⟩ := hstep
      have hne : s.pc v ≠ .unregistered := by simp [hidle]
      split at hstep <;> obtain rfl := Option.some.inj hstep
      all_goals refine ⟨fun u hu => ?_, .inr hne, .inr rfl⟩
      all_goals first | exact hgoto _ v _ u hu | rfl

/-- A thread that leaves makes one step after the other, which does not depend on the futures of the
application. -/
theorem allocatorThreadStep_leaves (houtside : (s.pc t).outside = true)
    (hstep : allocatorThreadStep pageSize t freshPage freshStorage s = some s') :
    ((s'.pc t).outside = true ∧ (s'.pc t).stepsToLeave + 1 = (s.pc t).stepsToLeave ∨ s'.undefined = true) ∧
      s'.live = s.live ∧ ∀ live, allocatorThreadStep pageSize t freshPage freshStorage (s.withLive live)
        = some (s'.withLive live) := by
  cases hpc : s.pc t <;> simp only [hpc, AllocatorPc.outside, Bool.false_eq_true] at houtside <;>
    simp only [allocatorThreadStep, hpc] at hstep
  case unregistered | idle => cases hstep
  case spillLock =>
    simp only [AllocatorState.lock, Option.ite_none_right_eq_some, Option.some.injEq] at hstep
    obtain ⟨hmutex, rfl⟩ := hstep
    refine ⟨.inl ?_, rfl, fun live => ?_⟩
    · show (update s.pc t .spill t).outside = true ∧ (update s.pc t .spill t).stepsToLeave + 1 = _
      rw [update_self]
      exact ⟨rfl, rfl⟩
    · simp [allocatorThreadStep, AllocatorState.withLive, hpc, AllocatorState.lock, hmutex, AllocatorState.goto]
  case spillUnlock =>
    obtain rfl := Option.some.inj hstep
    refine ⟨.inl ?_, rfl, fun live => ?_⟩
    · show (update s.pc t .unregistered t).outside = true ∧
        (update s.pc t .unregistered t).stepsToLeave + 1 = _
      rw [update_self]
      exact ⟨rfl, rfl⟩
    · simp [allocatorThreadStep, AllocatorState.withLive, hpc, AllocatorState.unlock, AllocatorState.goto]
  case spill =>
    split at hstep <;> obtain rfl := Option.some.inj hstep <;> rename_i hspill
    · refine ⟨.inl ?_, rfl, fun live => ?_⟩
      · show (update s.pc t .spillUnlock t).outside = true ∧
          (update s.pc t .spillUnlock t).stepsToLeave + 1 = _
        rw [update_self]
        exact ⟨rfl, rfl⟩
      · simp [allocatorThreadStep, AllocatorState.withLive, hpc, hspill, AllocatorState.goto,
          AllocatorState.setThread, AllocatorState.setContext]
    · refine ⟨.inr rfl, rfl, fun live => ?_⟩
      simp [allocatorThreadStep, AllocatorState.withLive, hpc, hspill, AllocatorState.fault]

/-- The same with the step that the thread begins to leave with. -/
theorem allocatorStep_leaves (hdefined : s.undefined = false) (houtside : (s.pc e.by).outside = true)
    (hleaves : e.leaves = true) (hstep : allocatorStep pageSize s e = some s') :
    ((s'.pc e.by).outside = true ∧ (s'.pc e.by).stepsToLeave + 1 = (s.pc e.by).stepsToLeave ∨
        s'.undefined = true) ∧
      s'.live = s.live ∧
      ∀ live, allocatorStep pageSize (s.withLive live) e = some (s'.withLive live) := by
  cases e with
  | register | allocate | liberate => cases hleaves
  | advance t freshPage freshStorage =>
      rw [allocatorStep_advance hdefined] at hstep
      obtain ⟨hpc, hlive, hwith⟩ := allocatorThreadStep_leaves houtside hstep
      refine ⟨hpc, hlive, fun live => ?_⟩
      rw [allocatorStep_advance (show (s.withLive live).undefined = false from hdefined)]
      exact hwith live
  | exit t =>
      have hundefined : ¬ s.undefined = true := by simp [hdefined]
      simp only [allocatorStep, if_neg hundefined, Option.ite_none_right_eq_some,
        Option.some.injEq] at hstep
      obtain ⟨hidle, rfl⟩ := hstep
      refine ⟨.inl ?_, rfl, fun live => ?_⟩
      · show (update s.pc t .spillLock t).outside = true ∧
          (update s.pc t .spillLock t).stepsToLeave + 1 = (s.pc t).stepsToLeave
        rw [update_self, hidle]
        exact ⟨rfl, rfl⟩
      · simp [allocatorStep, AllocatorState.withLive, hdefined, hidle, AllocatorState.goto]

end

end Udipe

import Udipe.Allocator.Accounting

/-!
# Every step keeps the account

One lemma for each point of a call. The allocator of the system answers pages that are not in use, so that
nothing is ever in two places.
-/

namespace Udipe

open Function

variable {T Page Storage : Type} [DecidableEq T] [DecidableEq Page] [DecidableEq Storage]
  {pageSize : ℕ} {s s' : AllocatorState T Page Storage} {t : T} {freshPage : Page}
  {freshStorage : Storage} {w : Place T → List (Cell Page Storage)} {f : FuturePtr Storage} {p e : Page}

namespace AllocatorState

/-- There is an account of the pages and the futures. -/
def Invariant (pageSize : ℕ) (s : AllocatorState T Page Storage) : Prop :=
  ∃ w, s.Law (futurePointerPageCapacity pageSize) (futureStoragePageLength pageSize) w

namespace Law

variable (h : s.Law (futurePointerPageCapacity pageSize) (futureStoragePageLength pageSize) w)
  (hcapacity : 0 < futurePointerPageCapacity pageSize)
  (hstep : allocatorThreadStep pageSize t freshPage freshStorage s = some s')

include h

omit [DecidableEq Page] [DecidableEq Storage] in
/-- A page in the local variables of a thread is in no cache. -/
theorem notMem_of_hand {c : Cell Page Storage} (hc : c ∈ w (.hand t)) {place : Place T}
    (hne : place ≠ .hand t) : c.1 ∉ pagesOf (w place) :=
  h.disjoint hne.symm (mem_pagesOf_of_mem hc)

include hstep

/-! ## Allocating a future -/

include hcapacity in
theorem allocateExtract (hpc : s.pc t = .allocateExtract) : s'.Invariant pageSize := by
  have hfits := h.fits t
  rw [hpc] at hfits
  have hhand : w (.hand t) = [] := hfits.carries
  rcases futurePointerCacheExtractFutures_spec (h.holds .context) hcapacity with
    ⟨hnil, hrun⟩ | ⟨c, rest, cache, m, hcells, hne, hrun, hrep, hdetached, hwrites⟩ <;>
    simp only [allocatorThreadStep, hpc, hrun, Option.some.injEq] at hstep <;> subst hstep
  · exact ⟨w, h.goto s.mutex hpc rfl ⟨hhand, hfits.pages, hfits.expects⟩
      ((h.mutex t).trans (by rw [hpc]; rfl)) fun _ _ => .rfl⟩
  · refine h.contextHand (A := rest) (B := [c]) hpc hrep (by simpa using hdetached)
      (hwrites.changes (by simp)) ?_ ?_ rfl ⟨⟨c.2, hne, rfl⟩, hfits.pages, hfits.expects⟩ rfl
    · simp [hhand, hcells]
    · simp [hhand, hcells, List.perm_append_comm]

theorem allocateObtain (hpc : s.pc t = .allocateObtain p) : s'.Invariant pageSize := by
  have hfits := h.fits t
  rw [hpc] at hfits
  obtain ⟨y, hy, hhand⟩ := hfits.carries
  have hpages : (w (.thread t)).length = localFuturePointerPages := hfits.pages
  have hempty : futuresOf (w (.thread t)) = [] := hfits.expects
  have hp : s.memory.Detached _ (p, y) := h.holds (.hand t) (p, y) (by simp [hhand])
  have hnotin : p ∉ pagesOf (w (.thread t)) :=
    h.notMem_of_hand (c := (p, y)) (t := t) (by simp [hhand]) (by simp)
  rcases futurePointerCacheObtainEmpty_spec (h.holds (.thread t)) freshPage with
    ⟨empty, cells, cache, m, hrun, hrep, hperm, hfutures, hdetached, hwrites⟩ | ⟨-, hnil | hne⟩
  · simp only [allocatorThreadStep, hpc, hrun, Option.ite_none_left_eq_some, Option.some.injEq] at hstep
    obtain ⟨-, rfl⟩ := hstep
    refine h.threadHand (A := cells) (B := [(p, y), (empty, [])]) hpc hrep ?_
      (hwrites.changes (by simp)) ?_ ?_ ⟨⟨y, hy, rfl⟩, ?_, hfutures.trans hempty⟩ rfl
    · simpa using ⟨hp.congr (hwrites.pages p hnotin), hdetached⟩
    · simpa [hhand] using
        (List.perm_append_singleton empty (pagesOf cells ++ [p])).trans (hperm.append_right [p]).symm
    · simp [hhand, hfutures, hempty, AllocatorPc.held]
    · exact (Nat.sub_eq_of_eq_add (hpages.symm.trans (length_eq_of_pagesOf_cons hperm))).symm
  · simp [hnil, localFuturePointerPages] at hpages
  · exact absurd hempty hne

theorem allocateInsertEmpty (hpc : s.pc t = .allocateInsertEmpty p e) : s'.Invariant pageSize := by
  have hfits := h.fits t
  rw [hpc] at hfits
  obtain ⟨y, hy, hhand⟩ := hfits.carries
  have hp : s.memory.Detached _ (p, y) := h.holds (.hand t) (p, y) (by simp [hhand])
  have he : s.memory.Detached _ (e, []) := h.holds (.hand t) (e, []) (by simp [hhand])
  have hpnotin : p ∉ pagesOf (w .context) :=
    h.notMem_of_hand (c := (p, y)) (t := t) (by simp [hhand]) (by simp)
  have henotin : e ∉ pagesOf (w .context) :=
    h.notMem_of_hand (c := (e, [])) (t := t) (by simp [hhand]) (by simp)
  have hne : p ≠ e := by
    have hnodup : (pagesOf (w (.hand t))).Nodup := h.pages.nodup_owned (.hand t)
    simpa [hhand] using hnodup
  obtain ⟨cells, cache, m, hrun, hrep, hperm, hfutures, -, hwrites⟩ :=
    futurePointerCacheInsertEmpty_spec (h.holds .context) he henotin
  simp only [allocatorThreadStep, hpc, hrun, Option.some.injEq] at hstep
  subst hstep
  refine h.contextHand (A := cells) (B := [(p, y)]) hpc hrep ?_ (hwrites.changes ?_) ?_ ?_ rfl
    ⟨⟨y, hy, rfl⟩, hfits.pages, hfits.expects⟩ rfl
  · simpa using hp.congr (hwrites.pages p (by simp [hne, hpnotin]))
  · simp [hhand]
  · simpa [hhand] using
      (hperm.append_right [p]).trans (List.perm_append_singleton e (pagesOf (w .context) ++ [p])).symm
  · simp [hhand, hfutures]

include hcapacity in
theorem allocateInsertFutures (hpc : s.pc t = .allocateInsertFutures p) : s'.Invariant pageSize := by
  have hfits := h.fits t
  rw [hpc] at hfits
  obtain ⟨y, hy, hhand⟩ := hfits.carries
  have hpages : (w (.thread t)).length = localFuturePointerPages - 1 := hfits.pages
  have hp : s.memory.Detached _ (p, y) := h.holds (.hand t) (p, y) (by simp [hhand])
  have hnotin : p ∉ pagesOf (w (.thread t)) :=
    h.notMem_of_hand (c := (p, y)) (t := t) (by simp [hhand]) (by simp)
  obtain ⟨cells, cache, m, hrun, hrep, hperm, hfutures, hwrites⟩ :=
    futurePointerCacheInsertFutures_spec (h.holds (.thread t)) hcapacity hp hy hnotin
  simp only [allocatorThreadStep, hpc, hrun, Option.some.injEq] at hstep
  subst hstep
  refine h.threadHand (A := cells) (B := []) hpc hrep (by simp) (hwrites.changes ?_) ?_ ?_
    ⟨rfl, ?_, fun hnil => ?_⟩ rfl
  · simp [hhand]
  · simpa [hhand] using hperm.trans (List.perm_append_singleton p (pagesOf (w (.thread t)))).symm
  · simpa [hhand, AllocatorPc.held] using hfutures.trans List.perm_append_comm
  · rw [length_eq_of_pagesOf_cons hperm, hpages]
    rfl
  · rw [hnil, List.nil_perm] at hfutures
    exact hy (List.append_eq_nil_iff.mp hfutures).1

/-- The futures of a storage page are new. -/
theorem allocateRefill (hlength : 0 < futureStoragePageLength pageSize)
    (hle : futureStoragePageLength pageSize ≤ futurePointerPageCapacity pageSize)
    (hpc : s.pc t = .allocateRefill) : s'.Invariant pageSize := by
  have hfits := h.fits t
  rw [hpc] at hfits
  have hhand : w (.hand t) = [] := hfits.carries
  have hpages : (w (.thread t)).length = localFuturePointerPages := hfits.pages
  have hempty : futuresOf (w (.thread t)) = [] := hfits.expects
  have hcells : w (.thread t) ≠ [] := fun hnil => by simp [hnil, localFuturePointerPages] at hpages
  obtain ⟨cells, cache, m, hrun, hrep, hsame, hfutures, hwrites⟩ :=
    futurePointerCacheRefillLocal_spec (h.holds (.thread t)) hcells hempty hle freshStorage
  simp only [allocatorThreadStep, hpc, hrun, Option.ite_none_left_eq_some, Option.some.injEq] at hstep
  obtain ⟨hnew, rfl⟩ := hstep
  have hmem : ∀ f : FuturePtr Storage, f ∈ storageFutures freshStorage (futureStoragePageLength pageSize) ↔
      f.storage = freshStorage ∧ f.index < futureStoragePageLength pageSize := by
    rintro ⟨storage, i⟩
    simp only [storageFutures, List.mem_map, List.mem_range, FuturePtr.mk.injEq]
    constructor
    · rintro ⟨j, hj, rfl, rfl⟩
      exact ⟨rfl, hj⟩
    · rintro ⟨rfl, hi⟩
      exact ⟨i, hi, rfl, rfl⟩
  refine ⟨_, h.exchange (t := t) (a := .thread t) (b := .hand t) (A := cells) (B := [])
    (storageFutures freshStorage (futureStoragePageLength pageSize)) (by simp) rfl rfl ?_ (by simp [HoldsAt])
    (fun _ _ => rfl) (fun u hut _ => ?_) ?_ (hwrites.changes (by simp)) (fun f => ?_) ⟨?_, ?_⟩ ?_ ?_
    (fun u hut => ?_) ?_ rfl ?_ h.defined⟩
  · simpa [HoldsAt, AllocatorState.goto, setThread] using hrep
  · exact update_of_ne (fun heq => hut (by rw [heq])) _ _
  · rintro (_ | u | u | _) - hne
    · rfl
    · rfl
    · have hut : u ≠ t := fun heq => hne (by rw [heq])
      simp [loose, AllocatorState.goto, setThread, update_of_ne hut]
    · rfl
  · rw [hmem]
    by_cases hf : f.storage = freshStorage
    · simp [Exists, hf, hnew]
    · simp [Exists, hf]
  · refine List.Nodup.map (fun i j hij => ?_) List.nodup_range
    simpa using hij
  · intro f hf hexists
    exact hnew (((hmem f).mp hf).1 ▸ hexists.1)
  · simp [hhand, hsame]
  · simp [hhand, hempty, hfutures, loose, AllocatorState.goto, hpc, AllocatorPc.held]
  · exact update_of_ne hut _ _
  · rw [update_self, update_of_ne (by simp), update_self]
    refine ⟨by simp [AllocatorState.goto, AllocatorPc.Carries], ?_, ?_⟩
    · have hlen := (length_eq_of_pagesOf (.of_eq hsame)).trans hpages
      simpa [AllocatorState.goto, AllocatorPc.threadPages] using hlen
    · simp [AllocatorState.goto, AllocatorPc.Expects, hfutures, storageFutures, hlength.ne']
  · simp [AllocatorState.goto, hpc, AllocatorPc.locks]

include hcapacity in
theorem allocateRetry (hpc : s.pc t = .allocateRetry) : s'.Invariant pageSize := by
  have hfits := h.fits t
  rw [hpc] at hfits
  have hpages : (w (.thread t)).length = localFuturePointerPages := hfits.pages
  rcases futurePointerCacheAllocateLocal_spec (h.holds (.thread t)) hcapacity with
    ⟨hnil, -⟩ | ⟨f, cache, m, cells, hrun, hrep, hsame, hlast, hwrites⟩
  · exact absurd hnil hfits.expects
  · simp only [allocatorThreadStep, hpc, hrun, Option.some.injEq] at hstep
    subst hstep
    refine h.threadClient (A := cells) hpc hrep hwrites hsame ?_ rfl ⟨hfits.carries, ?_, trivial⟩ rfl
    · rw [hlast, ← Multiset.coe_add, Multiset.coe_singleton, add_assoc, Multiset.singleton_add]
    · exact (length_eq_of_pagesOf (.of_eq hsame)).trans hpages

/-! ## Liberating a future -/

include hcapacity in
theorem liberateExtract (hpc : s.pc t = .liberateExtract f) : s'.Invariant pageSize := by
  have hfits := h.fits t
  rw [hpc] at hfits
  have hhand : w (.hand t) = [] := hfits.carries
  have hpages : (w (.thread t)).length = localFuturePointerPages := hfits.pages
  rcases futurePointerCacheExtractFutures_spec (h.holds (.thread t)) hcapacity with
    ⟨hnil, -⟩ | ⟨c, rest, cache, m, hcells, hne, hrun, hrep, hdetached, hwrites⟩
  · exact absurd hnil hfits.expects
  · simp only [allocatorThreadStep, hpc, hrun, Option.some.injEq] at hstep
    subst hstep
    refine h.threadHand (A := rest) (B := [c]) hpc hrep (by simpa using hdetached)
      (hwrites.changes (by simp)) ?_ ?_ ⟨⟨c.2, hne, rfl⟩, ?_, trivial⟩ rfl
    · simp [hhand, hcells]
    · simp [hhand, hcells, AllocatorPc.held, List.perm_append_comm]
    · rw [hcells, List.length_cons] at hpages
      exact Nat.eq_sub_of_add_eq hpages

include hcapacity in
theorem liberateInsertFutures (hpc : s.pc t = .liberateInsertFutures f p) : s'.Invariant pageSize := by
  have hfits := h.fits t
  rw [hpc] at hfits
  obtain ⟨y, hy, hhand⟩ := hfits.carries
  have hp : s.memory.Detached _ (p, y) := h.holds (.hand t) (p, y) (by simp [hhand])
  have hnotin : p ∉ pagesOf (w .context) :=
    h.notMem_of_hand (c := (p, y)) (t := t) (by simp [hhand]) (by simp)
  obtain ⟨cells, cache, m, hrun, hrep, hperm, hfutures, hwrites⟩ :=
    futurePointerCacheInsertFutures_spec (h.holds .context) hcapacity hp hy hnotin
  simp only [allocatorThreadStep, hpc, hrun, Option.some.injEq] at hstep
  subst hstep
  refine h.contextHand (A := cells) (B := []) hpc hrep (by simp) (hwrites.changes ?_) ?_ ?_ rfl
    ⟨rfl, hfits.pages, trivial⟩ rfl
  · simp [hhand]
  · simpa [hhand] using hperm.trans (List.perm_append_singleton p (pagesOf (w .context))).symm
  · simpa [hhand] using hfutures.trans List.perm_append_comm

theorem liberateObtain (hpc : s.pc t = .liberateObtain f) : s'.Invariant pageSize := by
  have hfits := h.fits t
  rw [hpc] at hfits
  have hhand : w (.hand t) = [] := hfits.carries
  rcases futurePointerCacheObtainEmpty_spec (h.holds .context) freshPage with
    ⟨empty, cells, cache, m, hrun, hrep, hperm, hfutures, hdetached, hwrites⟩ | ⟨hrun, -⟩ <;>
    simp only [allocatorThreadStep, hpc, hrun, Option.ite_none_left_eq_some, Option.some.injEq, true_and,
      Bool.not_eq_true] at hstep <;> obtain ⟨hnew, rfl⟩ := hstep
  · refine h.contextHand (A := cells) (B := [(empty, [])]) hpc hrep (by simpa using hdetached)
      (hwrites.changes (by simp)) ?_ (by simp [hhand, hfutures]) rfl ⟨rfl, hfits.pages, trivial⟩ rfl
    simpa [hhand] using (List.perm_append_singleton empty (pagesOf cells)).trans hperm.symm
  · -- the page is new
    have hallocates := futurePointerPageInitialize_allocates s.memory freshPage
    have hrep : s.contextCache.Represents (futurePointerPageInitialize s.memory freshPage)
        (futurePointerPageCapacity pageSize) (w .context) := by
      refine PointerCache.Represents.congr (h.holds .context) fun p hp => hallocates.pages p ?_
      rintro hmem
      rw [List.mem_singleton.mp hmem] at hp
      exact absurd (h.allocated hp) (by simp [hnew])
    refine h.contextHand (A := w .context) (B := [(freshPage, [])]) hpc hrep
      (by simpa using futurePointerPageInitialize_detached s.memory _ freshPage)
      (hallocates.changes (by simp) (by simpa using hnew)) ?_ (by simp [hhand]) rfl
      ⟨rfl, hfits.pages, trivial⟩ rfl
    simp [hhand]

include hcapacity in
theorem liberateInsertEmpty (hpc : s.pc t = .liberateInsertEmpty f e) : s'.Invariant pageSize := by
  have hfits := h.fits t
  rw [hpc] at hfits
  have hhand : w (.hand t) = [(e, [])] := hfits.carries
  have hpages : (w (.thread t)).length = localFuturePointerPages - 1 := hfits.pages
  have he : s.memory.Detached _ (e, []) := h.holds (.hand t) (e, []) (by simp [hhand])
  have hnotin : e ∉ pagesOf (w (.thread t)) :=
    h.notMem_of_hand (c := (e, [])) (t := t) (by simp [hhand]) (by simp)
  obtain ⟨cells, cache, m, hrun, hrep, hperm, hfutures, hmem, hwrites⟩ :=
    futurePointerCacheInsertEmpty_spec (h.holds (.thread t)) he hnotin
  simp only [allocatorThreadStep, hpc, hrun, Option.some.injEq] at hstep
  subst hstep
  refine h.threadHand (A := cells) (B := []) hpc hrep (by simp) (hwrites.changes (by simp [hhand])) ?_ ?_
    ⟨rfl, ?_, (e, []), hmem, hcapacity⟩ rfl
  · simpa [hhand] using hperm.trans (List.perm_append_singleton e (pagesOf (w (.thread t)))).symm
  · simp [hhand, hfutures, AllocatorPc.held]
  · rw [length_eq_of_pagesOf_cons hperm, hpages]
    rfl

include hcapacity in
theorem liberateRetry (hpc : s.pc t = .liberateRetry f) : s'.Invariant pageSize := by
  have hfits := h.fits t
  rw [hpc] at hfits
  have hhand : w (.hand t) = [] := hfits.carries
  have hpages : (w (.thread t)).length = localFuturePointerPages := hfits.pages
  obtain ⟨c, hc, hroom⟩ : ∃ c ∈ w (.thread t), c.2.length < futurePointerPageCapacity pageSize :=
    hfits.expects
  rcases futurePointerCacheLiberateLocal_spec (h.holds (.thread t)) hcapacity (List.ne_nil_of_mem hc) f with
    ⟨hfull, -⟩ | ⟨cache, m, cells, hrun, hrep, hsame, hlast, hwrites, -⟩
  · exact absurd (hfull c hc) hroom.ne
  · simp only [allocatorThreadStep, hpc, hrun, Option.some.injEq] at hstep
    subst hstep
    refine h.threadHand (A := cells) (B := []) hpc hrep (by simp) (hwrites.changes (by simp)) ?_ ?_
      ⟨rfl, ?_, trivial⟩ rfl
    · simp [hhand, hsame]
    · simp [hhand, AllocatorPc.held, hlast, ← Multiset.coe_add]
    · exact (length_eq_of_pagesOf (.of_eq hsame)).trans hpages

/-! ## Leaving -/

include hcapacity in
/-- The cache of the thread goes to the cache of the context. -/
theorem spill (hpc : s.pc t = .spill) : s'.Invariant pageSize := by
  have hfits := h.fits t
  rw [hpc] at hfits
  have hhand : w (.hand t) = [] := hfits.carries
  have hpages : (w (.thread t)).length = localFuturePointerPages := hfits.pages
  have hspill : SpillState.Represents ⟨s.threadCaches t, s.contextCache, s.memory⟩ _ (w (.thread t))
      (w .context) :=
    ⟨h.holds (.thread t), h.holds .context, fun p hp => h.disjoint (by simp) hp⟩
  obtain ⟨spilled, cells, hrun, hrep, hspilled⟩ :=
    futurePointerCacheSpill_spec hcapacity freshPage hspill hpages.le
  simp only [allocatorThreadStep, hpc, hrun, Option.some.injEq] at hstep
  subst hstep
  refine ⟨_, h.exchange (t := t) (a := .thread t) (b := .context) (A := []) (B := cells) [] (by simp) rfl
    trivial ?_ hrep.globalCache (fun _ hne => absurd rfl hne) (fun u hut _ => ?_) ?_
    (hspilled.writes.changes (by simp)) (fun f => ?_) (by simp) ?_ ?_ (fun u hut => ?_) ?_ rfl ?_ h.defined⟩
  · simpa [HoldsAt, AllocatorState.goto, setThread, setContext] using hrep.localCache
  · exact update_of_ne (fun heq => hut (by rw [heq])) _ _
  · rintro (_ | u | u | _) - -
    · rfl
    · rfl
    · rcases eq_or_ne u t with rfl | hut
      · simp [loose, AllocatorState.goto, hpc, AllocatorPc.held]
      · simp [loose, AllocatorState.goto, setThread, setContext, update_of_ne hut]
    · rfl
  · simp [Exists, AllocatorState.goto, setThread, setContext]
  · simpa using hspilled.pages
  · simpa [loose] using hspilled.futures
  · exact update_of_ne hut _ _
  · refine ⟨?_, ?_, ?_⟩ <;> simp [AllocatorState.goto, AllocatorPc.Carries, AllocatorPc.threadPages,
      AllocatorPc.Expects, hhand]
  · simp [AllocatorState.goto, hpc, AllocatorPc.locks]

include hcapacity in
/-- Every step of a call keeps the account. -/
theorem threadStep (hlength : 0 < futureStoragePageLength pageSize)
    (hle : futureStoragePageLength pageSize ≤ futurePointerPageCapacity pageSize) :
    s'.Invariant pageSize := by
  have hfits := h.fits t
  cases hpc : s.pc t with
  | unregistered | idle => simp [allocatorThreadStep, hpc] at hstep
  | allocateLock =>
      rw [hpc] at hfits
      simp only [allocatorThreadStep, hpc] at hstep
      exact ⟨w, h.lock hpc hstep rfl ⟨hfits.carries, hfits.pages, hfits.expects⟩ rfl⟩
  | allocateExtract => exact h.allocateExtract hcapacity hstep hpc
  | allocateObtain => exact h.allocateObtain hstep hpc
  | allocateInsertEmpty => exact h.allocateInsertEmpty hstep hpc
  | allocateInsertFutures => exact h.allocateInsertFutures hcapacity hstep hpc
  | allocateRefill => exact h.allocateRefill hstep hlength hle hpc
  | allocateUnlock =>
      rw [hpc] at hfits
      simp only [allocatorThreadStep, hpc, Option.some.injEq] at hstep
      subst hstep
      exact ⟨w, h.unlock hpc rfl rfl ⟨hfits.carries, hfits.pages, hfits.expects⟩ rfl⟩
  | allocateRetry => exact h.allocateRetry hcapacity hstep hpc
  | liberateExtract => exact h.liberateExtract hcapacity hstep hpc
  | liberateLock =>
      rw [hpc] at hfits
      simp only [allocatorThreadStep, hpc] at hstep
      exact ⟨w, h.lock hpc hstep rfl ⟨hfits.carries, hfits.pages, hfits.expects⟩ rfl⟩
  | liberateInsertFutures => exact h.liberateInsertFutures hcapacity hstep hpc
  | liberateObtain => exact h.liberateObtain hstep hpc
  | liberateInsertEmpty => exact h.liberateInsertEmpty hcapacity hstep hpc
  | liberateUnlock =>
      rw [hpc] at hfits
      simp only [allocatorThreadStep, hpc, Option.some.injEq] at hstep
      subst hstep
      exact ⟨w, h.unlock hpc rfl rfl ⟨hfits.carries, hfits.pages, hfits.expects⟩ rfl⟩
  | liberateRetry => exact h.liberateRetry hcapacity hstep hpc
  | spillLock =>
      rw [hpc] at hfits
      simp only [allocatorThreadStep, hpc] at hstep
      exact ⟨w, h.lock hpc hstep rfl ⟨hfits.carries, hfits.pages, hfits.expects⟩ rfl⟩
  | spill => exact h.spill hcapacity hstep hpc
  | spillUnlock =>
      rw [hpc] at hfits
      simp only [allocatorThreadStep, hpc, Option.some.injEq] at hstep
      subst hstep
      exact ⟨w, h.unlock hpc rfl rfl ⟨hfits.carries, hfits.pages, hfits.expects⟩ rfl⟩

end Law

/-! ## All events -/

omit [DecidableEq Storage] in
/-- A thread sets up its cache. -/
theorem Law.register (h : s.Law (futurePointerPageCapacity pageSize) (futureStoragePageLength pageSize) w)
    {freshPages : List Page} (hpc : s.pc t = .unregistered)
    (hcount : freshPages.length = localFuturePointerPages) (hnodup : freshPages.Nodup)
    (hnew : ∀ p ∈ freshPages, s.memory.allocated p = false) {cache : PointerCache Page}
    {m : PageMemory Page Storage} (hrun : futurePointerCacheInitializeLocal s.memory freshPages = (cache, m)) :
    ((s.setThread t cache m).goto t .idle).Invariant pageSize := by
  have hfits := h.fits t
  rw [hpc] at hfits
  have hhand : w (.hand t) = [] := hfits.carries
  have hown : w (.thread t) = [] := List.length_eq_zero_iff.mp hfits.pages
  obtain ⟨cells, cache', m', hrun', hrep, hpages, hfutures, hallocates⟩ :=
    futurePointerCacheInitializeLocal_spec s.memory (futurePointerPageCapacity pageSize) hnodup
  obtain ⟨rfl, rfl⟩ : cache = cache' ∧ m = m' := by simpa [hrun'] using hrun.symm
  refine h.threadHand (A := cells) (B := []) hpc hrep (by simp) (hallocates.changes hnodup hnew) ?_ ?_
    ⟨rfl, ?_, trivial⟩ rfl
  · simp [hhand, hown, hpages]
  · simp [hhand, hown, hfutures, AllocatorPc.held]
  · rw [← length_pagesOf, hpages, List.length_reverse, hcount]
    rfl

/-- The first try of an allocation. -/
theorem Law.allocate (h : s.Law (futurePointerPageCapacity pageSize) (futureStoragePageLength pageSize) w)
    (hcapacity : 0 < futurePointerPageCapacity pageSize)
    (hstep : allocatorStep pageSize s (.allocate t) = some s') : s'.Invariant pageSize := by
  by_cases hpc : s.pc t = .idle
  swap
  · simp [allocatorStep, hpc] at hstep
  have hfits := h.fits t
  rw [hpc] at hfits
  have hpages : (w (.thread t)).length = localFuturePointerPages := hfits.pages
  have hdefined : ¬ s.undefined = true := by simp [h.defined]
  rcases futurePointerCacheAllocateLocal_spec (h.holds (.thread t)) hcapacity with
    ⟨hnil, hrun⟩ | ⟨f, cache, m, cells, hrun, hrep, hsame, hlast, hwrites⟩ <;>
    simp only [allocatorStep, if_neg hdefined, hpc, if_true, hrun,
      Option.some.injEq] at hstep <;> subst hstep
  · exact h.threadClient hpc (h.holds (.thread t)) (.refl _ _) rfl rfl rfl
      ⟨hfits.carries, hpages, hnil⟩ rfl
  · refine h.threadClient (A := cells) hpc hrep hwrites hsame ?_ rfl ⟨hfits.carries, ?_, trivial⟩ rfl
    · rw [hlast, ← Multiset.coe_add, Multiset.coe_singleton, add_assoc, Multiset.singleton_add]
    · exact (length_eq_of_pagesOf (.of_eq hsame)).trans hpages

/-- The first try of a liberation. -/
theorem Law.liberate (h : s.Law (futurePointerPageCapacity pageSize) (futureStoragePageLength pageSize) w)
    (hcapacity : 0 < futurePointerPageCapacity pageSize)
    (hstep : allocatorStep pageSize s (.liberate t f) = some s') : s'.Invariant pageSize := by
  by_cases hcall : s.pc t = .idle ∧ f ∈ s.live
  swap
  · simp [allocatorStep, hcall] at hstep
  obtain ⟨hpc, hlive⟩ := hcall
  have hfits := h.fits t
  rw [hpc] at hfits
  have hhand : w (.hand t) = [] := hfits.carries
  have hclient : w .client = [] := h.holds .client
  have hpages : (w (.thread t)).length = localFuturePointerPages := hfits.pages
  have hcells : w (.thread t) ≠ [] := fun hnil => by simp [hnil, localFuturePointerPages] at hpages
  have hdefined : ¬ s.undefined = true := by simp [h.defined]
  rcases futurePointerCacheLiberateLocal_spec (h.holds (.thread t)) hcapacity hcells f with
    ⟨hfull, hrun⟩ | ⟨cache, m, cells, hrun, hrep, hsame, hlast, hwrites, -⟩ <;>
    simp only [allocatorStep, if_neg hdefined, hpc, hlive, and_self, if_true, hrun,
      Option.some.injEq] at hstep <;> subst hstep
  · -- the future goes to the local variables
    have hne : futuresOf (w (.thread t)) ≠ [] := by
      intro hnil
      obtain ⟨c, hc⟩ := List.exists_mem_of_ne_nil _ hcells
      have hlen := hfull c hc
      rw [List.flatMap_eq_nil_iff.mp hnil c hc, List.length_nil] at hlen
      omega
    refine ⟨_, h.exchange (t := t) (a := .hand t) (b := .client) (A := []) (B := []) [] (by simp) rfl trivial
      (by simp [HoldsAt]) rfl (fun _ _ => rfl) (fun u _ _ => ?_) ?_
      ((PageMemory.Writes.refl s.memory []).changes (by simp)) (fun f => ?_) (by simp) ?_ ?_
      (fun u hut => ?_) ?_ rfl ?_ h.defined⟩
    · exact congrFun (update_eq_self t s.threadCaches) u
    · rintro (_ | u | u | _) hne hne'
      · rfl
      · rfl
      · have hut : u ≠ t := fun heq => hne (by rw [heq])
        simp [loose, AllocatorState.goto, setThread, update_of_ne hut]
      · exact absurd rfl hne'
    · simp [Exists, AllocatorState.goto, setThread]
    · simp [hhand, hclient]
    · have herase := Multiset.cons_erase hlive
      simp only [loose, hhand, hclient, AllocatorState.goto, setThread, update_self, hpc, AllocatorPc.held,
        futuresOf_nil, Multiset.coe_nil, zero_add, Multiset.singleton_add]
      exact herase
    · exact update_of_ne hut _ _
    · simpa [AllocatorState.goto, setThread, update_of_ne] using
        (⟨rfl, hpages, hne⟩ : (AllocatorPc.liberateExtract f : AllocatorPc Page Storage).Fits _
          (w (.thread t)) [])
    · simp [AllocatorState.goto, setThread, hpc, AllocatorPc.locks]
  · refine h.threadClient (A := cells) hpc hrep hwrites hsame ?_ rfl ⟨hfits.carries, ?_, trivial⟩ rfl
    · rw [hlast, ← Multiset.coe_add, Multiset.coe_singleton, add_assoc, Multiset.singleton_add,
        Multiset.cons_erase hlive]
    · exact (length_eq_of_pagesOf (.of_eq hsame)).trans hpages

/-- Every step keeps the account. -/
theorem Invariant.step (h : s.Invariant pageSize) (hcapacity : 0 < futurePointerPageCapacity pageSize)
    (hlength : 0 < futureStoragePageLength pageSize)
    (hle : futureStoragePageLength pageSize ≤ futurePointerPageCapacity pageSize)
    {e : AllocatorEvent T Page Storage} (hstep : allocatorStep pageSize s e = some s') :
    s'.Invariant pageSize := by
  obtain ⟨w, h⟩ := h
  have hdefined : ¬ s.undefined = true := by simp [h.defined]
  cases e with
  | register t freshPages =>
      simp only [allocatorStep, if_neg hdefined, Option.ite_none_right_eq_some, Option.some.injEq] at hstep
      obtain ⟨⟨hpc, hcount, hnodup, hnew⟩, rfl⟩ := hstep
      exact h.register hpc hcount hnodup hnew rfl
  | allocate t => exact h.allocate hcapacity hstep
  | liberate t f => exact h.liberate hcapacity hstep
  | exit t =>
      simp only [allocatorStep, if_neg hdefined, Option.ite_none_right_eq_some, Option.some.injEq] at hstep
      obtain ⟨hpc, rfl⟩ := hstep
      have hfits := h.fits t
      rw [hpc] at hfits
      exact ⟨w, h.goto s.mutex hpc rfl ⟨hfits.carries, hfits.pages, trivial⟩
        ((h.mutex t).trans (by rw [hpc]; rfl)) fun _ _ => .rfl⟩
  | advance t freshPage freshStorage =>
      simp only [allocatorStep, if_neg hdefined] at hstep
      exact h.threadStep hcapacity hstep hlength hle

omit [DecidableEq T] [DecidableEq Page] [DecidableEq Storage] in
theorem start_invariant (pages : Page → PointerPage Page Storage) :
    (AllocatorState.start pages : AllocatorState T Page Storage).Invariant pageSize := by
  have hloose : ∀ place, (AllocatorState.start pages : AllocatorState T Page Storage).loose place = 0 := by
    rintro (_ | t | t | _) <;> rfl
  refine ⟨fun _ => [], ?_, fun t => ⟨rfl, rfl, trivial⟩, ⟨fun S => ?_, fun p => ?_⟩,
    ⟨fun S => ?_, fun f => ?_⟩,
    fun t => by simp [AllocatorState.start, AllocatorPc.locks], rfl⟩
  · rintro (_ | t | t | _)
    · exact PointerCache.represents_initializeGlobal _ _
    · exact PointerCache.represents_initializeGlobal _ _
    · simp [HoldsAt]
    · rfl
  · simp
  · simp [AllocatorState.start]
  · simp [hloose]
  · simp only [hloose, futuresOf_nil, Multiset.coe_nil, add_zero, Multiset.notMem_zero, exists_false,
      iff_false]
    exact fun hexists => absurd hexists.1 (by simp [AllocatorState.start])

end AllocatorState

end Udipe

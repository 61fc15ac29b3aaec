import Udipe.Allocator.Pages

/-!
# New pages, new futures and spilling

A thread-local cache starts with empty pages, is refilled with the futures of a storage page, and is
emptied into the global cache page by page.
-/

namespace Udipe

open Function

variable {Page Storage : Type} [DecidableEq Page] {capacity : ℕ} {m m' : PageMemory Page Storage}
  {cache : PointerCache Page} {p q : Page} {cells : List (Cell Page Storage)}

/-! ## Fresh pages -/

/-- A memory in which the pages of `fresh` have been allocated and written. -/
structure PageMemory.Allocates (m m' : PageMemory Page Storage) (fresh : List Page) : Prop where
  pages : ∀ p, p ∉ fresh → m'.pages p = m.pages p
  allocated : ∀ p, m'.allocated p = true ↔ p ∈ fresh ∨ m.allocated p = true

theorem futurePointerPageInitialize_allocates (m : PageMemory Page Storage) (fresh : Page) :
    m.Allocates (futurePointerPageInitialize m fresh) [fresh] := by
  refine ⟨fun p hp => update_of_ne (List.mem_singleton.not.mp hp) _ _, fun p => ?_⟩
  by_cases hp : p = fresh <;> simp [futurePointerPageInitialize, hp]

variable (capacity cells) in
/-- The pages are linked one before the other. -/
theorem initializeLocal_fold {fresh : List Page} {current : Option Page}
    (hnodup : fresh.Nodup) (hlists : m.links.Lists (pagesOf cells))
    (hcells : ∀ c ∈ cells, m.Holds capacity c ∧ c.2 = []) (hcurrent : current = (pagesOf cells).head?)
    (hdisjoint : ∀ p ∈ fresh, p ∉ pagesOf cells) :
    ∃ cells' m', fresh.foldl (fun (s : Option Page × PageMemory Page Storage) page =>
        let next := s.1
        let m := futurePointerPageInitialize s.2 page
        let m := m.setNext page next
        (some page, m.setPreviousIfAny next (some page))) (current, m)
        = ((pagesOf cells').head?, m') ∧
      m'.links.Lists (pagesOf cells') ∧ (∀ c ∈ cells', m'.Holds capacity c ∧ c.2 = []) ∧
      pagesOf cells' = fresh.reverse ++ pagesOf cells ∧
      (∀ q, q ∉ fresh → q ∉ pagesOf cells → m'.pages q = m.pages q) ∧
      ∀ q, m'.allocated q = true ↔ q ∈ fresh ∨ m.allocated q = true := by
  induction fresh generalizing m cells current with
  | nil => exact ⟨cells, m, by simp [hcurrent], hlists, hcells, rfl, fun _ _ _ => rfl, by simp⟩
  | cons p fresh ih =>
      obtain ⟨hp, hnodup⟩ := List.nodup_cons.mp hnodup
      have hnotin : p ∉ pagesOf cells := hdisjoint p (by simp)
      have hallocates := futurePointerPageInitialize_allocates m p
      have hdetached := futurePointerPageInitialize_detached m capacity p
      set m₁ := futurePointerPageInitialize m p with hm₁
      have hsame : ∀ q ∈ pagesOf cells, m₁.pages q = m.pages q := fun q hq =>
        hallocates.pages q (by rintro hmem; simp at hmem; exact hnotin (hmem ▸ hq))
      have hlists₁ : m₁.links.Lists ([] ++ pagesOf cells) :=
        hlists.congr (fun q hq => congrArg PointerPage.next (hsame q hq))
          fun q hq => congrArg PointerPage.previous (hsame q hq)
      obtain ⟨hlists₂, hrelinks⟩ :=
        (insertBottom_linkedBetween hdetached.previous hnotin).spec hlists₁ hnotin
      set m₂ := (m₁.setNext p (pagesOf cells).head?).setPreviousIfAny (pagesOf cells).head? (some p)
      have hcells₂ : ∀ c ∈ (p, []) :: cells, m₂.Holds capacity c ∧ c.2 = [] := by
        intro c hc
        rcases List.mem_cons.mp hc with rfl | hc
        · exact ⟨hrelinks.holds hdetached.holds, rfl⟩
        · obtain ⟨hholds, hnil⟩ := hcells c hc
          exact ⟨hrelinks.holds (hholds.congr (by rw [hsame _ (mem_pagesOf_of_mem hc)])), hnil⟩
      have hdisjoint₂ : ∀ q ∈ fresh, q ∉ pagesOf ((p, []) :: cells) := by
        intro q hq
        rw [pagesOf_cons, List.mem_cons, not_or]
        refine ⟨?_, hdisjoint q (by simp [hq])⟩
        rintro rfl
        exact hp hq
      obtain ⟨cells', m', hrun, hlists', hcells', hpages, hrest, hallocated⟩ :=
        ih _ hnodup hlists₂ hcells₂ (rfl : some p = _) hdisjoint₂
      refine ⟨cells', m', ?_, hlists', hcells', by simp [hpages], fun q hq hq' => ?_, fun q => ?_⟩
      · rw [List.foldl_cons, hcurrent]
        exact hrun
      · rw [List.mem_cons, not_or] at hq
        have hqp : q ∉ p :: pagesOf cells := by simp [hq.1, hq']
        rw [hrest q hq.2 hqp, hrelinks.writes.pages q hqp, hallocates.pages q (by simp [hq.1])]
      · rw [hallocated, hrelinks.allocated, hallocates.allocated]
        simp only [List.mem_cons, List.not_mem_nil, or_false, or_assoc, or_left_comm]

/-- `future_pointer_cache_initialize(false)` links the fresh pages. -/
theorem futurePointerCacheInitializeLocal_spec (m : PageMemory Page Storage) (capacity : ℕ)
    {fresh : List Page} (hnodup : fresh.Nodup) :
    ∃ cells cache m', futurePointerCacheInitializeLocal m fresh = (cache, m') ∧
      cache.Represents m' capacity cells ∧ pagesOf cells = fresh.reverse ∧ futuresOf cells = [] ∧
      m.Allocates m' fresh := by
  obtain ⟨cells, m', hrun, hlists, hcells, hpages, hrest, hallocated⟩ :=
    initializeLocal_fold capacity [] hnodup m.links.lists_nil (by simp) (rfl : none = _) (by simp)
  refine ⟨cells, ⟨(pagesOf cells).head?, (pagesOf cells).head?, 0⟩, m', ?_,
    ⟨hlists, fun c hc => (hcells c hc).1, rfl, ?_⟩, by simpa using hpages,
    futuresOf_eq_nil fun c hc => (hcells c hc).2, fun q hq => hrest q hq (by simp), hallocated⟩
  · rw [futurePointerCacheInitializeLocal, hrun]
  · cases cells with
    | nil => exact .inl ⟨rfl, rfl, rfl⟩
    | cons c cells =>
        exact .inr ⟨[], c, cells, rfl, by simp, fun c' hc => (hcells c' (by simp [hc])).2, rfl,
          by simp [(hcells c (by simp)).2], fun _ => rfl⟩

/-! ## Fresh futures -/

/-- The futures of a storage page. -/
def storageFutures (storage : Storage) (length : ℕ) : List (FuturePtr Storage) :=
  (List.range length).map fun i => ⟨storage, i⟩

/-- `future_pointer_cache_refill_local` puts the futures of a storage page in the top page. -/
theorem futurePointerCacheRefillLocal_spec (h : cache.Represents m capacity cells)
    (hcells : cells ≠ []) (hempty : futuresOf cells = []) {length : ℕ} (hlength : length ≤ capacity)
    (storage : Storage) :
    ∃ cells' cache' m', futurePointerCacheRefillLocal length m cache storage = some (cache', m') ∧
      cache'.Represents m' capacity cells' ∧ pagesOf cells' = pagesOf cells ∧
      futuresOf cells' = storageFutures storage length ∧ m.Writes m' (pagesOf cells) := by
  obtain ⟨hnil, -, -⟩ | ⟨full, ⟨top, x⟩, empties, rfl, hz⟩ := h.zoned
  · exact absurd hnil hcells
  obtain rfl : x = [] := by
    rw [hz.futuresOf_eq rfl] at hempty
    exact (List.append_eq_nil_iff.mp hempty).2
  obtain rfl : full = [] := hz.full_nil rfl
  have hloop := forRange_induction 0 length m (fun m i => m.setFuture top i (some ⟨storage, i⟩))
    (fun i m' => (i ≤ capacity → m'.Holds capacity (top, storageFutures storage i)) ∧
      m'.links = m.links ∧ m.Writes m' [top])
    ⟨fun _ => h.holds (top, []) (by simp), rfl, .refl m _⟩ (by
      rintro i m' - hi ⟨hholds, hlinks, hwrites⟩
      refine ⟨fun hle => ?_, (m'.links_setFuture ..).trans hlinks,
        (hwrites.trans (m'.writes_write top _)).mono (by simp)⟩
      have hlen : (storageFutures storage i).length = i := by simp [storageFutures]
      have hpush := (hholds (by omega)).push (by omega) ⟨storage, i⟩
      rw [hlen] at hpush
      simpa [storageFutures, List.range_succ] using hpush)
  rw [Nat.zero_add] at hloop
  obtain ⟨hholds, hlinks, hwrites⟩ := hloop
  refine ⟨[] ++ (top, storageFutures storage length) :: empties,
    { cache with numTopFutures := length }, _, ?_, h.replace hlinks (fun c hc => ?_) (hholds hlength)
      rfl ?_, by simp, by simp [futuresOf_eq_nil hz.empty_nil], hwrites.mono (by simp)⟩
  · rw [futurePointerCacheRefillLocal, hz.top_eq]
    rfl
  · rw [hwrites.pages c.1 (by simpa using h.page_ne hc)]
  · exact .inr ⟨[], _, empties, rfl, hz.full_length, hz.empty_nil, hz.top_eq,
      by simp [storageFutures], fun _ => rfl⟩

/-! ## Spilling -/

/-- The two caches of a spill, on different pages. -/
structure SpillState.Represents (s : SpillState Page Storage) (capacity : ℕ)
    (localCells globalCells : List (Cell Page Storage)) : Prop where
  localCache : s.localCache.Represents s.memory capacity localCells
  globalCache : s.globalCache.Represents s.memory capacity globalCells
  disjoint : (pagesOf localCells).Disjoint (pagesOf globalCells)

/-- What a spill has moved from the local to the global cache. -/
structure Spilled (s s' : SpillState Page Storage) (localCells globalCells localCells' globalCells' :
    List (Cell Page Storage)) : Prop where
  pages : (pagesOf localCells' ++ pagesOf globalCells').Perm (pagesOf localCells ++ pagesOf globalCells)
  futures : (futuresOf localCells' ++ futuresOf globalCells').Perm
    (futuresOf localCells ++ futuresOf globalCells)
  writes : s.memory.Writes s'.memory (pagesOf localCells ++ pagesOf globalCells)

variable {s s' s'' : SpillState Page Storage}
  {localCells globalCells localCells' globalCells' : List (Cell Page Storage)}

omit [DecidableEq Page] in
theorem Spilled.trans {localCells'' globalCells'' : List (Cell Page Storage)}
    (h : Spilled s s' localCells globalCells localCells' globalCells')
    (h' : Spilled s' s'' localCells' globalCells' localCells'' globalCells'') :
    Spilled s s'' localCells globalCells localCells'' globalCells'' where
  pages := h'.pages.trans h.pages
  futures := h'.futures.trans h.futures
  writes := (h.writes.trans h'.writes).mono fun q hq => by
    rcases List.mem_append.mp hq with hq | hq
    · exact hq
    · exact h.pages.mem_iff.mp hq

omit [DecidableEq Page] in
/-- A page leaves the local cache. -/
theorem SpillState.Represents.disjoint_tail {c : Cell Page Storage}
    (h : s.Represents capacity (c :: localCells) globalCells) :
    c.1 ∉ pagesOf globalCells ∧ c.1 ∉ pagesOf localCells ∧
      (pagesOf localCells).Disjoint (pagesOf globalCells) := by
  have hnodup := h.localCache.linked.nodup
  rw [pagesOf_cons, List.nodup_cons] at hnodup
  have hdisjoint := h.disjoint
  rw [pagesOf_cons, List.disjoint_cons_left] at hdisjoint
  exact ⟨hdisjoint.1, hnodup.1, hdisjoint.2⟩

/-- A round of the first loop takes a page with futures out of the local cache and puts it into the global
cache. -/
structure FuturesRound (capacity : ℕ) (s s' : SpillState Page Storage) (m : PageMemory Page Storage)
    (c : Cell Page Storage) (rest globalCells : List (Cell Page Storage)) : Prop where
  ne_nil : c.2 ≠ []
  extract : futurePointerCacheExtractFutures s.memory s.localCache = (some c.1, s'.localCache, m)
  detached : m.Detached capacity c
  globalCache : s.globalCache.Represents m capacity globalCells
  notMem : c.1 ∉ pagesOf globalCells
  insert : futurePointerCacheInsertFutures capacity m s.globalCache c.1 = some (s'.globalCache, s'.memory)
  next : ∃ globalCells', s'.Represents capacity rest globalCells' ∧
    Spilled s s' (c :: rest) globalCells rest globalCells'

/-- There is a round while the local cache has futures. -/
theorem SpillState.Represents.futuresRound (h : s.Represents capacity localCells globalCells)
    (hcapacity : 0 < capacity) (hnum : s.localCache.numTopFutures ≠ 0) :
    ∃ s' m c rest, localCells = c :: rest ∧ FuturesRound capacity s s' m c rest globalCells := by
  rcases futurePointerCacheExtractFutures_spec h.localCache hcapacity with
    ⟨hnil, -⟩ | ⟨c, rest, localCache, m, rfl, hne, hextract, hlocal, hdetached, hwrites⟩
  · exact absurd (h.localCache.numTopFutures_eq_zero_iff.mpr hnil) hnum
  obtain ⟨hglobalNotin, hlocalNotin, hdisjoint⟩ := h.disjoint_tail
  have hglobal : s.globalCache.Represents m capacity globalCells :=
    h.globalCache.congr fun q hq => hwrites.pages q fun hmem => h.disjoint hmem hq
  obtain ⟨globalCells₁, globalCache, m', hinsert, hglobal', hpages, hfutures, hwrites'⟩ :=
    futurePointerCacheInsertFutures_spec hglobal hcapacity hdetached hne hglobalNotin
  have hlocal' : localCache.Represents m' capacity rest := by
    refine hlocal.congr fun q hq => hwrites'.pages q fun hmem => ?_
    rcases List.mem_cons.mp hmem with rfl | hmem
    · exact hlocalNotin hq
    · exact hdisjoint hq hmem
  refine ⟨⟨localCache, globalCache, m'⟩, m, c, rest, rfl, hne, hextract, hdetached, hglobal, hglobalNotin,
    hinsert, globalCells₁, ⟨hlocal', hglobal', fun q hq hmem => ?_⟩, ?_, ?_,
    (hwrites.trans hwrites').mono fun q hq => ?_⟩
  · rcases List.mem_cons.mp (hpages.mem_iff.mp hmem) with rfl | hmem
    · exact hlocalNotin hq
    · exact hdisjoint hq hmem
  · exact (hpages.append_left _).trans List.perm_middle
  · have hmove := hfutures.append_left (futuresOf rest)
    refine hmove.trans ?_
    rw [← List.append_assoc, futuresOf_cons]
    exact List.perm_append_comm.append_right _
  · simp only [pagesOf_cons, List.mem_append, List.mem_cons] at hq ⊢
    tauto

/-- The first loop moves the pages with futures. -/
theorem spillFutures_spec (hcapacity : 0 < capacity) {fuel : ℕ}
    (h : s.Represents capacity localCells globalCells) (hfuel : localCells.length < fuel) :
    ∃ s' localCells' globalCells', spillFutures capacity fuel s = some s' ∧
      s'.Represents capacity localCells' globalCells' ∧ futuresOf localCells' = [] ∧
      localCells'.length ≤ localCells.length ∧
      Spilled s s' localCells globalCells localCells' globalCells' := by
  induction fuel generalizing s localCells globalCells with
  | zero => exact absurd hfuel (Nat.not_lt_zero _)
  | succ fuel ih =>
      by_cases hzero : s.localCache.numTopFutures = 0
      · have hnil := h.localCache.numTopFutures_eq_zero_iff.mp hzero
        exact ⟨s, localCells, globalCells, by rw [spillFutures, if_pos hzero], h, hnil, le_rfl,
          .refl _, .refl _, .refl _ _⟩
      · obtain ⟨s₁, m, c, rest, rfl, hround⟩ := h.futuresRound hcapacity hzero
        obtain ⟨globalCells₁, hnext, hspilled⟩ := hround.next
        obtain ⟨s', localCells', globalCells', hrun, hrep, hnil, hle, hspilled'⟩ :=
          ih hnext (by simpa using hfuel)
        refine ⟨s', localCells', globalCells', ?_, hrep, hnil, by simp; omega,
          hspilled.trans hspilled'⟩
        rw [spillFutures, if_neg hzero, hround.extract]
        simpa [hround.insert] using hrun

/-- A round of the second loop takes an empty page out of the local cache and puts it into the global
cache. -/
structure EmptyRound (capacity : ℕ) (fresh : Page) (s s' : SpillState Page Storage)
    (m : PageMemory Page Storage) (empty : Page) (localCells rest globalCells : List (Cell Page Storage)) :
    Prop where
  obtain_eq : futurePointerCacheObtainEmpty s.memory s.localCache fresh = (empty, s'.localCache, m)
  detached : m.Detached capacity (empty, [])
  globalCache : s.globalCache.Represents m capacity globalCells
  insert : futurePointerCacheInsertEmpty m s.globalCache empty = (s'.globalCache, s'.memory)
  length : rest.length + 1 = localCells.length
  futures : futuresOf rest = futuresOf localCells
  next : ∃ globalCells', s'.Represents capacity rest globalCells' ∧
    Spilled s s' localCells globalCells rest globalCells'

/-- There is a round while the local cache has pages, all of them empty. -/
theorem SpillState.Represents.emptyRound (h : s.Represents capacity localCells globalCells) (fresh : Page)
    (hempty : futuresOf localCells = []) (htop : s.localCache.top ≠ none) :
    ∃ s' m empty rest, EmptyRound capacity fresh s s' m empty localCells rest globalCells := by
  rcases futurePointerCacheObtainEmpty_spec h.localCache fresh with
    ⟨empty, rest, localCache, m, hobtain, hlocal, hpages, hfutures, hdetached, hwrites⟩ |
    ⟨-, hnil | hnil⟩
  swap
  · exact absurd (h.localCache.top_eq_none_iff.mpr hnil) htop
  swap
  · exact absurd hempty hnil
  -- the page that has been taken out is in neither cache
  have hnodup := hpages.nodup_iff.mp h.localCache.linked.nodup
  obtain ⟨hlocalNotin, -⟩ := List.nodup_cons.mp hnodup
  have hdisjoint : (empty :: pagesOf rest).Disjoint (pagesOf globalCells) := fun q hq hmem =>
    h.disjoint (hpages.mem_iff.mpr hq) hmem
  obtain ⟨hglobalNotin, hdisjoint⟩ := List.disjoint_cons_left.mp hdisjoint
  have hglobal : s.globalCache.Represents m capacity globalCells :=
    h.globalCache.congr fun q hq => hwrites.pages q fun hmem => h.disjoint hmem hq
  obtain ⟨globalCells₁, globalCache, m', hinsert, hglobal', hpages', hfutures', -, hwrites'⟩ :=
    futurePointerCacheInsertEmpty_spec hglobal hdetached hglobalNotin
  have hlocal' : localCache.Represents m' capacity rest := by
    refine hlocal.congr fun q hq => hwrites'.pages q fun hmem => ?_
    rcases List.mem_cons.mp hmem with rfl | hmem
    · exact hlocalNotin hq
    · exact hdisjoint hq hmem
  have hlen : rest.length + 1 = localCells.length := by
    simpa [pagesOf] using hpages.length_eq.symm
  refine ⟨⟨localCache, globalCache, m'⟩, m, empty, rest, hobtain, hdetached, hglobal, hinsert, hlen,
    hfutures, globalCells₁, ⟨hlocal', hglobal', fun q hq hmem => ?_⟩, ?_, by rw [hfutures, hfutures'],
    (hwrites.trans hwrites').mono fun q hq => ?_⟩
  · rcases List.mem_cons.mp (hpages'.mem_iff.mp hmem) with rfl | hmem
    · exact hlocalNotin hq
    · exact hdisjoint hq hmem
  · refine (hpages'.append_left _).trans (List.perm_middle.trans ?_)
    exact (hpages.append_right _).symm
  · rw [List.mem_append, List.mem_cons] at hq
    rw [List.mem_append]
    obtain hq | rfl | hq := hq
    · exact .inl hq
    · exact .inl (hpages.mem_iff.mpr (by simp))
    · exact .inr hq

/-- The second loop moves the empty pages. -/
theorem spillEmpty_spec (fresh : Page) {fuel : ℕ} (h : s.Represents capacity localCells globalCells)
    (hempty : futuresOf localCells = []) (hfuel : localCells.length < fuel) :
    ∃ s' globalCells', spillEmpty fresh fuel s = some s' ∧ s'.Represents capacity [] globalCells' ∧
      Spilled s s' localCells globalCells [] globalCells' := by
  induction fuel generalizing s localCells globalCells with
  | zero => exact absurd hfuel (Nat.not_lt_zero _)
  | succ fuel ih =>
      by_cases hnone : s.localCache.top = none
      · obtain rfl := h.localCache.top_eq_none_iff.mp hnone
        exact ⟨s, globalCells, by rw [spillEmpty, if_pos hnone], h, .refl _, .refl _, .refl _ _⟩
      · obtain ⟨s₁, m, empty, rest, hround⟩ := h.emptyRound fresh hempty hnone
        obtain ⟨globalCells₁, hnext, hspilled⟩ := hround.next
        have hlen := hround.length
        obtain ⟨s', globalCells', hrun, hrep, hspilled'⟩ :=
          ih hnext (hround.futures.trans hempty) (by omega)
        refine ⟨s', globalCells', ?_, hrep, hspilled.trans hspilled'⟩
        rw [spillEmpty, if_neg hnone, hround.obtain_eq]
        simpa [hround.insert] using hrun

/-- `future_pointer_cache_spill` moves everything to the global cache. -/
theorem futurePointerCacheSpill_spec (hcapacity : 0 < capacity) (fresh : Page)
    (h : s.Represents capacity localCells globalCells)
    (hpages : localCells.length ≤ localFuturePointerPages) :
    ∃ s' globalCells', futurePointerCacheSpill capacity fresh s = some s' ∧
      s'.Represents capacity [] globalCells' ∧ Spilled s s' localCells globalCells [] globalCells' := by
  obtain ⟨s₁, localCells₁, globalCells₁, hrun, hrep, hnil, hle, hspilled⟩ :=
    spillFutures_spec hcapacity h (Nat.lt_succ_of_le hpages)
  obtain ⟨s', globalCells', hrun', hrep', hspilled'⟩ :=
    spillEmpty_spec fresh hrep hnil (Nat.lt_succ_of_le (hle.trans hpages))
  refine ⟨s', globalCells', ?_, hrep', hspilled.trans hspilled'⟩
  rw [futurePointerCacheSpill, hrun]
  exact hrun'

end Udipe

import Udipe.Allocator.Assertions

/-!
# When inserting and spilling pass their assertions

Inserting a page completes unless its futures overflow a partial top page. A spill inserts the full pages of
the local cache, which never fails, and then its top page, onto what the global cache has on top by then.
-/

namespace Udipe

open Checked Function

variable {Page Storage : Type} [DecidableEq Page] {capacity : ℕ} {m m' : PageMemory Page Storage}
  {cache : PointerCache Page} {cells : List (Cell Page Storage)} {p : Page}
  {y : List (FuturePtr Storage)}

/-! ## Inserting futures -/

/-- `future_pointer_cache_insert_futures` passes its assertions, unless something is left over after a
merge. -/
theorem futurePointerCacheInsertFuturesAssertions_eq (h : cache.Represents m capacity cells)
    (hcapacity : 0 < capacity) (hd : m.Detached capacity (p, y)) (hy : y ≠ []) (hp : p ∉ pagesOf cells) :
    futurePointerCacheInsertFuturesAssertions capacity m cache p
      = if y.length = capacity ∨ cache.numTopFutures + y.length ≤ capacity then .ok ()
        else .error .remainder := by
  have hcount : futurePointerPageOccupancy capacity (m.pages p) = y.length :=
    futurePointerPageOccupancy_eq hd.holds hcapacity
  have hylen : y.length ≤ capacity := hd.holds.length_le
  have hypos : 1 ≤ y.length := List.length_pos_iff.mpr hy
  have hnext : (m.pages p).next = none := hd.next
  have hprevious : (m.pages p).previous = none := hd.previous
  simp only [futurePointerCacheInsertFuturesAssertions, hnext, hprevious, hcount, hypos, Option.isNone_none,
    ensure, decide_true, if_true, ok_bind]
  by_cases hsafe : cache.numTopFutures = 0 ∨ y.length = capacity
  · -- the page goes to the bottom
    have hfits : y.length = capacity ∨ cache.numTopFutures + y.length ≤ capacity := by omega
    have hbottom : assertFirstIfAny (m.setNext p cache.bottom) cache.bottom = .ok () := by
      cases hbottom : cache.bottom with
      | none => rfl
      | some bottom => simp [assertFirstIfAny, h.previous_bottom hbottom, ensure]
    have htop : cache.numTopFutures ≠ 0 ∨ cache.top = cache.bottom :=
      or_iff_not_imp_left.mpr fun hnum => h.top_eq_bottom (not_ne_iff.mp hnum)
    rw [if_pos hsafe, if_pos hfits, hbottom, ok_bind, if_pos (decide_eq_true htop)]
  · obtain ⟨hnum, hpartial⟩ := not_or.mp hsafe
    obtain ⟨-, -, hzero⟩ | ⟨full, ⟨top, x⟩, empties, rfl, hz⟩ := h.zoned
    · exact absurd hzero hnum
    have hxnum : cache.numTopFutures = x.length := hz.num_eq
    have hxholds := h.holds (top, x) (by simp)
    have hxlen : x.length ≤ capacity := hxholds.length_le
    have hne : p ≠ top := by
      rintro rfl
      simp at hp
    rw [if_neg hsafe]
    simp only [mergeAssertions, ensure, hz.top_eq, Option.isSome_some, hnum, hpartial, ne_eq, not_false_eq_true,
      and_self, decide_true, if_true, ok_bind, ofOption_some]
    by_cases hroom : y.length ≤ capacity - cache.numTopFutures
    · -- all futures move, and the page is inserted as an empty one
      rw [if_pos hroom, Nat.sub_self, if_pos rfl, if_pos (by omega)]
      obtain ⟨-, hinput, hlinks, -⟩ := moveFutures_spec hne hxholds hd.holds le_rfl (by omega)
      rw [Nat.sub_self, List.take_zero, ← hxnum] at hinput
      rw [← hxnum] at hlinks
      have hnext' := (congrFun (congrArg Links.next hlinks) p).trans hnext
      have hprevious' := (congrFun (congrArg Links.previous hlinks) p).trans hprevious
      have hfirst := hinput.futures 0 hcapacity
      simp only [PageMemory.links, List.getElem?_nil] at hnext' hprevious' hfirst
      simp [futurePointerCacheInsertEmptyAssertions, hnext', hprevious', hfirst, ensure, ok_bind]
    · -- the top page is full now, but the assertion expects the room that there was
      have hleft : y.length - (capacity - cache.numTopFutures) ≠ 0 := by omega
      have hnew : ¬ (1 ≤ y.length - (capacity - cache.numTopFutures) ∧
          cache.numTopFutures + (capacity - cache.numTopFutures) = capacity - cache.numTopFutures) := by
        omega
      have hoverflow : ¬ (False ∨ cache.numTopFutures + y.length ≤ capacity) := by
        rw [false_or]
        omega
      rw [if_neg hroom, if_neg hleft, if_neg hoverflow, if_neg (by rwa [decide_eq_true_eq])]

/-- `future_pointer_cache_insert_futures` of a debug build. -/
theorem futurePointerCacheInsertFuturesChecked_eq (h : cache.Represents m capacity cells)
    (hcapacity : 0 < capacity) (hd : m.Detached capacity (p, y)) (hy : y ≠ []) (hp : p ∉ pagesOf cells) :
    futurePointerCacheInsertFuturesChecked capacity m cache p
      = if y.length = capacity ∨ cache.numTopFutures + y.length ≤ capacity then
          ofOption .nullPointer (futurePointerCacheInsertFutures capacity m cache p)
        else .error .remainder := by
  rw [futurePointerCacheInsertFuturesChecked,
    futurePointerCacheInsertFuturesAssertions_eq h hcapacity hd hy hp]
  split <;> rfl

/-- A full page changes the number of futures in the top page when it is the first with futures. -/
theorem numTopFutures_insertFutures_of_full {cache' : PointerCache Page}
    (hcount : futurePointerPageOccupancy capacity (m.pages p) = capacity)
    (hrun : futurePointerCacheInsertFutures capacity m cache p = some (cache', m')) :
    cache'.numTopFutures = if cache.numTopFutures = 0 then capacity else cache.numTopFutures := by
  simp only [futurePointerCacheInsertFutures, hcount, or_true, if_true, Option.some.injEq,
    Prod.mk.injEq] at hrun
  rw [← hrun.1]
  split <;> rfl

/-! ## Spilling -/

/-- The top page of the local cache is full, or fits on the top page of the global cache, which is a full page
of the local cache if the global cache had no futures. -/
def SpillState.Fits (capacity : ℕ) (s : SpillState Page Storage) : Prop :=
  let moved := s.localCache.numTopFutures
  let room := if s.localCache.bottom ≠ s.localCache.top ∧ s.globalCache.numTopFutures = 0 then capacity
    else s.globalCache.numTopFutures
  moved = capacity ∨ room + moved ≤ capacity

variable {s : SpillState Page Storage} {localCells globalCells : List (Cell Page Storage)}

/-- Without futures there is nothing to insert. -/
theorem SpillState.Represents.fits_of_empty (h : s.Represents capacity localCells globalCells)
    (hnum : s.localCache.numTopFutures = 0) : s.Fits capacity := by
  have htop := h.localCache.top_eq_bottom hnum
  have hle := h.globalCache.numTopFutures_le
  rw [SpillState.Fits, htop, hnum]
  simpa using .inr hle

/-- A full page of the local cache goes to the bottom of the global cache, and the top page of the local cache
still fits or still does not. -/
theorem SpillState.fits_iff_of_full {s' : SpillState Page Storage} (hcapacity : 0 < capacity)
    (hbottom : s.localCache.bottom ≠ s.localCache.top)
    (hlocal : s'.localCache.numTopFutures = s.localCache.numTopFutures)
    (hglobal : s'.globalCache.numTopFutures
      = if s.globalCache.numTopFutures = 0 then capacity else s.globalCache.numTopFutures) :
    s'.Fits capacity ↔ s.Fits capacity := by
  have hroom : s'.globalCache.numTopFutures ≠ 0 := by
    rw [hglobal]
    split <;> omega
  simp only [SpillState.Fits, hlocal, hroom, and_false, if_false]
  simp only [hglobal, ne_eq, hbottom, not_false_eq_true, true_and]

/-- The number of futures in the top page after the bottom page has been taken out. -/
theorem numTopFutures_extractFutures (hnum : cache.numTopFutures ≠ 0) (hbottom : cache.bottom = some p) :
    (futurePointerCacheExtractFutures m cache).2.1.numTopFutures
      = if cache.top = cache.bottom then 0 else cache.numTopFutures := by
  rw [futurePointerCacheExtractFutures, if_neg hnum, hbottom]
  dsimp only
  split <;> rfl

/-- A round passes its assertions exactly if its page fits, and then the rest fits or not as before. -/
theorem FuturesRound.checked {s' : SpillState Page Storage} {c : Cell Page Storage}
    {rest : List (Cell Page Storage)} (hround : FuturesRound capacity s s' m c rest globalCells)
    (h : s.Represents capacity (c :: rest) globalCells) (hcapacity : 0 < capacity) :
    (futurePointerCacheInsertFuturesChecked capacity m s.globalCache c.1
        = .ok (s'.globalCache, s'.memory) ∧ (s'.Fits capacity ↔ s.Fits capacity)) ∨
      (¬ s.Fits capacity ∧
        futurePointerCacheInsertFuturesChecked capacity m s.globalCache c.1 = .error .remainder) := by
  have hchecked := futurePointerCacheInsertFuturesChecked_eq hround.globalCache hcapacity hround.detached
    hround.ne_nil hround.notMem
  rw [hround.insert] at hchecked
  have hbottom : s.localCache.bottom = some c.1 := h.localCache.bottom
  have hnum : s.localCache.numTopFutures ≠ 0 := fun h0 => by
    have hnil := h.localCache.numTopFutures_eq_zero_iff.mp h0
    exact hround.ne_nil (List.append_eq_nil_iff.mp hnil).1
  have hlocal := numTopFutures_extractFutures (m := s.memory) hnum hbottom
  rw [hround.extract] at hlocal
  obtain ⟨globalCells', hnext, -⟩ := hround.next
  obtain ⟨hnil, -, -⟩ | ⟨full, t, empties, hcells, hz⟩ := h.localCache.zoned
  · simp at hnil
  cases full with
  | nil =>
      -- the bottom page is the top page, and there are no futures left
      obtain ⟨rfl, rfl⟩ : c = t ∧ rest = empties := by simpa using hcells
      have htop : s.localCache.top = s.localCache.bottom := by rw [hz.top_eq, hbottom]
      rw [if_pos htop] at hlocal
      have hfits : s.Fits capacity ↔
          c.2.length = capacity ∨ s.globalCache.numTopFutures + c.2.length ≤ capacity := by
        simp [SpillState.Fits, htop, hz.num_eq]
      by_cases hfit : c.2.length = capacity ∨ s.globalCache.numTopFutures + c.2.length ≤ capacity
      · rw [if_pos hfit] at hchecked
        exact .inl ⟨hchecked, iff_of_true (hnext.fits_of_empty hlocal) (hfits.mpr hfit)⟩
      · rw [if_neg hfit] at hchecked
        exact .inr ⟨fun hs => hfit (hfits.mp hs), hchecked⟩
  | cons d full =>
      obtain ⟨rfl, rfl⟩ : c = d ∧ rest = full ++ t :: empties := by simpa using hcells
      have hfull : c.2.length = capacity := hz.full_length c (by simp)
      have htop : s.localCache.top ≠ s.localCache.bottom := by
        have hlocal' : s.localCache.Represents s.memory capacity ((c :: full) ++ t :: empties) :=
          h.localCache
        have hne : c.1 ≠ t.1 := hlocal'.page_ne (.inl List.mem_cons_self)
        rw [hz.top_eq, hbottom]
        simpa using hne.symm
      rw [if_neg htop] at hlocal
      rw [if_pos (.inl hfull)] at hchecked
      have hcount : futurePointerPageOccupancy capacity (m.pages c.1) = capacity := by
        rw [futurePointerPageOccupancy_eq hround.detached.holds hcapacity, hfull]
      exact .inl ⟨hchecked, SpillState.fits_iff_of_full hcapacity htop.symm hlocal
        (numTopFutures_insertFutures_of_full hcount hround.insert)⟩

/-- The first loop passes its assertions exactly if the top page fits. -/
theorem spillFuturesChecked_spec (hcapacity : 0 < capacity) {fuel : ℕ}
    (h : s.Represents capacity localCells globalCells) (hfuel : localCells.length < fuel) :
    (s.Fits capacity ∧ ∃ s', spillFuturesChecked capacity fuel s = .ok s' ∧
        spillFutures capacity fuel s = some s') ∨
      (¬ s.Fits capacity ∧ spillFuturesChecked capacity fuel s = .error .remainder) := by
  induction fuel generalizing s localCells globalCells with
  | zero => exact absurd hfuel (Nat.not_lt_zero _)
  | succ fuel ih =>
      by_cases hzero : s.localCache.numTopFutures = 0
      · refine .inl ⟨h.fits_of_empty hzero, s, ?_, ?_⟩
        · rw [spillFuturesChecked, if_pos hzero]
        · rw [spillFutures, if_pos hzero]
      · obtain ⟨s₁, m, c, rest, rfl, hround⟩ := h.futuresRound hcapacity hzero
        obtain ⟨globalCells₁, hnext, -⟩ := hround.next
        have hextract := futurePointerCacheExtractFuturesAssertions_ok h.localCache
        rw [spillFuturesChecked, if_neg hzero, hextract, ok_bind, hround.extract, spillFutures,
          if_neg hzero, hround.extract]
        simp only [ofOption_some, ok_bind, Option.bind_eq_bind, Option.bind_some, hround.insert]
        rcases hround.checked h hcapacity with ⟨hok, hfits⟩ | ⟨hfits, herror⟩
        · rw [hok, ← hfits]
          exact ih hnext (by simpa using hfuel)
        · rw [herror]
          exact .inr ⟨hfits, rfl⟩

/-- The second loop passes its assertions. -/
theorem spillEmptyChecked_spec (hcapacity : 0 < capacity) (fresh : Page) {fuel : ℕ}
    (h : s.Represents capacity localCells globalCells) (hempty : futuresOf localCells = [])
    (hfuel : localCells.length < fuel) :
    ∃ s', spillEmptyChecked fresh fuel s = .ok s' ∧ spillEmpty fresh fuel s = some s' := by
  induction fuel generalizing s localCells globalCells with
  | zero => exact absurd hfuel (Nat.not_lt_zero _)
  | succ fuel ih =>
      by_cases hnone : s.localCache.top = none
      · refine ⟨s, ?_, ?_⟩
        · rw [spillEmptyChecked, if_pos hnone]
        · rw [spillEmpty, if_pos hnone]
      · obtain ⟨s₁, m, empty, rest, hround⟩ := h.emptyRound fresh hempty hnone
        obtain ⟨globalCells₁, hnext, -⟩ := hround.next
        have hlen := hround.length
        have hobtain := futurePointerCacheObtainEmptyAssertions_ok h.localCache
        have hinsert := futurePointerCacheInsertEmptyAssertions_ok hround.globalCache hcapacity hround.detached
        rw [spillEmptyChecked, if_neg hnone, hobtain, ok_bind, hround.obtain_eq, spillEmpty, if_neg hnone,
          hround.obtain_eq]
        simp only [hinsert, ok_bind, hround.insert]
        exact ih hnext (hround.futures.trans hempty) (by omega)

/-- A spill of a debug build does what a spill does if the top page fits, and fails on the remainder
otherwise. -/
theorem futurePointerCacheSpillChecked_spec (hcapacity : 0 < capacity) (fresh : Page)
    (h : s.Represents capacity localCells globalCells)
    (hpages : localCells.length ≤ localFuturePointerPages) :
    (s.Fits capacity ∧ ∃ s', futurePointerCacheSpillChecked capacity fresh s = .ok s' ∧
        futurePointerCacheSpill capacity fresh s = some s') ∨
      (¬ s.Fits capacity ∧ futurePointerCacheSpillChecked capacity fresh s = .error .remainder) := by
  rw [futurePointerCacheSpillChecked, futurePointerCacheSpill]
  rcases spillFuturesChecked_spec hcapacity h (Nat.lt_succ_of_le hpages) with
    ⟨hfits, s₁, hok, hrun⟩ | ⟨hfits, herror⟩
  · refine .inl ⟨hfits, ?_⟩
    obtain ⟨s₁', localCells₁, globalCells₁, hrun₁, hrep₁, hnil, hle, -⟩ :=
      spillFutures_spec hcapacity h (Nat.lt_succ_of_le hpages)
    obtain rfl : s₁ = s₁' := Option.some.inj (hrun.symm.trans hrun₁)
    have hfuel : localCells₁.length < localFuturePointerPages + 1 :=
      Nat.lt_succ_of_le (hle.trans hpages)
    obtain ⟨s₂, hok₂, hrun₂⟩ := spillEmptyChecked_spec hcapacity fresh hrep₁ hnil hfuel
    obtain ⟨s₂', globalCells₂, hrun₂', hrep₂, -⟩ := spillEmpty_spec fresh hrep₁ hnil hfuel
    obtain rfl : s₂ = s₂' := Option.some.inj (hrun₂.symm.trans hrun₂')
    -- the local cache is empty
    have hbottom : s₂.localCache.bottom = none := hrep₂.localCache.bottom
    have htop : s₂.localCache.top = none := hrep₂.localCache.top_eq_none_iff.mpr rfl
    have hnum : s₂.localCache.numTopFutures = 0 := hrep₂.localCache.numTopFutures_eq_zero_iff.mpr rfl
    refine ⟨s₂, ?_, ?_⟩
    · simp [hok, hok₂, hbottom, htop, hnum, ensure, ok_bind]
    · rw [hrun]
      exact hrun₂
  · rw [herror]
    exact .inr ⟨hfits, rfl⟩

/-! ## When the assertions hold -/

/-- For every represented cache and every page of futures on its own, `future_pointer_cache_insert_futures`
passes its assertions exactly if the page is full or its futures fit into the top page; and
`future_pointer_cache_spill` completes exactly if that is so for the top page of the local cache. -/
theorem insertFutures_passes_iff (hcapacity : 0 < capacity) :
    (∀ (m : PageMemory Page Storage) cache cells p y, PointerCache.Represents m capacity cache cells →
      m.Detached capacity (p, y) → y ≠ [] → p ∉ pagesOf cells →
      ((∃ r, futurePointerCacheInsertFuturesChecked capacity m cache p = .ok r) ↔
        y.length = capacity ∨ cache.numTopFutures + y.length ≤ capacity)) ∧
    ∀ (fresh : Page) (s : SpillState Page Storage) localCells globalCells,
      s.Represents capacity localCells globalCells → localCells.length ≤ localFuturePointerPages →
      ((∃ s', futurePointerCacheSpillChecked capacity fresh s = .ok s') ↔ s.Fits capacity) := by
  constructor
  · intro m cache cells p y h hd hy hp
    obtain ⟨_, cache', m', hrun, -⟩ := futurePointerCacheInsertFutures_spec h hcapacity hd hy hp
    rw [futurePointerCacheInsertFuturesChecked_eq h hcapacity hd hy hp, hrun]
    split
    · rename_i hfits
      exact iff_of_true ⟨_, rfl⟩ hfits
    · rename_i hfits
      exact iff_of_false (by simp) hfits
  · intro fresh s localCells globalCells h hpages
    rcases futurePointerCacheSpillChecked_spec hcapacity fresh h hpages with
      ⟨hfits, s', hok, -⟩ | ⟨hfits, herror⟩
    · exact iff_of_true ⟨s', hok⟩ hfits
    · exact iff_of_false (by simp [herror]) hfits

/-- The futures that a thread got from the storage pages `first`, `first + 1` and so on, of 31 futures. -/
def heldFutures (first n : ℕ) : List (FuturePtr ℕ) :=
  (List.range n).map fun i => ⟨first + i / 31, i % 31⟩

/-- A thread that leaves with 300 futures, when another one has left with 300. -/
def twoLeave : SpillState (Fin 3) ℕ where
  localCache := ⟨some 0, some 0, 300⟩
  globalCache := ⟨some 2, some 2, 300⟩
  memory :=
    { pages := fun
        | 0 => ⟨none, some 1, fun j => (heldFutures 0 300)[j]?⟩
        | 1 => ⟨some 0, none, fun _ => none⟩
        | 2 => ⟨none, none, fun j => (heldFutures 10 300)[j]?⟩
      allocated := fun _ => true }

theorem length_heldFutures (first n : ℕ) : (heldFutures first n).length = n := by
  simp [heldFutures]

theorem twoLeave_represents : twoLeave.Represents (futurePointerPageCapacity 4096)
    [(0, heldFutures 0 300), (1, [])] [(2, heldFutures 10 300)] := by
  have hcapacity : futurePointerPageCapacity 4096 = 510 := by decide
  rw [hcapacity]
  refine ⟨⟨⟨by decide, ?_⟩, ?_, rfl, ?_⟩, ⟨Links.lists_singleton rfl rfl, ?_, rfl, ?_⟩, by simp⟩
  · intro l₁ p l₂ hl
    rcases l₁ with _ | ⟨a, _ | ⟨b, l₁⟩⟩
    · obtain ⟨rfl, rfl⟩ : 0 = p ∧ [1] = l₂ := by simpa using hl
      exact ⟨rfl, rfl⟩
    · obtain ⟨rfl, rfl, rfl⟩ : 0 = a ∧ 1 = p ∧ [] = l₂ := by simpa using hl
      exact ⟨rfl, rfl⟩
    · simp at hl
  · intro c hc
    obtain rfl | rfl : c = (0, heldFutures 0 300) ∨ c = (1, []) := by simpa using hc
    · exact ⟨by simp [length_heldFutures], fun _ _ => rfl⟩
    · exact ⟨Nat.zero_le _, fun _ _ => rfl⟩
  · refine .inr ⟨[], (0, heldFutures 0 300), [(1, [])], rfl, by simp, by simp, rfl, ?_, fun _ => rfl⟩
    rw [length_heldFutures]
    rfl
  · intro c hc
    obtain rfl : c = (2, heldFutures 10 300) := by simpa using hc
    exact ⟨by simp [length_heldFutures], fun _ _ => rfl⟩
  · refine .inr ⟨[], (2, heldFutures 10 300), [], rfl, by simp, by simp, rfl, ?_, fun _ => rfl⟩
    rw [length_heldFutures]
    rfl

/-- Both have fewer futures than a page takes, but more than a page takes between them. -/
theorem not_fits_twoLeave : ¬ twoLeave.Fits (futurePointerPageCapacity 4096) := by
  simp [SpillState.Fits, twoLeave, futurePointerPageCapacity, pointerSize]

/-- The page of 300 futures does not go into the cache with 300 futures, and the spill does not complete. -/
theorem insertFutures_passes_twoLeave :
    twoLeave.Represents (futurePointerPageCapacity 4096) [(0, heldFutures 0 300), (1, [])]
      [(2, heldFutures 10 300)] ∧
    (let m := (futurePointerCacheExtractFutures twoLeave.memory twoLeave.localCache).2.2
     twoLeave.globalCache.Represents m (futurePointerPageCapacity 4096) [(2, heldFutures 10 300)] ∧
     m.Detached (futurePointerPageCapacity 4096) (0, heldFutures 0 300) ∧
     futurePointerCacheInsertFuturesChecked (futurePointerPageCapacity 4096) m twoLeave.globalCache 0
      = .error .remainder) ∧
    futurePointerCacheSpillChecked (futurePointerPageCapacity 4096) 0 twoLeave = .error .remainder := by
  have hcapacity : 0 < futurePointerPageCapacity 4096 := by decide
  have h := twoLeave_represents
  refine ⟨h, ?_, ?_⟩
  · obtain ⟨s', m, c, rest, hcells, hround⟩ := h.futuresRound hcapacity (by decide)
    obtain ⟨rfl, rfl⟩ : (0, heldFutures 0 300) = c ∧ [(1, [])] = rest := by simpa using hcells
    rw [hround.extract]
    refine ⟨hround.globalCache, hround.detached, ?_⟩
    rcases hround.checked h hcapacity with ⟨hok, -⟩ | ⟨-, herror⟩
    · have hoverflow : ¬ ((heldFutures 0 300).length = futurePointerPageCapacity 4096 ∨
          twoLeave.globalCache.numTopFutures + (heldFutures 0 300).length
            ≤ futurePointerPageCapacity 4096) := by
        rw [length_heldFutures]
        decide
      rw [futurePointerCacheInsertFuturesChecked_eq hround.globalCache hcapacity hround.detached
        hround.ne_nil hround.notMem, if_neg hoverflow] at hok
      simp at hok
    · exact herror
  · rcases futurePointerCacheSpillChecked_spec hcapacity 0 h (by decide) with ⟨hfits, -⟩ | ⟨-, herror⟩
    · exact absurd hfits not_fits_twoLeave
    · exact herror

/-- The condition is evaluated on the two caches. -/
theorem insertFutures_passes_iff_twoLeave :
    (∃ s', futurePointerCacheSpillChecked (futurePointerPageCapacity 4096) 0 twoLeave = .ok s') ↔
      twoLeave.Fits (futurePointerPageCapacity 4096) :=
  (insertFutures_passes_iff (by decide)).2 0 twoLeave _ _ twoLeave_represents (by decide)

end Udipe

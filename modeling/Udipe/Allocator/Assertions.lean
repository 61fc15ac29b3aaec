import Udipe.Allocator.Spill
import Udipe.Lib.Checked

/-!
# The assertions of the pointer cache

Reference: `future/allocator/pointer_cache.c`.

In a debug build each function of the cache checks what it relies on. Its assertions stand here in their
order, on the values that the code has there; the checked function is its assertions and then the function.

One of them is wrong. When a partial page overflows a partial top page, `future_pointer_cache_insert_futures`
compares the new number of futures in the top page, which is the capacity, with the room that there was.
-/

namespace Udipe

open Checked Function

/-- The check that has failed. -/
inductive PointerCacheFailure
  /-- A null pointer is followed. -/
  | nullPointer
  /-- A page on its own has a link. -/
  | linkedPage
  /-- The bottom page has a predecessor. -/
  | precededBottom
  /-- `num_top_futures` is out of range. -/
  | topCount
  | noTop
  | noFuture
  | noRoom
  /-- An empty page has a future, or the slot of a new future has one. -/
  | occupied
  /-- A page with futures has none. -/
  | noFutures
  /-- A cache without futures has a top page that is not its bottom page. -/
  | topNotBottom
  /-- Pages without a top page, or futures without one. -/
  | bottomWithoutTop
  | countWithoutTop
  /-- A page cannot be merged with the top page. -/
  | unmergeable
  /-- What is left over after a merge. -/
  | remainder
  /-- A cache to be refilled has futures. -/
  | notEmpty
  | storageTooLong
  /-- A local cache has something left after a spill. -/
  | notSpilled
  /-- A loop has not ended. -/
  | unfinished
deriving DecidableEq

variable {Page Storage : Type} (capacity : ℕ) (m : PageMemory Page Storage)
  (cache : PointerCache Page)

/-! ## Single calls -/

/-- The assertions of `future_pointer_cache_allocate_local`. -/
def futurePointerCacheAllocateLocalAssertions : Except PointerCacheFailure Unit :=
  if cache.numTopFutures = 0 then .ok ()
  else do
    ensure (cache.numTopFutures ≤ capacity) .topCount
    ensure cache.top.isSome .noTop
    let top ← ofOption .noTop cache.top
    ensure ((m.pages top).futures (cache.numTopFutures - 1)).isSome .noFuture

/-- The assertions of `future_pointer_cache_liberate_local`, in the page and at the slot of the new future. -/
def liberateLocalSlotAssertions (top : Page) (numTopFutures : ℕ) : Except PointerCacheFailure Unit := do
  ensure (numTopFutures < capacity) .topCount
  ensure ((m.pages top).futures numTopFutures).isNone .occupied

/-- The assertions of `future_pointer_cache_liberate_local`. -/
def futurePointerCacheLiberateLocalAssertions : Except PointerCacheFailure Unit := do
  ensure cache.top.isSome .noTop
  let top ← ofOption .noTop cache.top
  if cache.numTopFutures = capacity then
    match (m.pages top).next with
    | none => .ok ()
    | some next => liberateLocalSlotAssertions capacity m next 0
  else liberateLocalSlotAssertions capacity m top cache.numTopFutures

/-- The assertions of `future_pointer_cache_extract_futures`. -/
def futurePointerCacheExtractFuturesAssertions : Except PointerCacheFailure Unit :=
  if cache.numTopFutures = 0 then .ok ()
  else
    match cache.bottom with
    | none => .ok ()
    | some extracted => ensure (m.pages extracted).previous.isNone .precededBottom

/-- The assertions of `future_pointer_cache_obtain_empty`. -/
def futurePointerCacheObtainEmptyAssertions : Except PointerCacheFailure Unit :=
  match cache.top with
  | none => .ok ()
  | some top =>
      if (m.pages top).next.isSome ∨ 1 ≤ cache.numTopFutures then .ok ()
      else do
        ensure (m.pages top).next.isNone .linkedPage
        ensure (m.pages top).previous.isNone .linkedPage

/-- The assertions of `future_pointer_cache_insert_empty`. -/
def futurePointerCacheInsertEmptyAssertions (empty : Page) : Except PointerCacheFailure Unit := do
  ensure (m.pages empty).next.isNone .linkedPage
  ensure (m.pages empty).previous.isNone .linkedPage
  ensure ((m.pages empty).futures 0).isNone .occupied
  if cache.top = none then do
    ensure cache.bottom.isNone .bottomWithoutTop
    ensure (cache.numTopFutures = 0) .countWithoutTop
  else ensure cache.top.isSome .noTop

/-- The assertions of `future_pointer_cache_refill_local`. -/
def futurePointerCacheRefillLocalAssertions (storagePageLength : ℕ) : Except PointerCacheFailure Unit := do
  ensure (cache.numTopFutures = 0) .notEmpty
  ensure cache.top.isSome .noTop
  ensure (storagePageLength ≤ capacity) .storageTooLong

/-! ## On represented caches -/

variable {capacity m cache} {cells : List (Cell Page Storage)} {p q : Page}

theorem futurePointerCacheAllocateLocalAssertions_ok (h : cache.Represents m capacity cells) :
    futurePointerCacheAllocateLocalAssertions capacity m cache = .ok () := by
  rw [futurePointerCacheAllocateLocalAssertions]
  split
  · rfl
  rename_i hnum
  obtain ⟨-, -, hzero⟩ | ⟨full, ⟨top, x⟩, empties, rfl, hz⟩ := h.zoned
  · exact absurd hzero hnum
  have hcount : cache.numTopFutures = x.length := hz.num_eq
  have hle := h.numTopFutures_le
  have hfuture : (m.pages top).futures (cache.numTopFutures - 1) = x[cache.numTopFutures - 1]? :=
    (h.holds (top, x) (by simp)).futures _ (by omega)
  have hlast : (x[cache.numTopFutures - 1]?).isSome = true := by
    rw [List.getElem?_eq_getElem (by omega)]
    rfl
  simp [ensure, hz.top_eq, hle, hfuture, hlast, ok_bind]

theorem liberateLocalSlotAssertions_ok {c : Cell Page Storage} (hholds : m.Holds capacity c)
    (hroom : c.2.length < capacity) : liberateLocalSlotAssertions capacity m c.1 c.2.length = .ok () := by
  have hslot : (m.pages c.1).futures c.2.length = none := by
    rw [hholds.futures _ hroom, List.getElem?_eq_none le_rfl]
  simp [liberateLocalSlotAssertions, ensure, hroom, hslot, ok_bind]

theorem futurePointerCacheLiberateLocalAssertions_ok (h : cache.Represents m capacity cells)
    (hcapacity : 0 < capacity) (hcells : cells ≠ []) :
    futurePointerCacheLiberateLocalAssertions capacity m cache = .ok () := by
  obtain ⟨hnil, -, -⟩ | ⟨full, t, empties, rfl, hz⟩ := h.zoned
  · exact absurd hnil hcells
  have hnext : (m.pages t.1).next = (pagesOf empties).head? := by
    have hlinked := h.linked
    rw [pagesOf_append, pagesOf_cons] at hlinked
    exact hlinked.next_eq
  have hle : t.2.length ≤ capacity := (h.holds t (by simp)).length_le
  simp only [futurePointerCacheLiberateLocalAssertions, hz.top_eq, Option.isSome_some, ensure, if_true,
    ok_bind, ofOption_some, hnext, hz.num_eq]
  split
  · -- the next page is empty
    cases empties with
    | nil => rfl
    | cons e empties =>
        have he : e.2 = [] := hz.empty_nil e (by simp)
        have hslot := liberateLocalSlotAssertions_ok (h.holds e (by simp)) (by simpa [he] using hcapacity)
        rw [he] at hslot
        exact hslot
  · exact liberateLocalSlotAssertions_ok (h.holds t (by simp)) (by omega)

theorem futurePointerCacheExtractFuturesAssertions_ok (h : cache.Represents m capacity cells) :
    futurePointerCacheExtractFuturesAssertions m cache = .ok () := by
  rw [futurePointerCacheExtractFuturesAssertions]
  split
  · rfl
  · split
    · rfl
    · rename_i extracted hbottom
      rw [h.previous_bottom hbottom]
      rfl

theorem futurePointerCacheObtainEmptyAssertions_ok (h : cache.Represents m capacity cells) :
    futurePointerCacheObtainEmptyAssertions m cache = .ok () := by
  rw [futurePointerCacheObtainEmptyAssertions]
  split
  · rfl
  rename_i top htop
  split
  · rfl
  rename_i hlast
  rw [not_or, Nat.not_le, Nat.lt_one_iff] at hlast
  have hnext : (m.pages top).next = none := by simpa using hlast.1
  have hprevious := h.previous_bottom ((h.top_eq_bottom hlast.2) ▸ htop)
  simp [ensure, hnext, hprevious, ok_bind]

theorem futurePointerCacheInsertEmptyAssertions_ok (h : cache.Represents m capacity cells)
    (hcapacity : 0 < capacity) (hd : m.Detached capacity (p, [])) :
    futurePointerCacheInsertEmptyAssertions m cache p = .ok () := by
  have hnext : (m.pages p).next = none := hd.next
  have hprevious : (m.pages p).previous = none := hd.previous
  have hfirst : (m.pages p).futures 0 = none := hd.holds.futures 0 hcapacity
  rw [futurePointerCacheInsertEmptyAssertions, hnext, hprevious, hfirst]
  by_cases htop : cache.top = none
  · obtain rfl := h.top_eq_none_iff.mp htop
    have hbottom : cache.bottom = none := h.bottom
    have hnum : cache.numTopFutures = 0 := h.numTopFutures_eq_zero_iff.mpr rfl
    simp [ensure, htop, hbottom, hnum, ok_bind]
  · simp [ensure, htop, Option.isSome_iff_ne_none, ok_bind]

theorem futurePointerCacheRefillLocalAssertions_ok (h : cache.Represents m capacity cells)
    (hcells : cells ≠ []) (hempty : futuresOf cells = []) {length : ℕ} (hlength : length ≤ capacity) :
    futurePointerCacheRefillLocalAssertions capacity cache length = .ok () := by
  have hnum := h.numTopFutures_eq_zero_iff.mpr hempty
  have htop : cache.top ≠ none := fun hnone => hcells (h.top_eq_none_iff.mp hnone)
  simp [futurePointerCacheRefillLocalAssertions, ensure, hnum, Option.isSome_iff_ne_none.mpr htop, hlength,
    ok_bind]

/-! ## Inserting futures -/

variable [DecidableEq Page] (capacity m cache)

/-- `if (p) assert(p->previous == NULL)`. -/
def assertFirstIfAny (p : Option Page) : Except PointerCacheFailure Unit :=
  match p with
  | some p => ensure (m.pages p).previous.isNone .precededBottom
  | none => .ok ()

/-- The assertions of `future_pointer_cache_insert_futures` when it merges the `numFutures` of `nonEmpty` into
the top page. -/
def mergeAssertions (nonEmpty : Page) (numFutures : ℕ) : Except PointerCacheFailure Unit := do
  ensure (cache.top.isSome ∧ cache.numTopFutures ≠ 0 ∧ numFutures ≠ capacity) .unmergeable
  let top ← ofOption .unmergeable cache.top
  let topCapacity := capacity - cache.numTopFutures
  let movedFutures := if numFutures ≤ topCapacity then numFutures else topCapacity
  let m := moveFutures m nonEmpty top numFutures cache.numTopFutures movedFutures
  let cache := { cache with numTopFutures := cache.numTopFutures + movedFutures }
  let remainingFutures := numFutures - movedFutures
  if remainingFutures = 0 then futurePointerCacheInsertEmptyAssertions m cache nonEmpty
  else ensure (1 ≤ remainingFutures ∧ cache.numTopFutures = topCapacity) .remainder

/-- The assertions of `future_pointer_cache_insert_futures`. -/
def futurePointerCacheInsertFuturesAssertions (nonEmpty : Page) : Except PointerCacheFailure Unit := do
  ensure (m.pages nonEmpty).next.isNone .linkedPage
  ensure (m.pages nonEmpty).previous.isNone .linkedPage
  let numFutures := futurePointerPageOccupancy capacity (m.pages nonEmpty)
  ensure (1 ≤ numFutures) .noFutures
  if cache.numTopFutures = 0 ∨ numFutures = capacity then do
    assertFirstIfAny (m.setNext nonEmpty cache.bottom) cache.bottom
    ensure (cache.numTopFutures ≠ 0 ∨ cache.top = cache.bottom) .topNotBottom
  else mergeAssertions capacity m cache nonEmpty numFutures

/-- `future_pointer_cache_insert_futures` in a debug build. -/
def futurePointerCacheInsertFuturesChecked (nonEmpty : Page) :
    Except PointerCacheFailure (PointerCache Page × PageMemory Page Storage) := do
  futurePointerCacheInsertFuturesAssertions capacity m cache nonEmpty
  ofOption .nullPointer (futurePointerCacheInsertFutures capacity m cache nonEmpty)

/-! ## Spilling -/

/-- The loop `while (local->num_top_futures != 0)` in a debug build. -/
def spillFuturesChecked : (fuel : ℕ) → SpillState Page Storage →
    Except PointerCacheFailure (SpillState Page Storage)
  | 0, _ => .error .unfinished
  | fuel + 1, s =>
      if s.localCache.numTopFutures = 0 then .ok s
      else do
        futurePointerCacheExtractFuturesAssertions s.memory s.localCache
        let (futures, localCache, m) := futurePointerCacheExtractFutures s.memory s.localCache
        let futures ← ofOption .nullPointer futures
        let (globalCache, m) ← futurePointerCacheInsertFuturesChecked capacity m s.globalCache futures
        spillFuturesChecked fuel ⟨localCache, globalCache, m⟩

/-- The loop `while (local->top)` in a debug build. -/
def spillEmptyChecked (fresh : Page) : (fuel : ℕ) → SpillState Page Storage →
    Except PointerCacheFailure (SpillState Page Storage)
  | 0, _ => .error .unfinished
  | fuel + 1, s =>
      if s.localCache.top = none then .ok s
      else do
        futurePointerCacheObtainEmptyAssertions s.memory s.localCache
        let (empty, localCache, m) := futurePointerCacheObtainEmpty s.memory s.localCache fresh
        futurePointerCacheInsertEmptyAssertions m s.globalCache empty
        let (globalCache, m) := futurePointerCacheInsertEmpty m s.globalCache empty
        spillEmptyChecked fresh fuel ⟨localCache, globalCache, m⟩

/-- `future_pointer_cache_spill` in a debug build. -/
def futurePointerCacheSpillChecked (fresh : Page) (s : SpillState Page Storage) :
    Except PointerCacheFailure (SpillState Page Storage) := do
  let s ← spillFuturesChecked capacity (localFuturePointerPages + 1) s
  let s ← spillEmptyChecked fresh (localFuturePointerPages + 1) s
  ensure s.localCache.bottom.isNone .notSpilled
  ensure s.localCache.top.isNone .notSpilled
  ensure (s.localCache.numTopFutures = 0) .notSpilled
  .ok s

end Udipe

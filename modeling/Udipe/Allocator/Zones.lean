import Udipe.Allocator.PointerCache
import Udipe.Lib.DoublyLinked
import Mathlib.Data.List.Perm.Basic

/-!
# What a cache of future pointers holds

A cache represents a list of cells, each a page with the futures in it: first pages that are full, then the
top page, then pages that are empty. Every function of the cache takes represented caches to represented
caches, never follows a null pointer on the way, and moves pages and futures without losing any.
-/

namespace Udipe

open Function

variable {Page Storage : Type} {capacity : ℕ} {m m' : PageMemory Page Storage}
  {cache : PointerCache Page} {p q : Page}

/-- A page with the futures in it. -/
abbrev Cell (Page Storage : Type) := Page × List (FuturePtr Storage)

variable {cells full empties : List (Cell Page Storage)} {c t : Cell Page Storage}

/-- The pages of the cells. -/
def pagesOf (cells : List (Cell Page Storage)) : List Page := cells.map Prod.fst

/-- The futures in the cells. -/
def futuresOf (cells : List (Cell Page Storage)) : List (FuturePtr Storage) := cells.flatMap Prod.snd

@[simp] theorem pagesOf_nil : pagesOf ([] : List (Cell Page Storage)) = [] := rfl

@[simp] theorem pagesOf_cons (c : Cell Page Storage) (cells : List (Cell Page Storage)) :
    pagesOf (c :: cells) = c.1 :: pagesOf cells := rfl

@[simp] theorem pagesOf_append (cells cells' : List (Cell Page Storage)) :
    pagesOf (cells ++ cells') = pagesOf cells ++ pagesOf cells' := List.map_append

@[simp] theorem futuresOf_nil : futuresOf ([] : List (Cell Page Storage)) = [] := rfl

@[simp] theorem futuresOf_cons (c : Cell Page Storage) (cells : List (Cell Page Storage)) :
    futuresOf (c :: cells) = c.2 ++ futuresOf cells := rfl

@[simp] theorem futuresOf_append (cells cells' : List (Cell Page Storage)) :
    futuresOf (cells ++ cells') = futuresOf cells ++ futuresOf cells' := List.flatMap_append

@[simp] theorem length_pagesOf (cells : List (Cell Page Storage)) :
    (pagesOf cells).length = cells.length := List.length_map _

/-- Caches of the same pages have as many cells. -/
theorem length_eq_of_pagesOf (h : (pagesOf cells).Perm (pagesOf cells')) : cells.length = cells'.length := by
  simpa using h.length_eq

/-- A cache with one more page has one more cell. -/
theorem length_eq_of_pagesOf_cons (h : (pagesOf cells).Perm (p :: pagesOf cells')) :
    cells.length = cells'.length + 1 := by
  simpa using h.length_eq

theorem mem_pagesOf_of_mem (h : c ∈ cells) : c.1 ∈ pagesOf cells := List.mem_map_of_mem h

/-- Cells without futures. -/
theorem futuresOf_eq_nil (h : ∀ c ∈ cells, c.2 = []) : futuresOf cells = [] := by
  rw [futuresOf, List.flatMap_eq_nil_iff]
  exact h

/-! ## Representation -/

/-- The links of all pages. -/
def PageMemory.links (m : PageMemory Page Storage) : Links Page :=
  ⟨fun p => (m.pages p).next, fun p => (m.pages p).previous⟩

/-- The futures of the cell come first in its page, followed by null pointers. -/
structure PageMemory.Holds (m : PageMemory Page Storage) (capacity : ℕ) (c : Cell Page Storage) :
    Prop where
  length_le : c.2.length ≤ capacity
  futures : ∀ j < capacity, (m.pages c.1).futures j = c.2[j]?

/-- Full pages, then the top page with `num_top_futures` futures, then empty pages. -/
structure PointerCache.Zones (capacity : ℕ) (cache : PointerCache Page)
    (full : List (Cell Page Storage)) (top : Cell Page Storage) (empties : List (Cell Page Storage)) :
    Prop where
  full_length : ∀ c ∈ full, c.2.length = capacity
  empty_nil : ∀ c ∈ empties, c.2 = []
  top_eq : cache.top = some top.1
  num_eq : cache.numTopFutures = top.2.length
  /-- The top page is only empty when all pages are. -/
  full_nil : top.2 = [] → full = []

/-- The cells fall into zones, unless there are none. -/
def PointerCache.Zoned (capacity : ℕ) (cache : PointerCache Page) (cells : List (Cell Page Storage)) :
    Prop :=
  (cells = [] ∧ cache.top = none ∧ cache.numTopFutures = 0) ∨
  ∃ full top empties, cells = full ++ top :: empties ∧ cache.Zones capacity full top empties

/-- The cache represents the cells. -/
structure PointerCache.Represents (m : PageMemory Page Storage) (capacity : ℕ)
    (cache : PointerCache Page) (cells : List (Cell Page Storage)) : Prop where
  linked : m.links.Lists (pagesOf cells)
  holds : ∀ c ∈ cells, m.Holds capacity c
  bottom : cache.bottom = (pagesOf cells).head?
  zoned : cache.Zoned capacity cells

/-- A page on its own, outside of all caches. -/
structure PageMemory.Detached (m : PageMemory Page Storage) (capacity : ℕ) (c : Cell Page Storage) :
    Prop where
  holds : m.Holds capacity c
  next : (m.pages c.1).next = none
  previous : (m.pages c.1).previous = none

/-- Only the pages of `ps` have been written. -/
structure PageMemory.Writes (m m' : PageMemory Page Storage) (ps : List Page) : Prop where
  pages : ∀ p, p ∉ ps → m'.pages p = m.pages p
  allocated : m'.allocated = m.allocated

theorem PageMemory.Holds.congr (h : m.Holds capacity c)
    (hfutures : (m'.pages c.1).futures = (m.pages c.1).futures) : m'.Holds capacity c :=
  ⟨h.length_le, fun j hj => hfutures ▸ h.futures j hj⟩

theorem PageMemory.Detached.congr (h : m.Detached capacity c) (hpage : m'.pages c.1 = m.pages c.1) :
    m'.Detached capacity c :=
  ⟨h.holds.congr (by rw [hpage]), hpage ▸ h.next, hpage ▸ h.previous⟩

/-- A cache depends on its own pages only. -/
theorem PointerCache.Represents.congr (h : cache.Represents m capacity cells)
    (hpages : ∀ p ∈ pagesOf cells, m'.pages p = m.pages p) : cache.Represents m' capacity cells where
  linked := h.linked.congr (fun p hp => congrArg PointerPage.next (hpages p hp))
    fun p hp => congrArg PointerPage.previous (hpages p hp)
  holds c hc := (h.holds c hc).congr (by rw [hpages _ (mem_pagesOf_of_mem hc)])
  bottom := h.bottom
  zoned := h.zoned

namespace PointerCache

theorem represents_initializeGlobal (m : PageMemory Page Storage) (capacity : ℕ) :
    (initializeGlobal : PointerCache Page).Represents m capacity [] :=
  ⟨m.links.lists_nil, by simp, rfl, .inl ⟨rfl, rfl, rfl⟩⟩

/-- Other cells are on other pages. -/
theorem Represents.page_ne (h : cache.Represents m capacity (full ++ t :: empties))
    (hc : c ∈ full ∨ c ∈ empties) : c.1 ≠ t.1 := by
  have hnodup := h.linked.nodup
  rw [pagesOf_append, pagesOf_cons] at hnodup
  have hnotin := (List.nodup_cons.mp (List.nodup_middle.mp hnodup)).1
  rintro heq
  refine hnotin (heq ▸ ?_)
  rw [List.mem_append]
  exact hc.imp mem_pagesOf_of_mem mem_pagesOf_of_mem

theorem Zones.futuresOf_eq {cells : List (Cell Page Storage)} (h : cache.Zones capacity full t empties)
    (hcells : cells = full ++ t :: empties) : futuresOf cells = futuresOf full ++ t.2 := by
  rw [hcells, futuresOf_append, futuresOf_cons, futuresOf_eq_nil h.empty_nil, List.append_nil]

/-- `num_top_futures` is zero exactly when the cache holds no future. -/
theorem Represents.numTopFutures_eq_zero_iff (h : cache.Represents m capacity cells) :
    cache.numTopFutures = 0 ↔ futuresOf cells = [] := by
  obtain ⟨rfl, -, hnum⟩ | ⟨full, t, empties, hcells, hz⟩ := h.zoned
  · simp [hnum]
  · rw [hz.futuresOf_eq hcells, hz.num_eq, List.length_eq_zero_iff]
    constructor
    · intro hnil
      rw [hz.full_nil hnil, hnil]
      rfl
    · exact fun hnil => (List.append_eq_nil_iff.mp hnil).2

/-- There is a top page unless there is no page. -/
theorem Represents.top_eq_none_iff (h : cache.Represents m capacity cells) :
    cache.top = none ↔ cells = [] := by
  obtain ⟨rfl, htop, -⟩ | ⟨full, t, empties, rfl, hz⟩ := h.zoned
  · simp [htop]
  · simp [hz.top_eq]

/-- The bottom page has no predecessor. -/
theorem Represents.previous_bottom (h : cache.Represents m capacity cells)
    (hbottom : cache.bottom = some p) : (m.pages p).previous = none := by
  rw [h.bottom] at hbottom
  cases cells with
  | nil => simp at hbottom
  | cons c rest =>
      obtain rfl : c.1 = p := by simpa using hbottom
      have hlinked : m.links.Lists ([] ++ c.1 :: pagesOf rest) := h.linked
      exact hlinked.previous_eq

/-- `num_top_futures` is at most the capacity of a page. -/
theorem Represents.numTopFutures_le (h : cache.Represents m capacity cells) :
    cache.numTopFutures ≤ capacity := by
  obtain ⟨-, -, hnum⟩ | ⟨full, t, empties, rfl, hz⟩ := h.zoned
  · omega
  · rw [hz.num_eq]
    exact (h.holds t (by simp)).length_le

/-- Without futures, the top page is the bottom page. -/
theorem Represents.top_eq_bottom (h : cache.Represents m capacity cells)
    (hnum : cache.numTopFutures = 0) : cache.top = cache.bottom := by
  obtain ⟨rfl, htop, -⟩ | ⟨full, t, empties, rfl, hz⟩ := h.zoned
  · rw [htop, h.bottom]
    rfl
  · have ht : t.2 = [] := List.length_eq_zero_iff.mp (hz.num_eq ▸ hnum)
    obtain rfl := hz.full_nil ht
    rw [hz.top_eq, h.bottom]
    rfl

/-- The futures of one page have changed, and its cell with them. -/
theorem Represents.replace {x : List (FuturePtr Storage)} {cache' : PointerCache Page}
    (h : cache.Represents m capacity (full ++ t :: empties)) (hlinks : m'.links = m.links)
    (hrest : ∀ c, c ∈ full ∨ c ∈ empties → (m'.pages c.1).futures = (m.pages c.1).futures)
    (hx : m'.Holds capacity (t.1, x)) (hbottom : cache'.bottom = cache.bottom)
    (hzoned : cache'.Zoned capacity (full ++ (t.1, x) :: empties)) :
    cache'.Represents m' capacity (full ++ (t.1, x) :: empties) where
  linked := by
    rw [hlinks]
    simpa using h.linked
  holds c hc := by
    rw [List.mem_append, List.mem_cons] at hc
    obtain hc | rfl | hc := hc
    · exact (h.holds c (by simp [hc])).congr (hrest c (.inl hc))
    · exact hx
    · exact (h.holds c (by simp [hc])).congr (hrest c (.inr hc))
  bottom := by
    rw [hbottom, h.bottom]
    simp
  zoned := hzoned

end PointerCache

namespace PageMemory

theorem Writes.refl (m : PageMemory Page Storage) (ps : List Page) : m.Writes m ps :=
  ⟨fun _ _ => rfl, rfl⟩

theorem Writes.trans {m'' : PageMemory Page Storage} {ps ps' : List Page} (h : m.Writes m' ps)
    (h' : m'.Writes m'' ps') : m.Writes m'' (ps ++ ps') where
  pages p hp := by
    rw [List.mem_append, not_or] at hp
    rw [h'.pages p hp.2, h.pages p hp.1]
  allocated := h'.allocated.trans h.allocated

theorem Writes.mono {ps ps' : List Page} (h : m.Writes m' ps) (hsub : ps ⊆ ps') : m.Writes m' ps' :=
  ⟨fun p hp => h.pages p fun hmem => hp (hsub hmem), h.allocated⟩

end PageMemory

/-! ## Writing futures -/

variable [DecidableEq Page]

namespace PageMemory

theorem pages_write (m : PageMemory Page Storage) (p q : Page) (page : PointerPage Page Storage) :
    (m.write p page).pages q = if q = p then page else m.pages q := by
  simp [write, update_apply]

theorem writes_write (m : PageMemory Page Storage) (p : Page) (page : PointerPage Page Storage) :
    m.Writes (m.write p page) [p] :=
  ⟨fun q hq => by simp [pages_write, List.mem_singleton.not.mp hq], rfl⟩

/-- Writing futures changes no link. -/
theorem links_write_of_eq {page : PointerPage Page Storage} (hnext : page.next = (m.pages p).next)
    (hprevious : page.previous = (m.pages p).previous) : (m.write p page).links = m.links := by
  have hpages : ∀ q, ((m.write p page).pages q).next = (m.pages q).next ∧
      ((m.write p page).pages q).previous = (m.pages q).previous := by
    intro q
    rw [pages_write]
    split
    · rename_i heq
      exact heq ▸ ⟨hnext, hprevious⟩
    · exact ⟨rfl, rfl⟩
  rw [links, links, Links.mk.injEq]
  exact ⟨funext fun q => (hpages q).1, funext fun q => (hpages q).2⟩

@[simp] theorem links_setFuture (m : PageMemory Page Storage) (p : Page) (i : ℕ)
    (v : Option (FuturePtr Storage)) : (m.setFuture p i v).links = m.links :=
  links_write_of_eq rfl rfl

theorem pages_setFuture_of_ne (m : PageMemory Page Storage) (i : ℕ) (v : Option (FuturePtr Storage))
    (h : q ≠ p) : (m.setFuture p i v).pages q = m.pages q := by
  rw [setFuture, pages_write, if_neg h]

/-- The last future of a page is taken out. -/
theorem Holds.pop {x : List (FuturePtr Storage)} {f : FuturePtr Storage}
    (h : m.Holds capacity (p, x ++ [f])) : (m.setFuture p x.length none).Holds capacity (p, x) := by
  have hlen : x.length + 1 ≤ capacity := by simpa using h.length_le
  refine ⟨show x.length ≤ capacity by omega, fun j hj => ?_⟩
  have hfutures := h.futures j hj
  simp only [setFuture, pages_write, if_true, update_apply]
  split
  · rename_i heq
    simp [heq]
  · rw [hfutures]
    rcases Nat.lt_or_gt_of_ne ‹_› with hlt | hgt
    · exact List.getElem?_append_left hlt
    · rw [List.getElem?_eq_none (by simp; omega), List.getElem?_eq_none (by omega)]

/-- A future is added at the end. -/
theorem Holds.push {x : List (FuturePtr Storage)} (h : m.Holds capacity (p, x))
    (hroom : x.length < capacity) (f : FuturePtr Storage) :
    (m.setFuture p x.length (some f)).Holds capacity (p, x ++ [f]) := by
  refine ⟨by simp only [List.length_append, List.length_singleton]; omega, fun j hj => ?_⟩
  have hfutures := h.futures j hj
  simp only [setFuture, pages_write, if_true, update_apply]
  split
  · rename_i heq
    simp [heq]
  · rw [hfutures]
    rcases Nat.lt_or_gt_of_ne ‹_› with hlt | hgt
    · exact (List.getElem?_append_left hlt).symm
    · rw [List.getElem?_eq_none (show x.length ≤ j by omega),
        List.getElem?_eq_none (by simp; omega)]

end PageMemory

/-- `future_pointer_cache_allocate_local` on a cache with futures. -/
theorem futurePointerCacheAllocateLocal_of_top (capacity : ℕ) (m : PageMemory Page Storage)
    {top : Page} {n : ℕ} (htop : cache.top = some top)
    (hnum : cache.numTopFutures = n + 1) :
    futurePointerCacheAllocateLocal capacity m cache
      = some ((m.pages top).futures n,
          match if n = 0 then (m.pages top).previous else none with
          | some previous => { cache with top := some previous, numTopFutures := capacity }
          | none => { cache with numTopFutures := n },
          m.setFuture top n none) := by
  have hprevious : ((m.setFuture top n none).pages top).previous = (m.pages top).previous := by
    rw [PageMemory.setFuture, PageMemory.pages_write, if_pos rfl]
  rw [futurePointerCacheAllocateLocal, if_neg (by omega)]
  simp only [htop, hnum, Nat.add_sub_cancel, Option.bind_eq_bind, Option.bind_some, hprevious]
  split
  · cases (m.pages top).previous <;> rfl
  · rfl

/-- `future_pointer_cache_allocate_local` takes out the last future. -/
theorem futurePointerCacheAllocateLocal_spec (h : cache.Represents m capacity cells)
    (hcapacity : 0 < capacity) :
    (futuresOf cells = [] ∧
      futurePointerCacheAllocateLocal capacity m cache = some (none, cache, m)) ∨
    ∃ f cache' m' cells',
      futurePointerCacheAllocateLocal capacity m cache = some (some f, cache', m') ∧
      cache'.Represents m' capacity cells' ∧ pagesOf cells' = pagesOf cells ∧
      futuresOf cells = futuresOf cells' ++ [f] ∧ m.Writes m' (pagesOf cells) := by
  by_cases hzero : cache.numTopFutures = 0
  · refine .inl ⟨h.numTopFutures_eq_zero_iff.mp hzero, ?_⟩
    rw [futurePointerCacheAllocateLocal, if_pos hzero]
  obtain ⟨-, -, hnum⟩ | ⟨full, ⟨top, x⟩, empties, rfl, hz⟩ := h.zoned
  · exact absurd hnum hzero
  have hnum : cache.numTopFutures = x.length := hz.num_eq
  obtain ⟨x, f, rfl⟩ : ∃ y f, x = y ++ [f] := by
    have hne : x ≠ [] := fun hnil => hzero (by simp [hnum, hnil])
    exact ⟨x.dropLast, x.getLast hne, (List.dropLast_append_getLast hne).symm⟩
  have hholds := h.holds (top, x ++ [f]) (by simp)
  have hroom : x.length < capacity := by
    have hle := hholds.length_le
    simp only [List.length_append, List.length_singleton] at hle
    omega
  have hfuture : (m.pages top).futures x.length = some f := by
    rw [hholds.futures _ hroom]
    simp
  set m' := m.setFuture top x.length none with hm'
  have hpop : m'.Holds capacity (top, x) := hholds.pop
  have hlinks : m'.links = m.links := m.links_setFuture ..
  have hrest : ∀ c, c ∈ full ∨ c ∈ empties → (m'.pages c.1).futures = (m.pages c.1).futures :=
    fun c hc => by rw [hm', m.pages_setFuture_of_ne _ _ (h.page_ne hc)]
  have hprevious : (m.pages top).previous = (pagesOf full).getLast? := by
    have hlinked := h.linked
    rw [pagesOf_append, pagesOf_cons] at hlinked
    exact hlinked.previous_eq
  have hfutures : futuresOf (full ++ (top, x ++ [f]) :: empties)
      = futuresOf (full ++ (top, x) :: empties) ++ [f] := by
    simp [futuresOf_eq_nil hz.empty_nil]
  have hwrites : m.Writes m' (pagesOf (full ++ (top, x ++ [f]) :: empties)) :=
    (m.writes_write top _).mono (by simp)
  have hrun := futurePointerCacheAllocateLocal_of_top capacity m hz.top_eq (n := x.length)
    (by simp [hnum])
  rw [hfuture, ← hm'] at hrun
  refine .inr ⟨f, ?_⟩
  by_cases hnil : x = []
  · subst hnil
    rcases full.eq_nil_or_concat' with rfl | ⟨full, below, rfl⟩
    · -- the cache is empty now
      refine ⟨{ cache with numTopFutures := 0 }, m', [] ++ (top, []) :: empties,
        by simpa [hprevious] using hrun, h.replace hlinks hrest hpop rfl ?_, by simp, hfutures, hwrites⟩
      exact .inr ⟨[], (top, []), empties, rfl, hz.full_length, hz.empty_nil, hz.top_eq, rfl, fun _ => rfl⟩
    · -- the page before becomes the top page
      have hbelow : below.2.length = capacity := hz.full_length below (by simp)
      refine ⟨{ cache with top := some below.1, numTopFutures := capacity }, m',
        full ++ [below] ++ (top, []) :: empties, by simpa [hprevious] using hrun,
        h.replace hlinks hrest hpop rfl ?_, by simp, hfutures, hwrites⟩
      refine .inr ⟨full, below, (top, []) :: empties, by simp, fun c hc => hz.full_length c (by simp [hc]),
        ?_, rfl, hbelow.symm, fun hnil => ?_⟩
      · intro c hc
        rcases List.mem_cons.mp hc with rfl | hc
        · rfl
        · exact hz.empty_nil c hc
      · simp [hnil] at hbelow
        omega
  · refine ⟨{ cache with numTopFutures := x.length }, m', full ++ (top, x) :: empties,
      by simpa [hnil] using hrun, h.replace hlinks hrest hpop rfl ?_, by simp, hfutures, hwrites⟩
    exact .inr ⟨full, (top, x), empties, rfl, hz.full_length, hz.empty_nil, hz.top_eq, rfl,
      fun hx => absurd hx hnil⟩

/-- `future_pointer_cache_liberate_local` adds a future at the end, unless all pages are full. -/
theorem futurePointerCacheLiberateLocal_spec (h : cache.Represents m capacity cells)
    (hcapacity : 0 < capacity) (hcells : cells ≠ []) (f : FuturePtr Storage) :
    ((∀ c ∈ cells, c.2.length = capacity) ∧
      futurePointerCacheLiberateLocal capacity m cache f = some (false, cache, m)) ∨
    ∃ cache' m' cells',
      futurePointerCacheLiberateLocal capacity m cache f = some (true, cache', m') ∧
      cache'.Represents m' capacity cells' ∧ pagesOf cells' = pagesOf cells ∧
      futuresOf cells' = futuresOf cells ++ [f] ∧ m.Writes m' (pagesOf cells) ∧
      ∃ c ∈ cells, c.2.length < capacity := by
  obtain ⟨hnil, -, -⟩ | ⟨full, ⟨top, x⟩, empties, rfl, hz⟩ := h.zoned
  · exact absurd hnil hcells
  have hnum : cache.numTopFutures = x.length := hz.num_eq
  have hholds := h.holds (top, x) (by simp)
  have hle : x.length ≤ capacity := hholds.length_le
  have hnext : (m.pages top).next = (pagesOf empties).head? := by
    have hlinked := h.linked
    rw [pagesOf_append, pagesOf_cons] at hlinked
    exact hlinked.next_eq
  rw [futurePointerCacheLiberateLocal]
  simp only [hz.top_eq, Option.bind_eq_bind, Option.bind_some, hnext, hnum]
  by_cases hfull : x.length = capacity
  · rw [if_pos hfull]
    cases empties with
    | nil =>
        refine .inl ⟨fun c hc => ?_, rfl⟩
        rw [List.mem_append, List.mem_singleton] at hc
        obtain hc | rfl := hc
        · exact hz.full_length c hc
        · exact hfull
    | cons e empties =>
        -- the next page becomes the top page
        obtain ⟨next, y⟩ := e
        obtain rfl : y = [] := hz.empty_nil (next, y) (by simp)
        have hcell : full ++ (top, x) :: (next, []) :: empties
            = (full ++ [(top, x)]) ++ (next, []) :: empties := by simp
        rw [hcell] at h ⊢
        have hpush := (h.holds (next, []) (by simp)).push hcapacity f
        refine .inr ⟨{ cache with top := some next, numTopFutures := 0 + 1 },
          m.setFuture next 0 (some f), (full ++ [(top, x)]) ++ (next, [f]) :: empties, by simp, ?_,
          by simp, ?_, (m.writes_write next _).mono (by simp), (next, []), by simp, hcapacity⟩
        · refine h.replace (m.links_setFuture ..) (fun c hc => ?_) hpush rfl ?_
          · rw [m.pages_setFuture_of_ne _ _ (h.page_ne hc)]
          · refine .inr ⟨full ++ [(top, x)], (next, [f]), empties, rfl, fun c hc => ?_,
              fun c hc => hz.empty_nil c (by simp [hc]), rfl, rfl, fun hnil => by simp at hnil⟩
            rw [List.mem_append, List.mem_singleton] at hc
            obtain hc | rfl := hc
            · exact hz.full_length c hc
            · exact hfull
        · have hnil : futuresOf empties = [] := futuresOf_eq_nil fun c hc => hz.empty_nil c (by simp [hc])
          simp [hnil]
  · rw [if_neg hfull]
    have hroom : x.length < capacity := by omega
    refine .inr ⟨{ cache with numTopFutures := x.length + 1 }, m.setFuture top x.length (some f),
      full ++ (top, x ++ [f]) :: empties, by rw [hz.top_eq], ?_, by simp, ?_,
      (m.writes_write top _).mono (by simp), (top, x), by simp, hroom⟩
    · refine h.replace (m.links_setFuture ..) (fun c hc => ?_) (hholds.push hroom f) rfl ?_
      · rw [m.pages_setFuture_of_ne _ _ (h.page_ne hc)]
      · exact .inr ⟨full, (top, x ++ [f]), empties, rfl, hz.full_length, hz.empty_nil, hz.top_eq,
          by simp, fun hnil => by simp at hnil⟩
    · simp [futuresOf_eq_nil hz.empty_nil]

end Udipe

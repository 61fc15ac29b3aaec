import Udipe.Allocator.Zones

/-!
# Moving pages between caches

Pages leave a cache from its bottom when futures are wanted, and from above its top when an empty page is.
They enter at the bottom when they are full, and above the top otherwise.
-/

namespace Udipe

open Function

variable {Page Storage : Type} {capacity : ℕ} {m m' : PageMemory Page Storage}
  {cache : PointerCache Page} {p q fresh : Page} {v : Option Page}
  {cells full empties : List (Cell Page Storage)} {c t : Cell Page Storage} {l₁ l₂ : List Page}

/-! ## Writing links -/

namespace PageMemory

/-- A memory with other links, but the same futures and the same pages. -/
structure Relinks (m m' : PageMemory Page Storage) (ps : List Page) : Prop where
  futures : ∀ q, (m'.pages q).futures = (m.pages q).futures
  next : ∀ q, q ∉ ps → (m'.pages q).next = (m.pages q).next
  previous : ∀ q, q ∉ ps → (m'.pages q).previous = (m.pages q).previous
  allocated : m'.allocated = m.allocated

theorem Relinks.writes {ps : List Page} (h : m.Relinks m' ps) : m.Writes m' ps :=
  ⟨fun q hq => PointerPage.ext (h.previous q hq) (h.next q hq) (h.futures q), h.allocated⟩

theorem Relinks.holds {ps : List Page} (h : m.Relinks m' ps) (hc : m.Holds capacity c) :
    m'.Holds capacity c := hc.congr (h.futures c.1)

variable [DecidableEq Page]

theorem next_setNext (m : PageMemory Page Storage) (p q : Page) (v : Option Page) :
    ((m.setNext p v).pages q).next = if q = p then v else (m.pages q).next := by
  rw [setNext, pages_write]
  split <;> rfl

theorem previous_setPrevious (m : PageMemory Page Storage) (p q : Page) (v : Option Page) :
    ((m.setPrevious p v).pages q).previous = if q = p then v else (m.pages q).previous := by
  rw [setPrevious, pages_write]
  split <;> rfl

@[simp] theorem previous_setNext (m : PageMemory Page Storage) (p q : Page) (v : Option Page) :
    ((m.setNext p v).pages q).previous = (m.pages q).previous := by
  rw [setNext, pages_write]
  split <;> simp [*]

@[simp] theorem next_setPrevious (m : PageMemory Page Storage) (p q : Page) (v : Option Page) :
    ((m.setPrevious p v).pages q).next = (m.pages q).next := by
  rw [setPrevious, pages_write]
  split <;> simp [*]

@[simp] theorem futures_setNext (m : PageMemory Page Storage) (p q : Page) (v : Option Page) :
    ((m.setNext p v).pages q).futures = (m.pages q).futures := by
  rw [setNext, pages_write]
  split <;> simp [*]

@[simp] theorem futures_setPrevious (m : PageMemory Page Storage) (p q : Page) (v : Option Page) :
    ((m.setPrevious p v).pages q).futures = (m.pages q).futures := by
  rw [setPrevious, pages_write]
  split <;> simp [*]

theorem next_setNextIfAny (m : PageMemory Page Storage) (o v : Option Page) (q : Page) :
    ((m.setNextIfAny o v).pages q).next = if o = some q then v else (m.pages q).next := by
  cases o with
  | none => rfl
  | some p => simp [setNextIfAny, next_setNext, eq_comm]

theorem previous_setPreviousIfAny (m : PageMemory Page Storage) (o v : Option Page) (q : Page) :
    ((m.setPreviousIfAny o v).pages q).previous = if o = some q then v else (m.pages q).previous := by
  cases o with
  | none => rfl
  | some p => simp [setPreviousIfAny, previous_setPrevious, eq_comm]

@[simp] theorem previous_setNextIfAny (m : PageMemory Page Storage) (o v : Option Page) (q : Page) :
    ((m.setNextIfAny o v).pages q).previous = (m.pages q).previous := by
  cases o <;> simp [setNextIfAny]

@[simp] theorem next_setPreviousIfAny (m : PageMemory Page Storage) (o v : Option Page) (q : Page) :
    ((m.setPreviousIfAny o v).pages q).next = (m.pages q).next := by
  cases o <;> simp [setPreviousIfAny]

@[simp] theorem futures_setNextIfAny (m : PageMemory Page Storage) (o v : Option Page) (q : Page) :
    ((m.setNextIfAny o v).pages q).futures = (m.pages q).futures := by
  cases o <;> simp [setNextIfAny]

@[simp] theorem futures_setPreviousIfAny (m : PageMemory Page Storage) (o v : Option Page) (q : Page) :
    ((m.setPreviousIfAny o v).pages q).futures = (m.pages q).futures := by
  cases o <;> simp [setPreviousIfAny]

@[simp] theorem allocated_setNextIfAny (m : PageMemory Page Storage) (o v : Option Page) :
    (m.setNextIfAny o v).allocated = m.allocated := by
  cases o <;> rfl

@[simp] theorem allocated_setPreviousIfAny (m : PageMemory Page Storage) (o v : Option Page) :
    (m.setPreviousIfAny o v).allocated = m.allocated := by
  cases o <;> rfl

end PageMemory

/-! ## Counting the futures of a page -/

theorem occupancySearch_eq {futures : ℕ → Option (FuturePtr Storage)} {n lastPresent firstAbsent : ℕ}
    (hfutures : ∀ j < firstAbsent, (futures j).isSome = true ↔ j < n) (hpresent : lastPresent < n)
    (habsent : n ≤ firstAbsent) : occupancySearch futures lastPresent firstAbsent = n := by
  induction lastPresent, firstAbsent using occupancySearch.induct futures with
  | case1 lastPresent firstAbsent hlt midpoint hsome ih =>
      have hmid : midpoint < firstAbsent := by omega
      rw [occupancySearch, if_pos hlt, if_pos hsome]
      exact ih hfutures ((hfutures midpoint hmid).mp hsome) habsent
  | case2 lastPresent firstAbsent hlt midpoint hnone ih =>
      have hmid : midpoint < firstAbsent := by omega
      have hle : n ≤ midpoint := Nat.le_of_not_lt fun h => hnone ((hfutures midpoint hmid).mpr h)
      rw [occupancySearch, if_pos hlt, if_neg hnone]
      exact ih (fun j hj => hfutures j (by omega)) hpresent hle
  | case3 lastPresent firstAbsent hge =>
      rw [occupancySearch, if_neg hge]
      omega

/-- The search finds the end of the futures. -/
theorem futurePointerPageOccupancy_of_lt {page : PointerPage Page Storage} {n : ℕ}
    (hcapacity : 0 < capacity)
    (hsome : ∀ j < capacity, (page.futures j).isSome = true ↔ j < n) (hle : n ≤ capacity) :
    futurePointerPageOccupancy capacity page = n := by
  rw [futurePointerPageOccupancy]
  split
  · rename_i hnone
    have h0 := hsome 0 hcapacity
    rw [hnone] at h0
    simp only [Option.isSome_none, Bool.false_eq_true, false_iff] at h0
    omega
  · rename_i hfirst
    have hpos := (hsome 0 hcapacity).mp (Option.isSome_iff_ne_none.mpr hfirst)
    split
    · rename_i hlast
      have := (hsome (capacity - 1) (by omega)).mp hlast
      omega
    · rename_i hlast
      have hlt : ¬ capacity - 1 < n := fun h => hlast ((hsome _ (by omega)).mpr h)
      exact occupancySearch_eq (fun j hj => hsome j (by omega)) hpos (by omega)

/-- `future_pointer_page_occupancy` is the number of futures in the page. -/
theorem futurePointerPageOccupancy_eq (h : m.Holds capacity c) (hcapacity : 0 < capacity) :
    futurePointerPageOccupancy capacity (m.pages c.1) = c.2.length := by
  refine futurePointerPageOccupancy_of_lt hcapacity (fun j hj => ?_) h.length_le
  rw [h.futures j hj]
  simp

variable [DecidableEq Page]

/-! ## The links of a list -/

/-- `future_pointer_page_unlink` takes a page out of a list. -/
theorem futurePointerPageUnlink_spec (h : m.links.Lists (l₁ ++ p :: l₂)) :
    (futurePointerPageUnlink m p).links.Lists (l₁ ++ l₂) ∧
      m.Relinks (futurePointerPageUnlink m p) (l₁ ++ p :: l₂) ∧
      ((futurePointerPageUnlink m p).pages p).next = none ∧
      ((futurePointerPageUnlink m p).pages p).previous = none := by
  have hprevious : (m.pages p).previous = l₁.getLast? := h.previous_eq
  have hnext : (m.pages p).next = l₂.head? := h.next_eq
  have hnotin := (List.nodup_cons.mp (List.nodup_middle.mp h.nodup)).1
  have hne : ∀ q ∈ l₁ ++ l₂, q ≠ p := fun q hq heq => hnotin (heq ▸ hq)
  -- what the two fields are afterwards
  have hnexts : ∀ q, ((futurePointerPageUnlink m p).pages q).next
      = if q = p then none else if l₁.getLast? = some q then l₂.head? else (m.pages q).next := by
    intro q
    simp only [futurePointerPageUnlink, PageMemory.next_setPrevious, PageMemory.next_setNext,
      PageMemory.next_setNextIfAny, PageMemory.next_setPreviousIfAny,
      PageMemory.previous_setPreviousIfAny, hprevious, hnext, ite_self]
  have hpreviouses : ∀ q, ((futurePointerPageUnlink m p).pages q).previous
      = if q = p then none else if l₂.head? = some q then l₁.getLast? else (m.pages q).previous := by
    intro q
    simp only [futurePointerPageUnlink, PageMemory.previous_setPrevious,
      PageMemory.previous_setNext, PageMemory.previous_setNextIfAny,
      PageMemory.previous_setPreviousIfAny, hprevious, hnext]
  refine ⟨h.remove (fun q hq => ?_) (fun q hq => ?_) (fun q hq hne' => ?_) fun q hq hne' => ?_,
    ⟨fun q => ?_, fun q hq => ?_, fun q hq => ?_, ?_⟩, ?_, ?_⟩
  · exact (hnexts q).trans (by
      rw [if_neg (hne q (List.mem_append_left _ (List.mem_of_mem_getLast? hq))),
        if_pos (Option.mem_def.mp hq)])
  · exact (hpreviouses q).trans (by
      rw [if_neg (hne q (List.mem_append_right _ (List.mem_of_mem_head? hq))),
        if_pos (Option.mem_def.mp hq)])
  · exact (hnexts q).trans (by rw [if_neg (hne q hq), if_neg (Option.mem_def.not.mp hne')]; rfl)
  · exact (hpreviouses q).trans (by rw [if_neg (hne q hq), if_neg (Option.mem_def.not.mp hne')]; rfl)
  · simp [futurePointerPageUnlink]
  · rw [hnexts q, if_neg (by rintro rfl; simp at hq), if_neg fun hmem => hq ?_]
    exact List.mem_append_left _ (List.mem_of_mem_getLast? hmem)
  · rw [hpreviouses q, if_neg (by rintro rfl; simp at hq), if_neg fun hmem => hq ?_]
    simp [List.mem_of_mem_head? hmem]
  · simp [futurePointerPageUnlink, PageMemory.setNext, PageMemory.setPrevious, PageMemory.write]
  · rw [hnexts, if_pos rfl]
  · rw [hpreviouses, if_pos rfl]

/-- The fields after a page has been written between two others. -/
structure LinkedBetween (m m' : PageMemory Page Storage) (l₁ : List Page) (p : Page) (l₂ : List Page) :
    Prop where
  next : ∀ q, (m'.pages q).next
    = if q = p then l₂.head? else if l₁.getLast? = some q then some p else (m.pages q).next
  previous : ∀ q, (m'.pages q).previous
    = if q = p then l₁.getLast? else if l₂.head? = some q then some p else (m.pages q).previous
  futures : ∀ q, (m'.pages q).futures = (m.pages q).futures
  allocated : m'.allocated = m.allocated

/-- A page has been inserted into a list. -/
theorem LinkedBetween.spec (hb : LinkedBetween m m' l₁ p l₂) (h : m.links.Lists (l₁ ++ l₂))
    (hp : p ∉ l₁ ++ l₂) : m'.links.Lists (l₁ ++ p :: l₂) ∧ m.Relinks m' (l₁ ++ p :: l₂) := by
  have hne : ∀ q ∈ l₁ ++ l₂, q ≠ p := fun q hq heq => hp (heq ▸ hq)
  refine ⟨h.insert hp ?_ ?_ (fun q hq => ?_) (fun q hq => ?_) (fun q hq hne' => ?_)
    fun q hq hne' => ?_, hb.futures, fun q hq => ?_, fun q hq => ?_, hb.allocated⟩
  · exact (hb.previous p).trans (if_pos rfl)
  · exact (hb.next p).trans (if_pos rfl)
  · exact (hb.next q).trans (by
      rw [if_neg (hne q (List.mem_append_left _ (List.mem_of_mem_getLast? hq))),
        if_pos (Option.mem_def.mp hq)])
  · exact (hb.previous q).trans (by
      rw [if_neg (hne q (List.mem_append_right _ (List.mem_of_mem_head? hq))),
        if_pos (Option.mem_def.mp hq)])
  · exact (hb.next q).trans (by rw [if_neg (hne q hq), if_neg (Option.mem_def.not.mp hne')]; rfl)
  · exact (hb.previous q).trans (by
      rw [if_neg (hne q hq), if_neg (Option.mem_def.not.mp hne')]; rfl)
  · rw [hb.next q, if_neg (by rintro rfl; simp at hq), if_neg fun hmem => hq ?_]
    exact List.mem_append_left _ (List.mem_of_mem_getLast? hmem)
  · rw [hb.previous q, if_neg (by rintro rfl; simp at hq), if_neg fun hmem => hq ?_]
    simp [List.mem_of_mem_head? hmem]

/-! ## Taking pages out -/

/-- `future_pointer_cache_extract_futures` takes out the bottom page. -/
theorem futurePointerCacheExtractFutures_spec (h : cache.Represents m capacity cells)
    (hcapacity : 0 < capacity) :
    (futuresOf cells = [] ∧ futurePointerCacheExtractFutures m cache = (none, cache, m)) ∨
    ∃ c rest cache' m', cells = c :: rest ∧ c.2 ≠ [] ∧
      futurePointerCacheExtractFutures m cache = (some c.1, cache', m') ∧
      cache'.Represents m' capacity rest ∧ m'.Detached capacity c ∧ m.Writes m' (pagesOf cells) := by
  by_cases hzero : cache.numTopFutures = 0
  · refine .inl ⟨h.numTopFutures_eq_zero_iff.mp hzero, ?_⟩
    rw [futurePointerCacheExtractFutures, if_pos hzero]
  obtain ⟨-, -, hnum⟩ | ⟨full, t, empties, hcells, hz⟩ := h.zoned
  · exact absurd hnum hzero
  obtain ⟨c, rest, rfl⟩ : ∃ c rest, cells = c :: rest := by
    cases cells with
    | nil => simp at hcells
    | cons c rest => exact ⟨c, rest, rfl⟩
  have hbottom : cache.bottom = some c.1 := h.bottom
  have hlinked : m.links.Lists ([] ++ c.1 :: pagesOf rest) := h.linked
  have hnext : (m.pages c.1).next = (pagesOf rest).head? := hlinked.next_eq
  obtain ⟨hlists, hrelinks, hnone, hnone'⟩ := futurePointerPageUnlink_spec hlinked
  have hholds : ∀ c' ∈ c :: rest, (futurePointerPageUnlink m c.1).Holds capacity c' :=
    fun c' hc' => hrelinks.holds (h.holds c' hc')
  have hdetached : (futurePointerPageUnlink m c.1).Detached capacity c :=
    ⟨hholds c (by simp), hnone, hnone'⟩
  have hwrites : m.Writes (futurePointerPageUnlink m c.1) (pagesOf (c :: rest)) := hrelinks.writes
  cases full with
  | nil =>
      -- the bottom page is the top page, and the others are empty
      obtain ⟨rfl, rfl⟩ : c = t ∧ rest = empties := by simpa using hcells
      have hne : c.2 ≠ [] := fun hnil => hzero (by simp [hz.num_eq, hnil])
      refine .inr ⟨c, rest, ⟨(pagesOf rest).head?, (pagesOf rest).head?, 0⟩, _, rfl, hne, ?_,
        ⟨hlists, fun c' hc' => hholds c' (by simp [hc']), rfl, ?_⟩, hdetached, hwrites⟩
      · simp [futurePointerCacheExtractFutures, hzero, hbottom, hz.top_eq, hnext]
      · cases rest with
        | nil => exact .inl ⟨rfl, rfl, rfl⟩
        | cons e rest =>
            have he : e.2 = [] := hz.empty_nil e (by simp)
            exact .inr ⟨[], e, rest, rfl, by simp, fun c hc => hz.empty_nil c (by simp [hc]), rfl,
              by simp [he], fun _ => rfl⟩
  | cons d full =>
      obtain ⟨rfl, rfl⟩ : c = d ∧ rest = full ++ t :: empties := by simpa using hcells
      have hfull : c.2.length = capacity := hz.full_length c (by simp)
      have hne : c.2 ≠ [] := fun hnil => by
        rw [hnil, List.length_nil] at hfull
        omega
      have htop : t.1 ≠ c.1 := fun heq =>
        PointerCache.Represents.page_ne (List.nil_append (c :: _) ▸ h)
          (.inr (by simp : t ∈ full ++ t :: empties)) heq
      refine .inr ⟨c, full ++ t :: empties, { cache with bottom := (pagesOf (full ++ t :: empties)).head? },
        _, rfl, hne, ?_, ⟨hlists, fun c' hc' => hholds c' (by simp only [List.mem_cons, hc', or_true]), rfl, ?_⟩,
        hdetached, hwrites⟩
      · simp [futurePointerCacheExtractFutures, hzero, hbottom, hz.top_eq, hnext, htop]
      · refine .inr ⟨full, t, empties, rfl, fun c' hc' => hz.full_length c' (by simp [hc']),
          hz.empty_nil, hz.top_eq, hz.num_eq, fun hnil => ?_⟩
        simpa using hz.full_nil hnil

/-- What `future_pointer_page_initialize` answers. -/
theorem futurePointerPageInitialize_detached (m : PageMemory Page Storage) (capacity : ℕ)
    (fresh : Page) : (futurePointerPageInitialize m fresh).Detached capacity (fresh, []) := by
  refine ⟨⟨Nat.zero_le _, fun j _ => ?_⟩, ?_, ?_⟩ <;> simp [futurePointerPageInitialize]

/-- `future_pointer_cache_obtain_empty` takes an empty page out, or allocates one. -/
theorem futurePointerCacheObtainEmpty_spec (h : cache.Represents m capacity cells) (fresh : Page) :
    (∃ empty cells' cache' m',
      futurePointerCacheObtainEmpty m cache fresh = (empty, cache', m') ∧
      cache'.Represents m' capacity cells' ∧ (pagesOf cells).Perm (empty :: pagesOf cells') ∧
      futuresOf cells' = futuresOf cells ∧ m'.Detached capacity (empty, []) ∧
      m.Writes m' (pagesOf cells)) ∨
    (futurePointerCacheObtainEmpty m cache fresh
        = (fresh, cache, futurePointerPageInitialize m fresh) ∧
      (cells = [] ∨ futuresOf cells ≠ [])) := by
  obtain ⟨rfl, htop, -⟩ | ⟨full, t, empties, rfl, hz⟩ := h.zoned
  · refine .inr ⟨?_, .inl rfl⟩
    rw [futurePointerCacheObtainEmpty, htop]
  have hlinked : m.links.Lists (pagesOf full ++ t.1 :: pagesOf empties) := by
    simpa using h.linked
  have hnext : (m.pages t.1).next = (pagesOf empties).head? := hlinked.next_eq
  cases empties with
  | cons e empties =>
      -- the page after the top page
      have he : e.2 = [] := hz.empty_nil e (by simp)
      have hlinked' : m.links.Lists ((pagesOf full ++ [t.1]) ++ e.1 :: pagesOf empties) := by
        simpa using hlinked
      obtain ⟨hlists, hrelinks, hnone, hnone'⟩ := futurePointerPageUnlink_spec hlinked'
      refine .inl ⟨e.1, full ++ t :: empties, cache, futurePointerPageUnlink m e.1, ?_,
        ⟨by simpa using hlists, fun c hc => hrelinks.holds (h.holds c ?_), ?_, ?_⟩, ?_, ?_,
        ⟨hrelinks.holds ?_, hnone, hnone'⟩, hrelinks.writes.mono (by simp)⟩
      · simp [futurePointerCacheObtainEmpty, hz.top_eq, hnext]
      · simp only [List.mem_append, List.mem_cons] at hc ⊢
        tauto
      · rw [h.bottom]
        cases full <;> rfl
      · exact .inr ⟨full, t, empties, rfl, hz.full_length,
          fun c hc => hz.empty_nil c (by simp [hc]), hz.top_eq, hz.num_eq, hz.full_nil⟩
      · simpa using @List.perm_middle _ e.1 (pagesOf full ++ [t.1]) (pagesOf empties)
      · simp [he]
      · rw [← he]
        exact h.holds e (by simp)
  | nil =>
      by_cases hnum : 1 ≤ cache.numTopFutures
      · refine .inr ⟨?_, .inr fun hnil => ?_⟩
        · simp [futurePointerCacheObtainEmpty, hz.top_eq, hnext, hnum]
        · have := h.numTopFutures_eq_zero_iff.mpr hnil
          omega
      · -- the last page of the cache
        have ht : t.2 = [] := List.length_eq_zero_iff.mp (by rw [← hz.num_eq]; omega)
        obtain rfl := hz.full_nil ht
        refine .inl ⟨t.1, [], { cache with top := none, bottom := none }, m, ?_,
          ⟨m.links.lists_nil, by simp, rfl, .inl ⟨rfl, rfl, by simp only; omega⟩⟩, by simp,
          by simp [ht], ⟨?_, hnext, ?_⟩, .refl m _⟩
        · simp [futurePointerCacheObtainEmpty, hz.top_eq, hnext, hnum]
        · rw [← ht]
          exact h.holds t (by simp)
        · exact hlinked.previous_eq

/-! ## Putting pages in -/

/-- A page whose own links are written is linked between the top page and the ones above it. -/
theorem linkAbove_linkedBetween (l₁ : List Page) {top : Page} (hne : p ≠ top) (hp : p ∉ l₂)
    (hnext : ∀ q, (m'.pages q).next = if q = p then l₂.head? else (m.pages q).next)
    (hprevious : ∀ q, (m'.pages q).previous = if q = p then some top else (m.pages q).previous)
    (hfutures : ∀ q, (m'.pages q).futures = (m.pages q).futures)
    (hallocated : m'.allocated = m.allocated) :
    LinkedBetween m ((m'.setNext top (some p)).setPreviousIfAny
      ((m'.setNext top (some p)).pages p).next (some p)) (l₁ ++ [top]) p l₂ := by
  have hhead : l₂.head? ≠ some p := fun hmem => hp (List.mem_of_mem_head? hmem)
  have habove : ((m'.setNext top (some p)).pages p).next = l₂.head? := by
    rw [PageMemory.next_setNext, if_neg hne, hnext, if_pos rfl]
  rw [habove]
  refine ⟨fun q => ?_, fun q => ?_, fun q => ?_, ?_⟩
  · simp only [PageMemory.next_setPreviousIfAny, PageMemory.next_setNext, hnext,
      List.getLast?_append, List.getLast?_singleton, Option.some_or, Option.some.injEq]
    by_cases hq : q = top
    · subst hq
      simp [hne.symm]
    · simp [hq, Ne.symm hq]
  · simp only [PageMemory.previous_setPreviousIfAny, PageMemory.previous_setNext, hprevious,
      List.getLast?_append, List.getLast?_singleton, Option.some_or]
    by_cases hqp : q = p
    · simp [hqp, hhead]
    · simp [hqp]
  · simp [hfutures]
  · simpa [PageMemory.setNext, PageMemory.write] using hallocated

/-- Writing an empty page after the top page. -/
theorem insertEmpty_linkedBetween (l₁ : List Page) {top : Page} (hnext : (m.pages top).next = l₂.head?)
    (hne : p ≠ top) (hp : p ∉ l₂) (htop : cache.top = some top) :
    LinkedBetween m (futurePointerCacheInsertEmpty m cache p).2 (l₁ ++ [top]) p l₂ := by
  rw [futurePointerCacheInsertEmpty, htop]
  refine linkAbove_linkedBetween l₁ hne hp (fun q => ?_) (fun q => ?_) (fun q => ?_) ?_
  · simp [PageMemory.next_setNext, hnext]
  · simp [PageMemory.previous_setPrevious]
  · simp
  · simp [PageMemory.setNext, PageMemory.setPrevious, PageMemory.write]

/-- `future_pointer_cache_insert_empty` adds an empty page. -/
theorem futurePointerCacheInsertEmpty_spec (h : cache.Represents m capacity cells)
    (he : m.Detached capacity (p, [])) (hp : p ∉ pagesOf cells) :
    ∃ cells' cache' m', futurePointerCacheInsertEmpty m cache p = (cache', m') ∧
      cache'.Represents m' capacity cells' ∧ (pagesOf cells').Perm (p :: pagesOf cells) ∧
      futuresOf cells' = futuresOf cells ∧ (p, []) ∈ cells' ∧ m.Writes m' (p :: pagesOf cells) := by
  obtain ⟨rfl, htop, hnum⟩ | ⟨full, t, empties, rfl, hz⟩ := h.zoned
  · refine ⟨[(p, [])], { cache with top := some p, bottom := some p }, m, ?_,
      ⟨Links.lists_singleton he.next he.previous, by simpa using he.holds, rfl, ?_⟩, by simp, rfl,
      by simp, .refl m _⟩
    · rw [futurePointerCacheInsertEmpty, htop]
    · exact .inr ⟨[], (p, []), [], rfl, by simp, by simp, rfl, hnum, fun _ => rfl⟩
  have hlinked : m.links.Lists ((pagesOf full ++ [t.1]) ++ pagesOf empties) := by
    simpa using h.linked
  have hnext : (m.pages t.1).next = (pagesOf empties).head? :=
    (h.linked.links (pagesOf full) t.1 (pagesOf empties) (by simp)).2
  simp only [pagesOf_append, pagesOf_cons, List.mem_append, List.mem_cons, not_or] at hp
  obtain ⟨hfull, hne, hempties⟩ := hp
  obtain ⟨hlists, hrelinks⟩ :=
    (insertEmpty_linkedBetween (pagesOf full) hnext hne hempties hz.top_eq).spec hlinked
      (by simp [hfull, hne, hempties])
  have hrun : (futurePointerCacheInsertEmpty m cache p).1 = cache := by
    rw [futurePointerCacheInsertEmpty, hz.top_eq]
  refine ⟨full ++ t :: (p, []) :: empties, cache, _, Prod.ext hrun rfl,
    ⟨by simpa using hlists, fun c hc => ?_, ?_, ?_⟩, ?_, by simp, by simp,
    hrelinks.writes.mono fun q hq => ?_⟩
  · simp only [List.mem_append, List.mem_cons] at hc
    obtain hc | rfl | rfl | hc := hc
    · exact hrelinks.holds (h.holds c (by simp [hc]))
    · exact hrelinks.holds (h.holds c (by simp))
    · exact hrelinks.holds he.holds
    · exact hrelinks.holds (h.holds c (by simp [hc]))
  · rw [h.bottom]
    cases full <;> rfl
  · refine .inr ⟨full, t, (p, []) :: empties, rfl, hz.full_length, fun c hc => ?_, hz.top_eq, hz.num_eq,
      hz.full_nil⟩
    rcases List.mem_cons.mp hc with rfl | hc
    · rfl
    · exact hz.empty_nil c hc
  · simpa using @List.perm_middle _ p (pagesOf full ++ [t.1]) (pagesOf empties)
  · simp only [List.mem_append, List.mem_cons, pagesOf_append, pagesOf_cons] at hq ⊢
    tauto

/-- The last `moved` futures of a page go to the end of another page. -/
theorem moveFutures_spec {top : Page} {x y : List (FuturePtr Storage)} {moved : ℕ} (hne : p ≠ top)
    (hx : m.Holds capacity (top, x)) (hy : m.Holds capacity (p, y)) (hmoved : moved ≤ y.length)
    (hroom : x.length + moved ≤ capacity) :
    (moveFutures m p top y.length x.length moved).Holds capacity (top, x ++ y.drop (y.length - moved)) ∧
      (moveFutures m p top y.length x.length moved).Holds capacity (p, y.take (y.length - moved)) ∧
      (moveFutures m p top y.length x.length moved).links = m.links ∧
      m.Writes (moveFutures m p top y.length x.length moved) [top, p] := by
  have hdrop : (y.drop (y.length - moved)).length = moved := by
    rw [List.length_drop]
    omega
  refine ⟨⟨?_, fun j hj => ?_⟩, ⟨?_, fun j hj => ?_⟩, ?_, ?_⟩
  · simpa [hdrop] using hroom
  · simp only [moveFutures, PageMemory.pages_write, if_neg hne.symm, if_true]
    by_cases hin : x.length ≤ j ∧ j < x.length + moved
    · rw [if_pos hin, hy.futures _ (by have := hy.length_le; simp only at this; omega),
        List.getElem?_append_right hin.1, List.getElem?_drop]
    · rw [if_neg hin, hx.futures j hj]
      rcases Nat.lt_or_ge j x.length with hlt | hge
      · exact (List.getElem?_append_left hlt).symm
      · rw [List.getElem?_eq_none hge, List.getElem?_eq_none]
        rw [List.length_append, hdrop]
        omega
  · exact (List.length_take_le _ _).trans ((Nat.sub_le _ _).trans hy.length_le)
  · simp only [moveFutures, PageMemory.pages_write, if_true, if_neg hne]
    by_cases hin : y.length - moved ≤ j ∧ j < y.length - moved + moved
    · rw [if_pos hin, List.getElem?_eq_none]
      exact (List.length_take_le _ _).trans hin.1
    · rw [if_neg hin, hy.futures j hj]
      rcases Nat.lt_or_ge j (y.length - moved) with hlt | hge
      · exact (List.getElem?_take_of_lt hlt).symm
      · rw [List.getElem?_eq_none (show y.length ≤ j by omega), List.getElem?_eq_none]
        exact (List.length_take_le _ _).trans hge
  · rw [moveFutures, PageMemory.links_write_of_eq, PageMemory.links_write_of_eq] <;> rfl
  · exact (m.writes_write top _).trans (PageMemory.writes_write _ p _)

/-- Writing a page with futures after the top page. -/
theorem insertRemainder_linkedBetween (l₁ : List Page) {top : Page} (hnext : (m.pages top).next = l₂.head?)
    (hne : p ≠ top) (hp : p ∉ l₂) :
    let m₁ := ((m.setNext p (m.pages top).next).setPrevious p (some top)).setNext top (some p)
    LinkedBetween m (m₁.setPreviousIfAny (m₁.pages p).next (some p)) (l₁ ++ [top]) p l₂ := by
  refine linkAbove_linkedBetween l₁ hne hp (fun q => ?_) (fun q => ?_) (fun q => ?_) ?_
  · simp [PageMemory.next_setNext, hnext]
  · simp [PageMemory.previous_setPrevious]
  · simp
  · simp [PageMemory.setNext, PageMemory.setPrevious, PageMemory.write]

/-- Writing a page before the bottom page. -/
theorem insertBottom_linkedBetween (hprevious : (m.pages p).previous = none) (hp : p ∉ l₂) :
    LinkedBetween m ((m.setNext p l₂.head?).setPreviousIfAny l₂.head? (some p)) [] p l₂ := by
  have hhead : l₂.head? ≠ some p := fun hmem => hp (List.mem_of_mem_head? hmem)
  refine ⟨fun q => ?_, fun q => ?_, fun q => ?_, ?_⟩
  · simp [PageMemory.next_setNext]
  · simp only [PageMemory.previous_setPreviousIfAny, PageMemory.previous_setNext, List.getLast?_nil]
    by_cases hqp : q = p
    · simp [hqp, hhead, hprevious]
    · simp [hqp]
  · simp
  · simp [PageMemory.setNext, PageMemory.write]

/-- A page with futures goes to the bottom of a cache without futures, or if it is full. -/
theorem insertBottom_spec {y : List (FuturePtr Storage)} (h : cache.Represents m capacity cells)
    (hd : m.Detached capacity (p, y)) (hp : p ∉ pagesOf cells)
    (hsafe : cache.numTopFutures = 0 ∨ y.length = capacity) :
    (if cache.numTopFutures = 0 then
        { cache with top := some p, numTopFutures := y.length, bottom := some p }
      else { cache with bottom := some p }).Represents
        ((m.setNext p cache.bottom).setPreviousIfAny cache.bottom (some p)) capacity ((p, y) :: cells) ∧
      m.Writes ((m.setNext p cache.bottom).setPreviousIfAny cache.bottom (some p)) (p :: pagesOf cells) := by
  rw [h.bottom]
  obtain ⟨hlists, hrelinks⟩ := (insertBottom_linkedBetween hd.previous hp).spec h.linked hp
  have hholds : ∀ c ∈ (p, y) :: cells, ((m.setNext p (pagesOf cells).head?).setPreviousIfAny
      (pagesOf cells).head? (some p)).Holds capacity c := by
    intro c hc
    rcases List.mem_cons.mp hc with rfl | hc
    · exact hrelinks.holds hd.holds
    · exact hrelinks.holds (h.holds c hc)
  refine ⟨?_, hrelinks.writes⟩
  by_cases hzero : cache.numTopFutures = 0
  · -- all pages of the cache are empty
    rw [if_pos hzero]
    refine ⟨hlists, hholds, rfl, .inr ⟨[], (p, y), cells, rfl, by simp, fun c hc => ?_, rfl, rfl,
      fun _ => rfl⟩⟩
    have hnil := h.numTopFutures_eq_zero_iff.mp hzero
    rw [futuresOf, List.flatMap_eq_nil_iff] at hnil
    exact hnil c hc
  · obtain ⟨-, -, hnum⟩ | ⟨full, t, empties, rfl, hz⟩ := h.zoned
    · exact absurd hnum hzero
    rw [if_neg hzero]
    refine ⟨hlists, hholds, rfl, .inr ⟨(p, y) :: full, t, empties, rfl, fun c hc => ?_, hz.empty_nil,
      hz.top_eq, hz.num_eq, fun hnil => ?_⟩⟩
    · rcases List.mem_cons.mp hc with rfl | hc
      · exact hsafe.resolve_left hzero
      · exact hz.full_length c hc
    · exact absurd (by simp [hz.num_eq, hnil]) hzero

/-- Futures of page `p` have moved to the top page of a cache, which has `x` now; `p` is left with `y`. -/
structure FuturesMoved (capacity : ℕ) (m m' : PageMemory Page Storage)
    (full empties : List (Cell Page Storage)) (top p : Page) (x y : List (FuturePtr Storage)) : Prop where
  top : m'.Holds capacity (top, x)
  input : m'.Holds capacity (p, y)
  links : m'.links = m.links
  cells : ∀ c, c ∈ full ∨ c ∈ empties → m'.pages c.1 = m.pages c.1

variable {top : Page} {x x' y y' : List (FuturePtr Storage)}

/-- All futures have moved: the page is inserted as an empty one. -/
theorem FuturesMoved.insertEmpty (hmoved : FuturesMoved capacity m m' full empties top p x' [])
    (h : cache.Represents m capacity (full ++ (top, x) :: empties))
    (hz : cache.Zones capacity full (top, x) empties) (hd : m.Detached capacity (p, y))
    (hp : p ∉ pagesOf (full ++ (top, x) :: empties)) (hne : x' ≠ []) :
    ∃ cells' cache' m₂, futurePointerCacheInsertEmpty m'
        { cache with top := some top, numTopFutures := x'.length } p = (cache', m₂) ∧
      cache'.Represents m₂ capacity cells' ∧
      (pagesOf cells').Perm (p :: pagesOf (full ++ (top, x) :: empties)) ∧
      futuresOf cells' = futuresOf full ++ (x' ++ futuresOf empties) ∧
      m'.Writes m₂ (p :: pagesOf (full ++ (top, x) :: empties)) := by
  have hrep : PointerCache.Represents m' capacity
      { cache with top := some top, numTopFutures := x'.length } (full ++ (top, x') :: empties) := by
    refine h.replace hmoved.links (fun c hc => by rw [hmoved.cells c hc]) hmoved.top rfl ?_
    exact .inr ⟨full, (top, x'), empties, rfl, hz.full_length, hz.empty_nil, rfl, rfl,
      fun hnil => absurd hnil hne⟩
  have hd' : m'.Detached capacity (p, []) :=
    ⟨hmoved.input, (congrFun (congrArg Links.next hmoved.links) p).trans hd.next,
      (congrFun (congrArg Links.previous hmoved.links) p).trans hd.previous⟩
  obtain ⟨cells', cache', m₂, hrun, hrep', hpages, hfutures, -, hwrites⟩ :=
    futurePointerCacheInsertEmpty_spec hrep hd' (by simpa using hp)
  exact ⟨cells', cache', m₂, hrun, hrep', by simpa using hpages, by simpa using hfutures,
    by simpa using hwrites⟩

/-- The top page has become full: the rest of the page is the top page after it. -/
theorem FuturesMoved.insertRemainder (hmoved : FuturesMoved capacity m m' full empties top p x' y')
    (h : cache.Represents m capacity (full ++ (top, x) :: empties))
    (hz : cache.Zones capacity full (top, x) empties)
    (hp : p ∉ pagesOf (full ++ (top, x) :: empties)) (hfull : x'.length = capacity) (hne : y' ≠ []) :
    let m₁ := ((m'.setNext p (m'.pages top).next).setPrevious p (some top)).setNext top (some p)
    let m₂ := m₁.setPreviousIfAny (m₁.pages p).next (some p)
    PointerCache.Represents m₂ capacity { cache with top := some p, numTopFutures := y'.length }
        ((full ++ [(top, x')]) ++ (p, y') :: empties) ∧
      m'.Writes m₂ (p :: pagesOf (full ++ (top, x) :: empties)) := by
  simp only [pagesOf_append, pagesOf_cons, List.mem_append, List.mem_cons, not_or] at hp
  obtain ⟨hpfull, hptop, hpempties⟩ := hp
  have hnext : (m'.pages top).next = (pagesOf empties).head? :=
    (congrFun (congrArg Links.next hmoved.links) top).trans
      (h.linked.links (pagesOf full) top (pagesOf empties) (by simp)).2
  have hlinked : m'.links.Lists ((pagesOf full ++ [top]) ++ pagesOf empties) := by
    rw [hmoved.links]
    simpa using h.linked
  obtain ⟨hlists, hrelinks⟩ := (insertRemainder_linkedBetween (pagesOf full) hnext hptop
    hpempties).spec hlinked (by simp [hpfull, hptop, hpempties])
  refine ⟨⟨by simpa using hlists, fun c hc => hrelinks.holds ?_, ?_, ?_⟩,
    hrelinks.writes.mono fun q hq => ?_⟩
  · simp only [List.mem_append, List.mem_cons, List.not_mem_nil, or_false] at hc
    obtain (hc | rfl) | rfl | hc := hc
    · exact (h.holds c (by simp [hc])).congr (by rw [hmoved.cells c (.inl hc)])
    · exact hmoved.top
    · exact hmoved.input
    · exact (h.holds c (by simp [hc])).congr (by rw [hmoved.cells c (.inr hc)])
  · show cache.bottom = _
    rw [h.bottom]
    cases full <;> rfl
  · refine .inr ⟨_, (p, y'), empties, rfl, fun c hc => ?_, hz.empty_nil, rfl, rfl,
      fun hnil => absurd hnil hne⟩
    rw [List.mem_append, List.mem_singleton] at hc
    obtain hc | rfl := hc
    · exact hz.full_length c hc
    · exact hfull
  · simp only [List.mem_append, List.mem_cons, pagesOf_append, pagesOf_cons,
      List.not_mem_nil, or_false] at hq ⊢
    tauto

/-- `future_pointer_cache_insert_futures` adds the futures of a page, and the page. -/
theorem futurePointerCacheInsertFutures_spec {y : List (FuturePtr Storage)}
    (h : cache.Represents m capacity cells) (hcapacity : 0 < capacity)
    (hd : m.Detached capacity (p, y)) (hy : y ≠ []) (hp : p ∉ pagesOf cells) :
    ∃ cells' cache' m', futurePointerCacheInsertFutures capacity m cache p = some (cache', m') ∧
      cache'.Represents m' capacity cells' ∧ (pagesOf cells').Perm (p :: pagesOf cells) ∧
      (futuresOf cells').Perm (y ++ futuresOf cells) ∧ m.Writes m' (p :: pagesOf cells) := by
  have hcount : futurePointerPageOccupancy capacity (m.pages p) = y.length :=
    futurePointerPageOccupancy_eq hd.holds hcapacity
  have hylen : y.length ≤ capacity := hd.holds.length_le
  have hynum : y.length ≠ 0 := fun h0 => hy (List.length_eq_zero_iff.mp h0)
  rw [futurePointerCacheInsertFutures, hcount]
  by_cases hsafe : cache.numTopFutures = 0 ∨ y.length = capacity
  · obtain ⟨hrep, hwrites⟩ := insertBottom_spec h hd hp hsafe
    refine ⟨(p, y) :: cells, _, _, if_pos hsafe, ?_, by simp, by simp, hwrites⟩
    by_cases hzero : cache.numTopFutures = 0
    · simpa only [if_pos hzero] using hrep
    · simpa only [if_neg hzero] using hrep
  obtain ⟨hzero, hpartial⟩ := not_or.mp hsafe
  obtain ⟨-, -, hnum⟩ | ⟨full, ⟨top, x⟩, empties, rfl, hz⟩ := h.zoned
  · exact absurd hnum hzero
  have hnum : cache.numTopFutures = x.length := hz.num_eq
  have hxholds := h.holds (top, x) (by simp)
  have hxlen : x.length ≤ capacity := hxholds.length_le
  have hnotin := hp
  simp only [pagesOf_append, pagesOf_cons, List.mem_append, List.mem_cons, not_or] at hnotin
  obtain ⟨hpfull, hne, hpempties⟩ := hnotin
  rw [if_neg hsafe]
  simp only [hz.top_eq, hnum, Option.bind_eq_bind, Option.bind_some]
  set moved := if y.length ≤ capacity - x.length then y.length else capacity - x.length with hmoved
  have hmovedle : moved ≤ y.length := by split at hmoved <;> omega
  have hmovedroom : x.length + moved ≤ capacity := by split at hmoved <;> omega
  obtain ⟨htop, hinput, hlinks, hwrites⟩ :=
    moveFutures_spec hne hxholds hd.holds hmovedle hmovedroom
  set m₁ := moveFutures m p top y.length x.length moved with hm₁
  have hcell : ∀ c, c ∈ full ∨ c ∈ empties → m₁.pages c.1 = m.pages c.1 := by
    intro c hc
    have hcp : c.1 ≠ p := by
      rintro rfl
      exact hc.elim (fun hc => hpfull (mem_pagesOf_of_mem hc))
        fun hc => hpempties (mem_pagesOf_of_mem hc)
    exact hwrites.pages c.1 (by simp [h.page_ne hc, hcp])
  have hwrites' : m.Writes m₁ (p :: pagesOf (full ++ (top, x) :: empties)) :=
    hwrites.mono (by simp)
  by_cases hremaining : y.length - moved = 0
  · -- the page is empty now
    rw [if_pos hremaining]
    rw [hremaining, List.drop_zero] at htop
    rw [hremaining, List.take_zero] at hinput
    obtain ⟨cells', cache', m', hrun, hrep', hpages, hfutures, hwrites₂⟩ :=
      FuturesMoved.insertEmpty ⟨htop, hinput, hlinks, hcell⟩ h hz hd hp (by simp [hy])
    have hall : x.length + moved = (x ++ y).length := by
      rw [List.length_append]
      omega
    rw [← hall] at hrun
    refine ⟨cells', cache', m', congrArg some hrun, hrep', hpages, ?_,
      (hwrites'.trans hwrites₂).mono fun q hq => (List.mem_append.mp hq).elim id id⟩
    rw [hfutures]
    have hcomm := @List.perm_append_comm _ (futuresOf full ++ x) y
    simpa using hcomm.append_right (futuresOf empties)
  · -- the top page is full now, and the rest of the page is above it
    rw [if_neg hremaining]
    have htopfull : (x ++ y.drop (y.length - moved)).length = capacity := by
      rw [List.length_append, List.length_drop]
      split at hmoved <;> omega
    have hleft : (y.take (y.length - moved)).length = y.length - moved := by
      rw [List.length_take]
      omega
    obtain ⟨hrep, hwrites₂⟩ := FuturesMoved.insertRemainder ⟨htop, hinput, hlinks, hcell⟩ h hz hp
      htopfull fun hnil => hremaining (by rw [← hleft, hnil, List.length_nil])
    rw [hleft] at hrep
    refine ⟨_, _, _, rfl, hrep, ?_, ?_,
      (hwrites'.trans hwrites₂).mono fun q hq => (List.mem_append.mp hq).elim id id⟩
    · simpa using @List.perm_middle _ p (pagesOf full ++ [top]) (pagesOf empties)
    · -- the futures of the page are there, in two parts
      have hsplit : (y.drop (y.length - moved) ++ y.take (y.length - moved)).Perm y := by
        refine List.perm_append_comm.trans ?_
        rw [List.take_append_drop]
      have hcomm := (hsplit.append_left (futuresOf full ++ x)).trans
        (@List.perm_append_comm _ (futuresOf full ++ x) y)
      simpa using hcomm.append_right (futuresOf empties)

end Udipe

import Udipe.Allocator.Steps

/-!
# Conservation of pages and futures

In every reachable state the caches are well formed, every allocated page is at one place, and every future
of every storage page is at one place.
-/

namespace Udipe

open Function

variable {T Page Storage : Type} {pageSize capacity length : ℕ} {s s' : AllocatorState T Page Storage}
  {t : T} {w : Place T → List (Cell Page Storage)}

/-! ## Well-formed caches -/

/-- The two links of the pages of a cache are inverse to each other, stay in the cache and make no cycle. -/
structure PageMemory.Linked (m : PageMemory Page Storage) (ps : List Page) : Prop where
  next : ∀ p ∈ ps, ∀ q, (m.pages p).next = some q → q ∈ ps ∧ (m.pages q).previous = some p
  previous : ∀ q ∈ ps, ∀ p, (m.pages q).previous = some p → p ∈ ps ∧ (m.pages p).next = some q
  acyclic : ∀ p ∈ ps, ¬ Relation.TransGen (fun p q => (m.pages p).next = some q) p p

theorem PointerCache.Represents.linked_pages {m : PageMemory Page Storage} {cache : PointerCache Page}
    {cells : List (Cell Page Storage)} (h : cache.Represents m capacity cells) :
    m.Linked (pagesOf cells) where
  next p hp q hq := by
    obtain ⟨l₁, l₂, hl⟩ := h.linked.split_of_next hp hq
    have hmem : q ∈ pagesOf cells := by simp [hl]
    exact ⟨hmem, (h.linked.next_eq_some_iff hp hmem).mp hq⟩
  previous q hq p hp := by
    obtain ⟨l₁, l₂, hl⟩ := h.linked.split_of_previous hq hp
    have hmem : p ∈ pagesOf cells := by simp [hl]
    exact ⟨hmem, (h.linked.next_eq_some_iff hmem hq).mpr hp⟩
  acyclic p hp := h.linked.acyclic hp

/-! ## Where a future is -/

/-- Where a future can be: with the application, with a thread that liberates it, or in a slot of a page. -/
inductive Location (T Page : Type)
  | live
  | held (t : T)
  | slot (p : Page) (i : ℕ)

/-- The future is there. -/
def AllocatorState.At (capacity : ℕ) (s : AllocatorState T Page Storage) (f : FuturePtr Storage) :
    Location T Page → Prop
  | .live => f ∈ s.live
  | .held t => f ∈ (s.pc t).held
  | .slot p i => s.memory.allocated p = true ∧ i < capacity ∧ (s.memory.pages p).futures i = some f

namespace AllocatorState.Law

variable {f : FuturePtr Storage}

/-- Every page at a place holds the futures of its cell. -/
theorem pageHolds (h : s.Law capacity length w) {place : Place T} {c : Cell Page Storage}
    (hc : c ∈ w place) : s.memory.Holds capacity c := by
  have hholds := h.holds place
  cases place with
  | context => exact PointerCache.Represents.holds hholds c hc
  | thread t => exact PointerCache.Represents.holds hholds c hc
  | hand t => exact (hholds c hc).holds
  | client => exact absurd hc (by rw [show w .client = [] from hholds]; simp)

/-- A slot is in the cell of its page. -/
theorem slot_iff (h : s.Law capacity length w) {p : Page} {i : ℕ} :
    s.At capacity f (.slot p i) ↔ ∃ place, ∃ c ∈ w place, c.1 = p ∧ c.2[i]? = some f := by
  constructor
  · rintro ⟨hallocated, hi, hf⟩
    obtain ⟨place, hp⟩ := (h.pages.all_iff p).mp hallocated
    obtain ⟨c, hc, rfl⟩ := List.mem_map.mp (Multiset.mem_coe.mp hp)
    exact ⟨place, c, hc, rfl, (h.pageHolds hc).futures i hi ▸ hf⟩
  · rintro ⟨place, c, hc, rfl, hf⟩
    have hholds := h.pageHolds hc
    have hi : i < capacity := by
      obtain ⟨hlt, -⟩ := List.getElem?_eq_some_iff.mp hf
      exact hlt.trans_le hholds.length_le
    exact ⟨h.allocated (mem_pagesOf_of_mem hc), hi, (hholds.futures i hi).trans hf⟩

end AllocatorState.Law

/-- A future is in one slot of one cell. -/
theorem slot_unique {cells : List (Cell Page Storage)} {c c' : Cell Page Storage} {f : FuturePtr Storage}
    {i j : ℕ} (hnodup : (futuresOf cells).Nodup) (hc : c ∈ cells) (hc' : c' ∈ cells)
    (hi : c.2[i]? = some f) (hj : c'.2[j]? = some f) : c = c' ∧ i = j := by
  obtain ⟨hnodups, hdisjoint⟩ := List.nodup_flatMap.mp hnodup
  have hsymm : Std.Symm (List.Disjoint on (Prod.snd : Cell Page Storage → List (FuturePtr Storage))) :=
    ⟨fun _ _ h => h.symm⟩
  have heq : c = c' := by
    by_contra hne
    exact hdisjoint.forall hc hc' hne (List.mem_of_getElem? hi) (List.mem_of_getElem? hj)
  subst heq
  obtain ⟨hlt, -⟩ := List.getElem?_eq_some_iff.mp hi
  exact ⟨rfl, (List.getElem?_inj hlt (hnodups c hc)).mp (hi.trans hj.symm)⟩

/-- Where the futures of a place are that are in no page. -/
def Place.location : Place T → Location T Page
  | .hand t => .held t
  | .context | .thread _ | .client => .live

namespace AllocatorState.Law

variable {f : FuturePtr Storage} {x : Location T Page}

theorem at_iff (h : s.Law capacity length w) : s.At capacity f x ↔
    ∃ place, (f ∈ s.loose place ∧ x = place.location) ∨
      ∃ c ∈ w place, ∃ i, c.2[i]? = some f ∧ x = .slot c.1 i := by
  constructor
  · intro hat
    cases x with
    | live => exact ⟨.client, .inl ⟨hat, rfl⟩⟩
    | held t => exact ⟨.hand t, .inl ⟨hat, rfl⟩⟩
    | slot p i =>
        obtain ⟨place, c, hc, rfl, hf⟩ := h.slot_iff.mp hat
        exact ⟨place, .inr ⟨c, hc, i, hf, rfl⟩⟩
  · rintro ⟨place, ⟨hf, rfl⟩ | ⟨c, hc, i, hf, rfl⟩⟩
    · cases place with
      | context | thread => simp [loose] at hf
      | hand | client => exact hf
    · exact h.slot_iff.mpr ⟨place, c, hc, rfl, hf⟩

/-- The futures that are somewhere are those of the storage pages. -/
theorem exists_of_at (h : s.Law capacity length w) (hat : s.At capacity f x) : s.Exists length f := by
  obtain ⟨place, ⟨hf, -⟩ | ⟨c, hc, i, hf, -⟩⟩ := h.at_iff.mp hat
  · exact (h.futures.all_iff f).mpr ⟨place, Multiset.mem_add.mpr (.inr hf)⟩
  · refine (h.futures.all_iff f).mpr ⟨place, Multiset.mem_add.mpr (.inl ?_)⟩
    exact List.mem_flatMap.mpr ⟨c, hc, List.mem_of_getElem? hf⟩

variable [DecidableEq T]

/-- Every future of a storage page is at one location. -/
theorem existsUnique_at (h : s.Law capacity length w) (hf : s.Exists length f) :
    ∃! x : Location T Page, s.At capacity f x := by
  obtain ⟨place, hplace, hunique⟩ := h.futures.existsUnique hf
  obtain ⟨x, hx⟩ : ∃ x : Location T Page, s.At capacity f x := by
    rcases Multiset.mem_add.mp hplace with hcell | hloose
    · obtain ⟨c, hc, hmem⟩ := List.mem_flatMap.mp (Multiset.mem_coe.mp hcell)
      obtain ⟨i, hi⟩ := List.mem_iff_getElem?.mp hmem
      exact ⟨.slot c.1 i, h.at_iff.mpr ⟨place, .inr ⟨c, hc, i, hi, rfl⟩⟩⟩
    · exact ⟨place.location, h.at_iff.mpr ⟨place, .inl ⟨hloose, rfl⟩⟩⟩
  -- each location is at the only place of the future
  have hat : ∀ y : Location T Page, s.At capacity f y → (f ∈ s.loose place ∧ y = place.location) ∨
      ∃ c ∈ w place, ∃ i, c.2[i]? = some f ∧ y = .slot c.1 i := by
    intro y hy
    obtain ⟨place', hcase⟩ := h.at_iff.mp hy
    obtain rfl : place' = place := by
      refine hunique place' (Multiset.mem_add.mpr ?_)
      rcases hcase with ⟨hloose, -⟩ | ⟨c, hc, i, hi, -⟩
      · exact .inr hloose
      · exact .inl (List.mem_flatMap.mpr ⟨c, hc, List.mem_of_getElem? hi⟩)
    exact hcase
  obtain ⟨hcells, -, hdisjoint⟩ := Multiset.nodup_add.mp (h.futures.nodup_owned place)
  have hapart : f ∈ s.loose place → ∀ c ∈ w place, ∀ i, c.2[i]? ≠ some f := fun hloose c hc i hi =>
    Multiset.disjoint_left.mp hdisjoint (List.mem_flatMap.mpr ⟨c, hc, List.mem_of_getElem? hi⟩) hloose
  refine ⟨x, hx, fun y hy => ?_⟩
  rcases hat x hx with ⟨hloose, rfl⟩ | ⟨c, hc, i, hi, rfl⟩ <;>
    rcases hat y hy with ⟨hloose', rfl⟩ | ⟨c', hc', j, hj, rfl⟩
  · rfl
  · exact absurd hj (hapart hloose c' hc' j)
  · exact absurd hi (hapart hloose' c hc i)
  · obtain ⟨rfl, rfl⟩ := slot_unique hcells hc hc' hi hj
    rfl

/-- A page is at one place. -/
theorem existsUnique_place (h : s.Law capacity length w) {p : Page} (hp : s.memory.allocated p = true) :
    ∃! place, p ∈ pagesOf (w place) :=
  h.pages.existsUnique hp

end AllocatorState.Law

/-! ## Over every run -/

/-- The caches are well formed, and no page or future is lost or shared: the caches, the local variables of
the threads and the application hold the cells of `w`. -/
structure AllocatorState.Conserved (capacity length : ℕ) (s : AllocatorState T Page Storage)
    (w : Place T → List (Cell Page Storage)) : Prop where
  context : s.contextCache.Represents s.memory capacity (w .context)
  contextLinked : s.memory.Linked (pagesOf (w .context))
  thread : ∀ t, (s.threadCaches t).Represents s.memory capacity (w (.thread t))
  threadLinked : ∀ t, s.memory.Linked (pagesOf (w (.thread t)))
  /-- The pages in the local variables of a thread are in no list. -/
  hand : ∀ t, (s.pc t).Carries (w (.hand t)) ∧ ∀ c ∈ w (.hand t), s.memory.Detached capacity c
  client : w .client = []
  page : ∀ p, s.memory.allocated p = true → ∃! place, p ∈ pagesOf (w place)
  page_nodup : ∀ place, (pagesOf (w place)).Nodup
  page_allocated : ∀ place, ∀ p ∈ pagesOf (w place), s.memory.allocated p = true
  future : ∀ f, s.Exists length f → ∃! x : Location T Page, s.At capacity f x
  future_exists : ∀ f (x : Location T Page), s.At capacity f x → s.Exists length f
  live_nodup : s.live.Nodup
  mutex : ∀ t, s.mutex = some t ↔ (s.pc t).locks = true

theorem AllocatorState.Law.conserved [DecidableEq T] (h : s.Law capacity length w) :
    s.Conserved capacity length w where
  context := h.holds .context
  contextLinked := PointerCache.Represents.linked_pages (h.holds .context)
  thread t := h.holds (.thread t)
  threadLinked t := PointerCache.Represents.linked_pages (h.holds (.thread t))
  hand t := ⟨(h.fits t).carries, h.holds (.hand t)⟩
  client := h.holds .client
  page _ := h.existsUnique_place
  page_nodup place := Multiset.coe_nodup.mp (h.pages.nodup_owned place)
  page_allocated _ _ := h.allocated
  future _ := h.existsUnique_at
  future_exists _ _ := h.exists_of_at
  live_nodup := (Multiset.nodup_add.mp (h.futures.nodup_owned .client)).2.1
  mutex := h.mutex

/-- The futures of a storage page fit into a page of pointers. -/
theorem futureStoragePageLength_le (pageSize : ℕ) :
    futureStoragePageLength pageSize ≤ futurePointerPageCapacity pageSize := by
  simp only [futureStoragePageLength, futurePointerPageCapacity, futureSize, pointerSize]
  omega

section

variable [DecidableEq T] [DecidableEq Page] [DecidableEq Storage]

/-- A step keeps the account where a storage page has room for a future. -/
theorem AllocatorState.Invariant.step_of_room (h : s.Invariant pageSize)
    (hpage : futureSize ≤ pageSize - futureSize) {e : AllocatorEvent T Page Storage}
    {s' : AllocatorState T Page Storage} (hstep : allocatorStep pageSize s e = some s') :
    s'.Invariant pageSize := by
  have hlength : 0 < futureStoragePageLength pageSize := Nat.div_pos hpage (by decide)
  have hle := futureStoragePageLength_le pageSize
  exact h.step (by omega) hlength hle hstep

/-- The account is kept over every run. A storage page has room for a future. -/
theorem AllocatorState.invariant_of_reachable (hpage : futureSize ≤ pageSize - futureSize)
    {pages : Page → PointerPage Page Storage}
    (hreach : (futureAllocator pageSize).Reachable (AllocatorState.start pages) s) :
    s.Invariant pageSize :=
  Machine.Reachable.invariant (fun _ _ _ h hstep => h.step_of_room hpage hstep)
    (AllocatorState.start_invariant pages) hreach

/-- In every reachable state of the allocator, the caches are well formed and every page and every future
is at one place. -/
theorem pointerCaches_conserved (hpage : futureSize ≤ pageSize - futureSize)
    {pages : Page → PointerPage Page Storage}
    (hreach : (futureAllocator pageSize).Reachable (AllocatorState.start pages) s) :
    s.undefined = false ∧
      ∃ w, s.Conserved (futurePointerPageCapacity pageSize) (futureStoragePageLength pageSize) w := by
  obtain ⟨w, h⟩ := AllocatorState.invariant_of_reachable hpage hreach
  exact ⟨h.defined, w, h.conserved⟩

end

/-- Thread 0 allocates a future from a new storage page and liberates it, and thread 1 leaves. -/
def allocateAndLeave : List (AllocatorEvent (Fin 2) ℕ ℕ) :=
  [.register 0 [10, 11], .register 1 [20, 21], .allocate 0, .advance 0 0 0, .advance 0 0 0,
    .advance 0 0 7, .advance 0 0 0, .advance 0 0 0, .exit 1, .advance 1 0 0, .advance 1 0 0,
    .advance 1 0 0, .liberate 0 ⟨7, 0⟩]

/-- The future is back in the cache of thread 0, and the pages of thread 1 are in the cache of the context. -/
theorem pointerCaches_conserved_allocateAndLeave :
    ∃ s : AllocatorState (Fin 2) ℕ ℕ,
      (futureAllocator 256).run (AllocatorState.start fun _ => ⟨none, none, fun _ => none⟩) allocateAndLeave
        = some s ∧
      s.threadCaches 0 = ⟨some 11, some 11, 1⟩ ∧ s.contextCache = ⟨some 20, some 20, 0⟩ ∧
      s.undefined = false ∧ ∃ w, s.Conserved 30 1 w := by
  have hend : ((futureAllocator 256).run (AllocatorState.start fun _ => ⟨none, none, fun _ => none⟩)
      allocateAndLeave).map (fun s => (s.threadCaches 0, s.contextCache)) =
      some (⟨some 11, some 11, 1⟩, ⟨some 20, some 20, 0⟩) := by
    decide +kernel
  obtain ⟨s, hrun, hs⟩ := Option.map_eq_some_iff.mp hend
  rw [Prod.mk.injEq] at hs
  exact ⟨s, hrun, hs.1, hs.2, pointerCaches_conserved (by decide) ⟨_, hrun⟩⟩

end Udipe

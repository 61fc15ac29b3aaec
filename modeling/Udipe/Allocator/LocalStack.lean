import Udipe.Allocator.Spill
import Udipe.Lib.SegmentedStack

/-!
# A local cache is a stack

Allocating and liberating locally pops from and pushes on the futures of the cache, whatever page they are in,
and extracting a page takes the oldest futures away.
-/

namespace Udipe

variable {Page Storage : Type} {capacity : ℕ} {m m' : PageMemory Page Storage}
  {cache : PointerCache Page} {cells : List (Cell Page Storage)} {c : Cell Page Storage}

/-! ## How many futures there are -/

theorem length_futuresOf_le (h : ∀ c ∈ cells, c.2.length ≤ capacity) :
    (futuresOf cells).length ≤ capacity * cells.length := by
  induction cells with
  | nil => simp
  | cons c cells ih =>
      have hc := h c (by simp)
      have hrest := ih fun d hd => h d (by simp [hd])
      rw [futuresOf_cons, List.length_append, List.length_cons, Nat.mul_succ]
      omega

theorem length_futuresOf_of_full (h : ∀ c ∈ cells, c.2.length = capacity) :
    (futuresOf cells).length = capacity * cells.length := by
  induction cells with
  | nil => simp
  | cons c cells ih =>
      have hc := h c (by simp)
      have hrest := ih fun d hd => h d (by simp [hd])
      rw [futuresOf_cons, List.length_append, List.length_cons, Nat.mul_succ]
      omega

theorem length_futuresOf_lt (h : ∀ c ∈ cells, c.2.length ≤ capacity)
    (hroom : ∃ c ∈ cells, c.2.length < capacity) :
    (futuresOf cells).length < capacity * cells.length := by
  obtain ⟨c, hc, hlt⟩ := hroom
  obtain ⟨before, after, rfl⟩ := List.append_of_mem hc
  have hbefore : (futuresOf before).length ≤ capacity * before.length :=
    length_futuresOf_le fun d hd => h d (by simp [hd])
  have hafter : (futuresOf after).length ≤ capacity * after.length :=
    length_futuresOf_le fun d hd => h d (by simp [hd])
  simp only [futuresOf_append, futuresOf_cons, List.length_append, List.length_cons, Nat.mul_add,
    Nat.mul_succ]
  omega

/-- The bottom page has the oldest futures, as many as a page takes. -/
theorem PointerCache.Represents.take_futuresOf {rest : List (Cell Page Storage)}
    (h : cache.Represents m capacity (c :: rest)) :
    (futuresOf (c :: rest)).take capacity = c.2 ∧
      (futuresOf (c :: rest)).drop capacity = futuresOf rest := by
  have hle : c.2.length ≤ capacity := (h.holds c (by simp)).length_le
  obtain ⟨hnil, -, -⟩ | ⟨full, t, empties, hcells, hz⟩ := h.zoned
  · simp at hnil
  cases full with
  | nil =>
      obtain ⟨rfl, rfl⟩ : c = t ∧ rest = empties := by simpa using hcells
      have hrest : futuresOf rest = [] := futuresOf_eq_nil hz.empty_nil
      rw [futuresOf_cons, hrest, List.append_nil]
      exact ⟨List.take_of_length_le hle, List.drop_of_length_le hle⟩
  | cons d full =>
      obtain ⟨rfl, -⟩ : c = d ∧ rest = full ++ t :: empties := by simpa using hcells
      have hfull : c.2.length = capacity := hz.full_length c (by simp)
      rw [futuresOf_cons]
      exact ⟨List.take_left' hfull, List.drop_left' hfull⟩

/-- The futures in a page. -/
def pageFutures (capacity : ℕ) (page : PointerPage Page Storage) : List (FuturePtr Storage) :=
  (List.range capacity).filterMap page.futures

theorem filterMap_getElem?_range {α : Type} (l : List α) (n : ℕ) :
    (List.range n).filterMap (fun i => l[i]?) = l.take n := by
  induction n with
  | zero => simp
  | succ n ih =>
      rw [List.range_succ, List.filterMap_append, ih, List.take_add_one]
      cases h : l[n]? <;> simp [h]

theorem PageMemory.Holds.pageFutures_eq (h : m.Holds capacity c) :
    pageFutures capacity (m.pages c.1) = c.2 := by
  have hfutures : pageFutures capacity (m.pages c.1)
      = (List.range capacity).filterMap fun i => c.2[i]? :=
    List.filterMap_congr fun i hi => h.futures i (List.mem_range.mp hi)
  rw [hfutures, filterMap_getElem?_range, List.take_of_length_le h.length_le]

/-! ## The stack of a cache -/

/-- The calls on a local cache. A page that is extracted is answered with the futures in it. -/
def localCacheServer [DecidableEq Page] (capacity : ℕ) :
    Server (PointerCache Page × PageMemory Page Storage) (StackCall (FuturePtr Storage))
      (StackAnswer (FuturePtr Storage)) where
  answer s
    | .push future =>
        (futurePointerCacheLiberateLocal capacity s.2 s.1 future).map fun (success, cache, m) =>
          (.pushed success, (cache, m))
    | .pop =>
        (futurePointerCacheAllocateLocal capacity s.2 s.1).map fun (future, cache, m) =>
          (.popped future, (cache, m))
    | .shed =>
        let (extracted, cache, m) := futurePointerCacheExtractFutures s.2 s.1
        some (.shed (extracted.map fun p => pageFutures capacity (m.pages p)), (cache, m))

/-- The stack has the futures of the cache, and a segment for each page. -/
def Stacked (capacity : ℕ) (s : PointerCache Page × PageMemory Page Storage)
    (stack : SegmentedStack (FuturePtr Storage)) : Prop :=
  ∃ cells : List (Cell Page Storage), s.1.Represents s.2 capacity cells ∧
    stack = ⟨futuresOf cells, cells.length⟩

variable [DecidableEq Page]

/-- Every call is answered as the stack answers it. -/
theorem localCacheServer_bisimilar (hcapacity : 0 < capacity) :
    (localCacheServer capacity : Server (PointerCache Page × PageMemory Page Storage) _ _).Bisimilar
      (segmentedStack capacity) (Stacked capacity) := by
  rintro ⟨cache, m⟩ _ call ⟨cells, h, rfl⟩
  cases call with
  | push f =>
      by_cases hcells : cells = []
      · -- there is no page to put the future in
        have htop : cache.top = none := h.top_eq_none_iff.mpr hcells
        simp [localCacheServer, segmentedStack, futurePointerCacheLiberateLocal, htop, hcells]
      have hsegments : cells.length ≠ 0 := fun h0 => hcells (List.length_eq_zero_iff.mp h0)
      have hle : ∀ c ∈ cells, c.2.length ≤ capacity := fun c hc => (h.holds c hc).length_le
      simp only [localCacheServer, segmentedStack, if_neg hsegments]
      rcases futurePointerCacheLiberateLocal_spec h hcapacity hcells f with
        ⟨hfull, hrun⟩ | ⟨cache', m', cells', hrun, hrep, hpages, hfutures, -, hroom⟩
      · rw [hrun, if_neg (length_futuresOf_of_full hfull).not_lt]
        exact .some ⟨rfl, cells, h, rfl⟩
      · have hlength : cells'.length = cells.length := by
          simpa using congrArg List.length hpages
        rw [hrun, if_pos (length_futuresOf_lt hle hroom)]
        exact .some ⟨rfl, cells', hrep, by rw [hfutures, hlength]⟩
  | pop =>
      simp only [localCacheServer, segmentedStack]
      rcases futurePointerCacheAllocateLocal_spec h hcapacity with
        ⟨hnil, hrun⟩ | ⟨f, cache', m', cells', hrun, hrep, hpages, hfutures, -⟩
      · rw [hrun, hnil]
        exact .some ⟨rfl, cells, h, by rw [hnil]; rfl⟩
      · have hlength : cells'.length = cells.length := by
          simpa using congrArg List.length hpages
        rw [hrun, hfutures]
        refine .some ⟨by simp, cells', hrep, ?_⟩
        rw [List.dropLast_concat, hlength]
  | shed =>
      simp only [localCacheServer, segmentedStack]
      rcases futurePointerCacheExtractFutures_spec h hcapacity with
        ⟨hnil, hrun⟩ | ⟨c, rest, cache', m', rfl, hne, hrun, hrep, hdetached, -⟩
      · rw [hrun, if_pos hnil]
        exact .some ⟨rfl, cells, h, rfl⟩
      · have hnil : futuresOf (c :: rest) ≠ [] := fun hnil => hne (List.append_eq_nil_iff.mp hnil).1
        obtain ⟨htake, hdrop⟩ := h.take_futuresOf
        rw [hrun, if_neg hnil, htake, hdrop]
        refine .some ⟨?_, rest, hrep, rfl⟩
        rw [Option.map_some, hdetached.holds.pageFutures_eq]

/-- A represented cache answers every list of calls as the stack of its futures does, and a future that has been
liberated is allocated after any calls in between that liberate and allocate in a balanced way. -/
theorem localCache_refines_stack (hcapacity : 0 < capacity) (h : cache.Represents m capacity cells) :
    (∀ calls, Option.Rel (Server.Agrees (Stacked capacity))
      ((localCacheServer capacity).serve (cache, m) calls)
      ((segmentedStack capacity).serve ⟨futuresOf cells, cells.length⟩ calls)) ∧
    ∀ f calls answers s', StackCall.Balanced calls →
      (localCacheServer capacity).serve (cache, m) (.push f :: (calls ++ [.pop])) = some (answers, s') →
      (∀ a ∈ answers, a.Accepted) → answers.getLast? = some (.popped (some f)) := by
  have hbisimilar : (localCacheServer capacity :
      Server (PointerCache Page × PageMemory Page Storage) _ _).Bisimilar
        (segmentedStack capacity) (Stacked capacity) := localCacheServer_bisimilar hcapacity
  have hstacked : Stacked capacity (cache, m) ⟨futuresOf cells, cells.length⟩ := ⟨cells, h, rfl⟩
  refine ⟨fun calls => hbisimilar.serve hstacked calls, fun f calls answers s' hcalls hserve haccepted => ?_⟩
  obtain ⟨t', hstack, -⟩ := hbisimilar.serve_eq_some hstacked hserve
  exact SegmentedStack.pop_after_balanced hcalls hstack haccepted

/-- A local cache with pages at 0 and 1. -/
def freshLocalCache : PointerCache ℕ × PageMemory ℕ ℕ :=
  futurePointerCacheInitializeLocal ⟨fun _ => ⟨none, none, fun _ => none⟩, fun _ => false⟩ [0, 1]

/-- It starts as an empty stack with room for two pages of 510 futures. -/
theorem localCache_refines_stack_fresh :
    (∀ calls, Option.Rel (Server.Agrees (Stacked 510))
      ((localCacheServer 510).serve freshLocalCache calls)
      ((segmentedStack 510).serve ⟨[], localFuturePointerPages⟩ calls)) ∧
    ∀ f calls answers s', StackCall.Balanced calls →
      (localCacheServer 510).serve freshLocalCache (.push f :: (calls ++ [.pop])) = some (answers, s') →
      (∀ a ∈ answers, a.Accepted) → answers.getLast? = some (.popped (some f)) := by
  have hnodup : [0, 1].Nodup := by decide
  obtain ⟨cells, cache, m, hrun, hrep, hpages, hfutures, -⟩ := futurePointerCacheInitializeLocal_spec
    (⟨fun _ => ⟨none, none, fun _ => none⟩, fun _ => false⟩ : PageMemory ℕ ℕ) 510 hnodup
  have hlength : cells.length = localFuturePointerPages := by
    have hlength := congrArg List.length hpages
    rwa [length_pagesOf] at hlength
  have hrefines := localCache_refines_stack (by decide) hrep
  rw [hfutures, hlength] at hrefines
  rw [freshLocalCache, hrun]
  exact hrefines

end Udipe

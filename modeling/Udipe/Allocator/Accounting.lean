import Udipe.Allocator.Threads
import Udipe.Allocator.Spill
import Udipe.Lib.Partition

/-!
# Where the pages and the futures are

`AllocatorState.Law` says what each place holds: the cache of the context, the caches of the threads, their
local variables and the application. The places divide the pages that have been allocated between them, and
the futures of the storage pages. A step moves pages and futures between two places.
-/

namespace Udipe

open Function Finset

/-- The application is the client of the caches. -/
inductive Place (T : Type)
  | context
  | thread (t : T)
  | hand (t : T)
  | client
deriving DecidableEq

/-- The places that steps of thread `t` change. -/
def Place.Of {T : Type} (t : T) : Place T → Prop
  | .context | .client => True
  | .thread u | .hand u => u = t

variable {T Page Storage : Type} {capacity length : ℕ} {t u : T} {pc pc₀ : AllocatorPc Page Storage}
  {cells own hand : List (Cell Page Storage)}

/-! ## What a thread knows -/

namespace AllocatorPc

/-- The future that the thread is liberating. -/
def held : AllocatorPc Page Storage → Multiset (FuturePtr Storage)
  | .liberateExtract f | .liberateLock f _ | .liberateInsertFutures f _ | .liberateObtain f
  | .liberateInsertEmpty f _ | .liberateUnlock f | .liberateRetry f => {f}
  | _ => 0

/-- The thread has locked the mutex. -/
def locks : AllocatorPc Page Storage → Bool
  | .allocateExtract | .allocateObtain _ | .allocateInsertEmpty _ _ | .allocateInsertFutures _
  | .allocateRefill | .allocateUnlock | .liberateInsertFutures _ _ | .liberateObtain _
  | .liberateInsertEmpty _ _ | .liberateUnlock _ | .spill | .spillUnlock => true
  | _ => false

/-- The number of pages in the cache of the thread. -/
def threadPages : AllocatorPc Page Storage → ℕ
  | .unregistered | .spillUnlock => 0
  | .allocateInsertEmpty _ _ | .allocateInsertFutures _ | .liberateLock _ _ | .liberateInsertFutures _ _
  | .liberateObtain _ | .liberateInsertEmpty _ _ => localFuturePointerPages - 1
  | _ => localFuturePointerPages

/-- What the thread relies on for its next call. -/
def Expects (capacity : ℕ) (own : List (Cell Page Storage)) : AllocatorPc Page Storage → Prop
  | .allocateLock | .allocateExtract | .allocateObtain _ | .allocateInsertEmpty _ _
  | .allocateInsertFutures _ | .allocateRefill => futuresOf own = []
  | .allocateUnlock | .allocateRetry | .liberateExtract _ => futuresOf own ≠ []
  | .liberateUnlock _ | .liberateRetry _ => ∃ c ∈ own, c.2.length < capacity
  | _ => True

/-- The pages in the local variables of the thread. -/
def Carries (hand : List (Cell Page Storage)) : AllocatorPc Page Storage → Prop
  | .allocateObtain p | .allocateInsertFutures p | .liberateLock _ p | .liberateInsertFutures _ p =>
      ∃ y ≠ [], hand = [(p, y)]
  | .allocateInsertEmpty p e => ∃ y ≠ [], hand = [(p, y), (e, [])]
  | .liberateInsertEmpty _ e => hand = [(e, [])]
  | _ => hand = []

/-- The cache and the local variables of a thread at `pc`. -/
structure Fits (capacity : ℕ) (own hand : List (Cell Page Storage)) (pc : AllocatorPc Page Storage) :
    Prop where
  carries : pc.Carries hand
  pages : own.length = pc.threadPages
  expects : pc.Expects capacity own

end AllocatorPc

/-- Only the pages of `ps` have been written, and those of `fresh`, which are new. -/
structure PageMemory.Changes (m m' : PageMemory Page Storage) (ps fresh : List Page) : Prop where
  pages : ∀ p, p ∉ fresh → p ∉ ps → m'.pages p = m.pages p
  allocated : ∀ p, m'.allocated p = true ↔ p ∈ fresh ∨ m.allocated p = true
  nodup : fresh.Nodup
  new : ∀ p ∈ fresh, m.allocated p = false

theorem PageMemory.Writes.changes {m m' : PageMemory Page Storage} {ps ps' : List Page}
    (h : m.Writes m' ps) (hsub : ps ⊆ ps') : m.Changes m' ps' [] :=
  ⟨fun p _ hp => h.pages p fun hmem => hp (hsub hmem), fun p => by simp [h.allocated], by simp, by simp⟩

theorem PageMemory.Allocates.changes {m m' : PageMemory Page Storage} {ps fresh : List Page}
    (h : m.Allocates m' fresh) (hnodup : fresh.Nodup) (hnew : ∀ p ∈ fresh, m.allocated p = false) :
    m.Changes m' ps fresh :=
  ⟨fun p hp _ => h.pages p hp, h.allocated, hnodup, hnew⟩

/-! ## The invariant -/

namespace AllocatorState

variable {s s' : AllocatorState T Page Storage}

/-- The place holds the cells. -/
def HoldsAt (capacity : ℕ) (s : AllocatorState T Page Storage) (cells : List (Cell Page Storage)) :
    Place T → Prop
  | .context => s.contextCache.Represents s.memory capacity cells
  | .thread t => (s.threadCaches t).Represents s.memory capacity cells
  | .hand _ => ∀ c ∈ cells, s.memory.Detached capacity c
  | .client => cells = []

/-- The futures of the place that are in no page. -/
def loose (s : AllocatorState T Page Storage) : Place T → Multiset (FuturePtr Storage)
  | .context | .thread _ => 0
  | .hand t => (s.pc t).held
  | .client => s.live

/-- The future has been allocated from the system, `length` of them to a storage page. -/
def Exists (length : ℕ) (s : AllocatorState T Page Storage) (f : FuturePtr Storage) : Prop :=
  s.storages f.storage = true ∧ f.index < length

/-- The places hold the cells of `w`. -/
structure Law (capacity length : ℕ) (s : AllocatorState T Page Storage)
    (w : Place T → List (Cell Page Storage)) : Prop where
  holds : ∀ place, s.HoldsAt capacity (w place) place
  fits : ∀ t, (s.pc t).Fits capacity (w (.thread t)) (w (.hand t))
  pages : Partitioned (fun place => (pagesOf (w place) : Multiset Page))
    (fun p => s.memory.allocated p = true)
  futures : Partitioned (fun place => (futuresOf (w place) : Multiset (FuturePtr Storage)) + s.loose place)
    (s.Exists length)
  mutex : ∀ t, s.mutex = some t ↔ (s.pc t).locks = true
  defined : s.undefined = false

/-- A place depends on its own pages and its own cache only. -/
theorem HoldsAt.congr {place : Place T} (h : s.HoldsAt capacity cells place)
    (hpages : ∀ p ∈ pagesOf cells, s'.memory.pages p = s.memory.pages p)
    (hcontext : place = .context → s'.contextCache = s.contextCache)
    (hthread : ∀ u, place = .thread u → s'.threadCaches u = s.threadCaches u) :
    s'.HoldsAt capacity cells place := by
  cases place with
  | context =>
      simp only [HoldsAt, hcontext]
      exact PointerCache.Represents.congr h hpages
  | thread u =>
      simp only [HoldsAt, hthread u rfl]
      exact PointerCache.Represents.congr h hpages
  | hand u => exact fun c hc => (h c hc).congr (hpages _ (mem_pagesOf_of_mem hc))
  | client => exact h

variable {w : Place T → List (Cell Page Storage)}

/-- No page is at two places. -/
theorem Law.disjoint [DecidableEq T] (h : s.Law capacity length w) {a b : Place T} (hab : a ≠ b)
    {p : Page} (hp : p ∈ pagesOf (w a)) : p ∉ pagesOf (w b) :=
  h.pages.disjoint hab hp

theorem Law.allocated (h : s.Law capacity length w) {a : Place T} {p : Page}
    (hp : p ∈ pagesOf (w a)) : s.memory.allocated p = true :=
  (h.pages.all_iff p).mpr ⟨a, hp⟩

variable [DecidableEq T]

/-- Thread `t` moves pages and futures between the places `a` and `b`, which hold `A` and `B` then. -/
theorem Law.exchange (h : s.Law capacity length w) {a b : Place T} {A B : List (Cell Page Storage)}
    {freshPages : List Page} (freshFutures : List (FuturePtr Storage))
    (hab : a ≠ b) (ha : a.Of t) (hb : b.Of t)
    (hA : s'.HoldsAt capacity A a) (hB : s'.HoldsAt capacity B b)
    (hcontext : .context ≠ a → .context ≠ b → s'.contextCache = s.contextCache)
    (hthread : ∀ u, .thread u ≠ a → .thread u ≠ b → s'.threadCaches u = s.threadCaches u)
    (hloose : ∀ place, place ≠ a → place ≠ b → s'.loose place = s.loose place)
    (hmemory : s.memory.Changes s'.memory (pagesOf (w a) ++ pagesOf (w b)) freshPages)
    (hexists : ∀ f, s'.Exists length f ↔ f ∈ freshFutures ∨ s.Exists length f)
    (hnewFutures : freshFutures.Nodup ∧ ∀ f ∈ freshFutures, ¬ s.Exists length f)
    (hpages : (pagesOf A ++ pagesOf B).Perm (freshPages ++ (pagesOf (w a) ++ pagesOf (w b))))
    (hfutures : (futuresOf A : Multiset (FuturePtr Storage)) + s'.loose a + (futuresOf B + s'.loose b)
      = freshFutures + (futuresOf (w a) + s.loose a + (futuresOf (w b) + s.loose b)))
    (hpc : ∀ u, u ≠ t → s'.pc u = s.pc u)
    (hfits : (s'.pc t).Fits capacity (update (update w a A) b B (.thread t))
      (update (update w a A) b B (.hand t)))
    (hmutex : s'.mutex = s.mutex) (hlocks : (s'.pc t).locks = (s.pc t).locks)
    (hdefined : s'.undefined = false) :
    s'.Law capacity length (update (update w a A) b B) := by
  have hwa : update (update w a A) b B a = A := by rw [update_of_ne hab, update_self]
  have hwb : update (update w a A) b B b = B := update_self ..
  have hw : ∀ place, place ≠ a → place ≠ b → update (update w a A) b B place = w place :=
    fun place hpa hpb => by rw [update_of_ne hpb, update_of_ne hpa]
  have hother : ∀ place ∉ ({a, b} : Finset (Place T)), place ≠ a ∧ place ≠ b := by
    intro place hplace
    simpa [not_or] using hplace
  refine ⟨fun place => ?_, fun u => ?_, ?_, ?_, fun u => ?_, hdefined⟩
  · by_cases hpb : place = b
    · rw [hpb, hwb]
      exact hB
    by_cases hpa : place = a
    · rw [hpa, hwa]
      exact hA
    rw [hw place hpa hpb]
    refine (h.holds place).congr (fun p hp => hmemory.pages p (fun hfresh => ?_) ?_)
      (fun heq => hcontext (heq ▸ hpa) (heq ▸ hpb)) fun u heq => hthread u (heq ▸ hpa) (heq ▸ hpb)
    · exact absurd (h.allocated hp) (by simp [hmemory.new p hfresh])
    · rw [List.mem_append, not_or]
      exact ⟨h.disjoint hpa hp, h.disjoint hpb hp⟩
  · by_cases hut : u = t
    · rw [hut]
      exact hfits
    have hne : ∀ place : Place T, place.Of t → .thread u ≠ place ∧ .hand u ≠ place := by
      rintro (_ | v | v | _) hof <;> simp only [ne_eq, reduceCtorEq, not_false_eq_true,
        Place.thread.injEq, Place.hand.injEq, and_self, true_and, and_true]
      · exact fun heq => hut (heq.trans hof)
      · exact fun heq => hut (heq.trans hof)
    rw [hpc u hut, hw _ (hne a ha).1 (hne b hb).1, hw _ (hne a ha).2 (hne b hb).2]
    exact h.fits u
  · refine h.pages.exchange {a, b} freshPages (fun place hplace => ?_) ?_ hmemory.nodup
      (fun p hp => by simpa using hmemory.new p hp) hmemory.allocated
    · rw [hw place (hother place hplace).1 (hother place hplace).2]
    · rw [sum_pair hab, sum_pair hab, hwa, hwb]
      exact Quot.sound hpages
  · refine h.futures.exchange {a, b} freshFutures (fun place hplace => ?_) ?_ hnewFutures.1
      hnewFutures.2 hexists
    · obtain ⟨hpa, hpb⟩ := hother place hplace
      rw [hw place hpa hpb, hloose place hpa hpb]
    · rw [sum_pair hab, sum_pair hab, hwa, hwb]
      exact hfutures
  · by_cases hut : u = t
    · rw [hut, hmutex, hlocks]
      exact h.mutex t
    · rw [hmutex, hpc u hut]
      exact h.mutex u

/-! ## Kinds of steps -/

/-- Thread `t` goes on, and may lock or unlock the mutex. -/
theorem Law.goto (h : s.Law capacity length w) (mutex : Option T) (hpc : s.pc t = pc₀)
    (hheld : pc.held = pc₀.held) (hfits : pc.Fits capacity (w (.thread t)) (w (.hand t)))
    (hmutex : mutex = some t ↔ pc.locks = true)
    (hothers : ∀ u, u ≠ t → (mutex = some u ↔ s.mutex = some u)) :
    ({ s.goto t pc with mutex := mutex } : AllocatorState T Page Storage).Law capacity length w := by
  have hloose : (s.goto t pc).loose = s.loose := by
    funext place
    rcases place with _ | u | u | _
    · rfl
    · rfl
    · rcases eq_or_ne u t with rfl | hut
      · simp [loose, AllocatorState.goto, hheld, hpc]
      · simp [loose, AllocatorState.goto, update_of_ne hut]
    · rfl
  refine ⟨fun place => (h.holds place).congr (fun _ _ => rfl) (fun _ => rfl) (fun _ _ => rfl), ?_,
    h.pages, ?_, ?_, h.defined⟩
  · intro u
    rcases eq_or_ne u t with rfl | hut
    · simpa [AllocatorState.goto] using hfits
    · simpa [AllocatorState.goto, update_of_ne hut] using h.fits u
  · have hfutures := h.futures
    rw [← hloose] at hfutures
    exact hfutures
  · intro u
    rcases eq_or_ne u t with rfl | hut
    · simpa [AllocatorState.goto] using hmutex
    · simpa [AllocatorState.goto, update_of_ne hut, hothers u hut] using h.mutex u

/-- Thread `t` locks the mutex. -/
theorem Law.lock (h : s.Law capacity length w) (hpc : s.pc t = pc₀) (hstep : s.lock t pc = some s')
    (hheld : pc.held = pc₀.held) (hfits : pc.Fits capacity (w (.thread t)) (w (.hand t)))
    (hlocks : pc.locks = true) : s'.Law capacity length w := by
  obtain ⟨hfree, rfl⟩ : s.mutex = none ∧ { s.goto t pc with mutex := some t } = s' := by
    simpa [AllocatorState.lock] using hstep
  refine h.goto (some t) hpc hheld hfits (by simp [hlocks]) fun u hut => ?_
  simp [hfree, hut.symm]

/-- Thread `t` unlocks the mutex. -/
theorem Law.unlock (h : s.Law capacity length w) (hpc : s.pc t = pc₀) (hlocked : pc₀.locks = true)
    (hheld : pc.held = pc₀.held) (hfits : pc.Fits capacity (w (.thread t)) (w (.hand t)))
    (hlocks : pc.locks = false) : (s.unlock t pc).Law capacity length w := by
  have hmutex : s.mutex = some t := (h.mutex t).mpr (hpc ▸ hlocked)
  refine h.goto none hpc hheld hfits (by simp [hlocks]) fun u hut => ?_
  simp [hmutex, hut.symm]

variable {cache : PointerCache Page} {m : PageMemory Page Storage}
  {A B : List (Cell Page Storage)} {freshPages : List Page}

/-- Thread `t` moves pages and futures between its cache and its local variables. -/
theorem Law.threadHand (h : s.Law capacity length w) (hpc : s.pc t = pc₀)
    (hcache : cache.Represents m capacity A)
    (hhand : ∀ c ∈ B, m.Detached capacity c)
    (hmemory : s.memory.Changes m (pagesOf (w (.thread t)) ++ pagesOf (w (.hand t))) freshPages)
    (hpages : (pagesOf A ++ pagesOf B).Perm
      (freshPages ++ (pagesOf (w (.thread t)) ++ pagesOf (w (.hand t)))))
    (hfutures : (futuresOf A + futuresOf B + pc.held : Multiset (FuturePtr Storage))
      = futuresOf (w (.thread t)) + futuresOf (w (.hand t)) + pc₀.held)
    (hfits : pc.Fits capacity A B) (hlocks : pc.locks = pc₀.locks) :
    ∃ w', ((s.setThread t cache m).goto t pc).Law capacity length w' := by
  refine ⟨_, h.exchange (t := t) (a := .thread t) (b := .hand t) [] (by simp) rfl rfl ?_ hhand
    (fun _ _ => rfl) (fun u hut _ => ?_) ?_ hmemory (fun f => ?_) (by simp) hpages ?_ (fun u hut => ?_) ?_
    rfl ?_ h.defined⟩
  · simpa [HoldsAt, AllocatorState.goto, setThread] using hcache
  · exact update_of_ne (fun heq => hut (by rw [heq])) _ _
  · rintro (_ | u | u | _) - hne
    · rfl
    · rfl
    · have hut : u ≠ t := fun heq => hne (by rw [heq])
      simp [loose, AllocatorState.goto, setThread, update_of_ne hut]
    · rfl
  · simp [Exists, AllocatorState.goto, setThread]
  · simp only [loose, AllocatorState.goto, setThread, update_self, add_zero, Multiset.coe_nil, zero_add]
    rw [← add_assoc, ← add_assoc, hfutures, hpc]
  · exact update_of_ne hut _ _
  · simpa [AllocatorState.goto, setThread] using hfits
  · simpa [AllocatorState.goto, setThread, hpc] using hlocks

/-- Thread `t` moves pages and futures between the cache of the context and its local variables. -/
theorem Law.contextHand (h : s.Law capacity length w) (hpc : s.pc t = pc₀)
    (hcache : cache.Represents m capacity A)
    (hhand : ∀ c ∈ B, m.Detached capacity c)
    (hmemory : s.memory.Changes m (pagesOf (w .context) ++ pagesOf (w (.hand t))) freshPages)
    (hpages : (pagesOf A ++ pagesOf B).Perm
      (freshPages ++ (pagesOf (w .context) ++ pagesOf (w (.hand t)))))
    (hfutures : (futuresOf A + futuresOf B : Multiset (FuturePtr Storage))
      = futuresOf (w .context) + futuresOf (w (.hand t))) (hheld : pc.held = pc₀.held)
    (hfits : pc.Fits capacity (w (.thread t)) B) (hlocks : pc.locks = pc₀.locks) :
    ∃ w', ((s.setContext cache m).goto t pc).Law capacity length w' := by
  refine ⟨_, h.exchange (t := t) (a := .context) (b := .hand t) [] (by simp) trivial rfl hcache hhand
    (fun hne _ => absurd rfl hne) (fun _ _ _ => rfl) ?_ hmemory (fun f => ?_) (by simp) hpages ?_
    (fun u hut => ?_) ?_ rfl ?_ h.defined⟩
  · rintro (_ | u | u | _) - hne
    · rfl
    · rfl
    · have hut : u ≠ t := fun heq => hne (by rw [heq])
      simp [loose, AllocatorState.goto, setContext, update_of_ne hut]
    · rfl
  · simp [Exists, AllocatorState.goto, setContext]
  · simp only [loose, AllocatorState.goto, setContext, update_self, add_zero, Multiset.coe_nil, zero_add,
      hheld, hpc]
    rw [← add_assoc, ← add_assoc, hfutures]
  · exact update_of_ne hut _ _
  · simpa [AllocatorState.goto, setContext] using hfits
  · simpa [AllocatorState.goto, setContext, hpc] using hlocks

/-- Thread `t` moves futures between its cache and the application. -/
theorem Law.threadClient (h : s.Law capacity length w) (hpc : s.pc t = pc₀) {live : Multiset (FuturePtr Storage)}
    (hcache : cache.Represents m capacity A) (hmemory : s.memory.Writes m (pagesOf (w (.thread t))))
    (hpages : pagesOf A = pagesOf (w (.thread t)))
    (hfutures : (futuresOf A + live : Multiset (FuturePtr Storage)) = futuresOf (w (.thread t)) + s.live)
    (hheld : pc.held = pc₀.held) (hfits : pc.Fits capacity A (w (.hand t)))
    (hlocks : pc.locks = pc₀.locks) :
    ∃ w', ({ (s.setThread t cache m).goto t pc with live := live } :
      AllocatorState T Page Storage).Law capacity length w' := by
  have hclient : w .client = [] := h.holds .client
  refine ⟨_, h.exchange (t := t) (a := .thread t) (b := .client) (A := A) (B := []) [] (by simp) rfl trivial
    ?_ rfl (fun _ _ => rfl) (fun u hut _ => ?_) ?_ (hmemory.changes (by simp)) (fun f => ?_) (by simp) ?_ ?_
    (fun u hut => ?_) ?_ rfl ?_ h.defined⟩
  · simpa [HoldsAt, AllocatorState.goto, setThread] using hcache
  · exact update_of_ne (fun heq => hut (by rw [heq])) _ _
  · rintro (_ | u | u | _) - hne
    · rfl
    · rfl
    · rcases eq_or_ne u t with rfl | hut
      · simp [loose, AllocatorState.goto, setThread, hheld, hpc]
      · simp [loose, AllocatorState.goto, setThread, update_of_ne hut]
    · exact absurd rfl hne
  · simp [Exists, AllocatorState.goto, setThread]
  · simp [hpages, hclient]
  · simp only [loose, add_zero, Multiset.coe_nil, zero_add, hclient, futuresOf_nil, hfutures]
  · exact update_of_ne hut _ _
  · simpa [AllocatorState.goto, setThread] using hfits
  · simpa [AllocatorState.goto, setThread, hpc] using hlocks

end AllocatorState

end Udipe

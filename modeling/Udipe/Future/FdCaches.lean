import Udipe.Future.FdLedger

/-!
# The descriptors of futures and of caches in the ledger

Reference: `future/latched_inpoll.c`, `future/allocator/sync_caches.h`, `future/allocator/sync_caches.c`,
`future/allocator.c` (`future_sync_initialize`, `future_sync_finalize`).

What a thread has in its caches is a stock of lone events and of inpolls with their latches. A future has one
resource, which depends on its type. Each function below moves resources between the two, creates or closes them,
and ends the process for the reasons that are given only.
-/

namespace Udipe.VirtualFds

open Function Checked

variable {table table' : FdTable} {rs : Multiset FdResource} {fd : Fd} {r : FdResource} {F : Exit → Prop}
  {newest : List Fd} {pairs : List (Fd × Fd)} {events : EventRing Fd} {latchedInpolls : LatchedInpollRing Fd Fd}

/-! ## Stocks -/

def eventResources (newest : List Fd) : Multiset FdResource := (newest : Multiset Fd).map .event

def pairResources (pairs : List (Fd × Fd)) : Multiset FdResource :=
  (pairs : Multiset (Fd × Fd)).map fun pair => .latched pair.1 pair.2

/-- What a thread keeps. -/
def ThreadCaches.Stocks (caches : ThreadCaches) (stock : Multiset FdResource) : Prop :=
  ∃ newest pairs, caches.events.Holds eventCacheCapacity newest ∧
    caches.latchedInpolls.Holds eventCacheCapacity pairs ∧ stock = eventResources newest + pairResources pairs

theorem eventCacheCapacity_pos : 0 < eventCacheCapacity := by decide

theorem increment_eq (index : ℕ) :
    ringIncrementIndex eventCacheCapacity index = (index + 1) % eventCacheCapacity :=
  ringIncrementIndex_eq eventCacheCapacity_pos (by decide) index

/-- An object enters a full cache, and the oldest one leaves it. -/
theorem coe_add_singleton {α : Type} {newest : List α} (hlength : newest.length ≤ eventCacheCapacity) (x : α) :
    (newest : Multiset α) + {x} =
      (newest[eventCacheCapacity - 1]?.toList : Multiset α) + ((x :: newest).take eventCacheCapacity : List α) :=
  (recencyCache_answer_left (c := .put x) eventCacheCapacity_pos hlength rfl).2

theorem stocks_initial : ThreadCaches.initial.Stocks 0 :=
  ⟨[], [], RingHolds.empty (by decide) fun _ _ => rfl,
    ⟨RingHolds.empty (by decide) fun _ _ => rfl, RingHolds.empty (by decide) fun _ _ => rfl⟩, rfl⟩

/-- What was open is open. -/
theorem Ledger.isSome_of_subset {rs' : Multiset FdResource} (h : Ledger table rs) (h' : Ledger table' rs')
    (hsub : rs ⊆ rs') (hfd : (table fd).isSome = true) : (table' fd).isSome = true := by
  obtain ⟨r, hr, hfoot⟩ := ResourceKind.mem_names.mp (h.inventory.covers fd hfd)
  exact h'.inventory.isSome_iff.mpr (ResourceKind.mem_names.mpr ⟨r, hsub hr, hfoot⟩)

/-- The descriptors of two resources differ. -/
theorem Ledger.ne {fd' : Fd} (h : Ledger table (r ::ₘ rs)) {r' : FdResource} (hr' : r' ∈ rs)
    (hfd : fd ∈ r.footprint)
    (hfd' : fd' ∈ r'.footprint) : fd ≠ fd' := by
  rintro rfl
  exact h.inventory.notMem hfd hr' hfd'

/-- The descriptors of a group differ. -/
theorem Ledger.footprint_nodup (h : Ledger table (r ::ₘ rs)) : r.footprint.Nodup := by
  have hnodup := h.inventory.nodup
  rw [ResourceKind.names_cons] at hnodup
  exact (Multiset.nodup_add.mp hnodup).1

/-! ## Switches -/

variable {P : Unit × FdTable → Prop}

theorem expectAttached_ends {result : InpollAttachResult} (hsuccess : result = .success → P ((), table))
    (hnested : result = .tooNested → F .unexpected) (hredundant : result ≠ .redundant) :
    Ends P F (expectAttached result table) := by
  cases result with
  | success => exact hsuccess rfl
  | tooNested => exact hnested rfl
  | redundant => exact absurd rfl hredundant

/-- What comes after an attachment that must succeed, for a descriptor that the inpoll does not monitor. Only epollfds
that are nested too deeply are in its way. -/
theorem attachExpected_ends {α : Type} {Q : α × FdTable → Prop} {next : Syscalls α} {olds : Multiset FdResource}
    {poll : Fd} {interest : Fd → Option ℕ} {identifier : ℕ} (news : Multiset FdResource) (k : Kernel)
    (h : Ledger table (olds + rs)) (hpoll : poll ∈ fdResources.names olds)
    (hinpoll : table poll = some (.epollfd interest)) (hfd : (table fd).isSome = true) (hne : poll ≠ fd)
    (hfree : interest fd = none) (hnames : fdResources.names news = fdResources.names olds)
    (hnews : ∀ r ∈ news,
      r.Holds (update table poll (some (.epollfd (update interest fd (some identifier))))))
    (hF : ∀ x, Exit.IsAfter watchErrnos x → F x) (hnested : k.nested table poll fd = true → F .unexpected)
    (hnext : ∀ table', Ledger table' (news + rs) → table.Adds table' [(poll, fd)] → Ends Q F (next table')) :
    Ends Q F ((do
      let result ← inpollAttach k poll fd identifier
      expectAttached result
      next) table) := by
  refine ends_stateBind (inpollAttach_ends news k h hpoll hinpoll hfd hne hnames hnews hF) ?_
  rintro result table' hattach
  refine ends_stateBind (P := fun q => Ledger q.2 (news + rs) ∧ table.Adds q.2 [(poll, fd)])
    (expectAttached_ends ?_ ?_ ?_) fun _ table'' h => hnext table'' h.1 h.2
  · rintro rfl
    rcases hattach with ⟨-, hadded⟩ | ⟨hnested', -⟩ | ⟨hredundant, -⟩
    · exact hadded
    · cases hnested'
    · cases hredundant
  · rintro rfl
    rcases hattach with ⟨hsuccess, -⟩ | ⟨-, -, hnested'⟩ | ⟨hredundant, -⟩
    · cases hsuccess
    · exact hnested hnested'
    · cases hredundant
  · rintro rfl
    rcases hattach with ⟨hsuccess, -⟩ | ⟨hnested', -⟩ | ⟨-, -, hredundant⟩
    · cases hsuccess
    · cases hnested'
    · rw [hfree] at hredundant
      cases hredundant

theorem expectDetached_ends {result : InpollDetachResult} (hsuccess : result = .success → P ((), table))
    (hfail : result ≠ .success → F .unexpected) : Ends P F (expectDetached result table) := by
  cases result with
  | success => exact hsuccess rfl
  | nonexistent => exact hfail (by simp)

theorem assertion_of_true {cond : Bool} (hcond : cond = true) : assertion cond = pure () := by
  rw [hcond]
  rfl

/-! ## The rings of descriptors -/

/-- The descriptors that a ring drops are closed. -/
def closeAll (fds : List Fd) : Syscalls Unit := fds.forM fun fd => closeVirtualFd (some fd)

theorem closeAll_nil : closeAll [] = pure () := rfl

theorem closeAll_cons (fd : Fd) (fds : List Fd) :
    closeAll (fd :: fds) = (do closeVirtualFd (some fd); closeAll fds) := rfl

/-- `event_cache_allocate` is that of the ring, with a fresh event if it needs one. -/
theorem eventCacheAllocate_eq (k : Kernel) (cache : EventRing Fd) :
    eventCacheAllocate k cache = (do
      let fresh ← (if (cache.events cache.latest).isNone then eventInitialize k else pure 0 : Syscalls Fd)
      let ((event, _), cache') := cache.allocate eventCacheCapacity fresh
      pure (event, cache')) := by
  unfold eventCacheAllocate EventRing.allocate
  cases cache.events cache.latest with
  | none => rfl
  | some event => rfl

/-- `event_cache_liberate` is that of the ring. -/
theorem eventCacheLiberate_eq (cache : EventRing Fd) (event : Fd) :
    eventCacheLiberate cache (some event) = (do
      let (dropped, cache') := cache.liberate eventCacheCapacity event
      closeAll dropped.toList
      pure cache') := by
  unfold eventCacheLiberate EventRing.liberate
  cases h : cache.events (ringIncrementIndex eventCacheCapacity cache.latest) with
  | none => simp [h, closeAll_nil]
  | some oldest => simp [h, closeAll_cons, closeAll_nil]

/-- The loop closes what that of the ring drops. -/
theorem closeRing_eq {fuel target : ℕ} {slots slots' : ℕ → Option Fd} {dropped : List Fd}
    (h : finalizeLoop eventCacheCapacity fuel target slots = some (dropped, slots'))
    (htarget : target < eventCacheCapacity) :
    closeRing fuel target slots = (do closeAll dropped; pure slots') := by
  -- induction on the rounds of the loop
  induction fuel generalizing target slots dropped with
  | zero => cases h
  | succ fuel ih =>
      rw [finalizeLoop] at h
      rw [closeRing]
      cases hslot : slots target with
      | none =>
          simp only [hslot, Option.some.injEq, Prod.mk.injEq] at h
          obtain ⟨rfl, rfl⟩ := h
          rfl
      | some fd =>
          simp only [hslot, Option.map_eq_some_iff, Prod.mk.injEq, Prod.exists] at h
          obtain ⟨dropped, slots'', hloop, rfl, rfl⟩ := h
          have hnext : ringDecrementIndex eventCacheCapacity target < eventCacheCapacity := by
            unfold ringDecrementIndex
            split <;> omega
          simp only [assertion_of_true (decide_eq_true htarget), ih hloop hnext, closeAll_cons, pure_bind,
            bind_assoc]

/-- `event_cache_finalize` is that of the ring. -/
theorem eventCacheFinalize_eq {cache cache' : EventRing Fd} {dropped : List Fd}
    (h : cache.finalize eventCacheCapacity = some (dropped, cache')) (hlatest : cache.latest < eventCacheCapacity) :
    eventCacheFinalize cache = (do closeAll dropped; pure cache') := by
  obtain ⟨⟨dropped, slots⟩, hloop, heq⟩ := Option.map_eq_some_iff.mp h
  cases heq
  rw [eventCacheFinalize, closeRing_eq hloop hlatest]
  simp only [bind_assoc, pure_bind]

/-- `latched_inpoll_cache_allocate` is that of the ring, with a fresh pair if it needs one. -/
theorem latchedInpollCacheAllocate_eq (k : Kernel) (cache : LatchedInpollRing Fd Fd) :
    latchedInpollCacheAllocate k cache = (do
      let fresh ← (if (cache.inpolls cache.eventCache.latest).isNone then latchedInpollInitialize k
        else pure { inpoll := 0, latch := 0 } : Syscalls InpollWithLatch)
      match cache.allocate ⟨true⟩ eventCacheCapacity (fresh.inpoll, fresh.latch) with
      | none => throw .assertion
      | some (((inpoll, latch), _), cache') => pure ({ inpoll, latch }, cache')) := by
  cases hinpoll : cache.inpolls cache.eventCache.latest with
  | none =>
      simp only [latchedInpollCacheAllocate, LatchedInpollRing.allocate, hinpoll]
      rfl
  | some inpoll =>
      cases hlatch : cache.eventCache.events cache.eventCache.latest with
      | none =>
          simp only [latchedInpollCacheAllocate, LatchedInpollRing.allocate, hinpoll, hlatch]
          rfl
      | some latch =>
          simp only [latchedInpollCacheAllocate, LatchedInpollRing.allocate, hinpoll, eventCacheAllocate,
            EventRing.allocate, hlatch]
          rfl

/-- `latched_inpoll_cache_liberate` is that of the ring: the latch is closed first. -/
theorem latchedInpollCacheLiberate_eq (cache : LatchedInpollRing Fd Fd) (inpoll latch : Fd) :
    latchedInpollCacheLiberate cache (some inpoll) (some latch) = (do
      let (dropped, cache') := cache.liberate eventCacheCapacity (inpoll, latch)
      closeAll dropped.2.toList
      closeAll dropped.1.toList
      pure cache') := by
  have hlatest : ringIncrementIndex eventCacheCapacity cache.eventCache.latest < eventCacheCapacity := by
    rw [increment_eq]
    exact Nat.mod_lt _ eventCacheCapacity_pos
  rw [latchedInpollCacheLiberate, eventCacheLiberate_eq, LatchedInpollRing.liberate]
  simp only [EventRing.liberate, bind_assoc, pure_bind, assertion_of_true (decide_eq_true hlatest)]
  cases h : cache.inpolls (ringIncrementIndex eventCacheCapacity cache.eventCache.latest) with
  | none => simp [closeAll_nil]
  | some oldest => simp [closeAll_cons, closeAll_nil]

/-- `latched_inpoll_cache_finalize` is that of the ring: the inpolls are closed first. -/
theorem latchedInpollCacheFinalize_eq {cache cache' : LatchedInpollRing Fd Fd} {dropped : List Fd × List Fd}
    (h : cache.finalize eventCacheCapacity = some (dropped, cache'))
    (hlatest : cache.eventCache.latest < eventCacheCapacity) :
    latchedInpollCacheFinalize cache = (do closeAll dropped.1; closeAll dropped.2; pure cache') := by
  obtain ⟨⟨inpolls, slots⟩, hloop, h⟩ := Option.bind_eq_some_iff.mp h
  obtain ⟨⟨events, eventCache⟩, hfinalize, heq⟩ := Option.map_eq_some_iff.mp h
  cases heq
  rw [latchedInpollCacheFinalize, closeRing_eq hloop hlatest, eventCacheFinalize_eq hfinalize hlatest]
  simp only [bind_assoc, pure_bind]

/-! ## The event cache -/

/-- Descriptors of their own are closed. -/
theorem closeAll_ends (make : Fd → FdResource) (hmake : ∀ fd, (make fd).footprint = {fd}) {fds : List Fd}
    (h : Ledger table ((fds : Multiset Fd).map make + rs)) :
    Ends (fun q => Ledger q.2 rs ∧ table.Adds q.2 []) F (closeAll fds table) := by
  induction fds generalizing table with
  | nil => exact ends_statePure ⟨by simpa using h, .refl table⟩
  | cons fd fds ih =>
      rw [← Multiset.cons_coe, Multiset.map_cons, Multiset.cons_add] at h
      rw [closeAll_cons]
      refine ends_stateBind (closeVirtualFd_ends h (hmake fd)) ?_
      rintro _ table' ⟨hledger, hadds⟩
      refine (ih hledger).mono ?_
      rintro ⟨_, table''⟩ ⟨hledger', hadds'⟩
      exact ⟨hledger', hadds.trans hadds'⟩

/-- An event comes out of the cache, or is new. -/
theorem eventCacheAllocate_ends (k : Kernel) (h : Ledger table (eventResources newest + rs))
    (hcache : events.Holds eventCacheCapacity newest) :
    Ends (fun q => ∃ newest', q.1.2.Holds eventCacheCapacity newest' ∧
        Ledger q.2 (.event q.1.1 ::ₘ (eventResources newest' + rs)) ∧ table.Adds q.2 [])
      (Exit.IsAfter createErrnos) (eventCacheAllocate k events table) := by
  rw [eventCacheAllocate_eq, RingHolds.slot_latest hcache]
  cases newest with
  | nil =>
      refine ends_stateBind (create_ends k h .event (fun _ => rfl) (fun _ _ h => h) (by simp) createMessage
        fun _ => id) ?_
      rintro event table' ⟨hledger, hadds, -⟩
      rw [hcache.allocate_nil]
      exact ends_statePure ⟨[], hcache, hledger, hadds⟩
  | cons event older =>
      refine ends_stateBind (P := fun q => q.2 = table) rfl ?_
      rintro fresh _ rfl
      obtain ⟨events', hallocate, hholds⟩ := hcache.allocate_cons fresh
      rw [hallocate]
      refine ends_statePure ⟨older, hholds, ?_, .refl _⟩
      simpa [eventResources, ← Multiset.cons_coe] using h

/-- An event of its own goes into the cache, and the oldest one of a full cache is closed. -/
theorem eventCacheLiberate_ends {event : Fd} (h : Ledger table (.event event ::ₘ (eventResources newest + rs)))
    (hcache : events.Holds eventCacheCapacity newest) :
    Ends (fun q => ∃ newest', q.1.Holds eventCacheCapacity newest' ∧
        Ledger q.2 (eventResources newest' + rs) ∧ table.Adds q.2 [])
      F (eventCacheLiberate events (some event) table) := by
  obtain ⟨events', hliberate, hholds, -⟩ := hcache.liberate eventCacheCapacity_pos (by decide) event
  have hsplit := congrArg (Multiset.map FdResource.event) (coe_add_singleton (RingHolds.length_le hcache) event)
  rw [Multiset.map_add, Multiset.map_add, Multiset.map_singleton] at hsplit
  have hledger : Ledger table (Multiset.map .event (newest[eventCacheCapacity - 1]?.toList : Multiset Fd) +
      (eventResources ((event :: newest).take eventCacheCapacity) + rs)) := by
    rw [← add_assoc, eventResources, ← hsplit, add_comm (Multiset.map _ _), add_assoc, Multiset.singleton_add]
    exact h
  rw [eventCacheLiberate_eq, hliberate]
  refine ends_stateBind (closeAll_ends .event (fun _ => rfl) hledger) ?_
  rintro _ table' ⟨hledger', hadds⟩
  exact ends_statePure ⟨_, hholds, hledger', hadds⟩

/-- `event_cache_finalize` of the ring of `newest`. -/
theorem eventCacheFinalize_ends (h : Ledger table (eventResources newest + rs))
    (hcache : events.Holds eventCacheCapacity newest) :
    Ends (fun q => q.1.Holds eventCacheCapacity [] ∧ Ledger q.2 rs ∧ table.Adds q.2 []) F
      (eventCacheFinalize events table) := by
  obtain ⟨events', hfinalize, hholds⟩ := hcache.finalize
  rw [eventCacheFinalize_eq hfinalize (RingHolds.latest_lt hcache)]
  refine ends_stateBind (closeAll_ends .event (fun _ => rfl) h) ?_
  rintro _ table' ⟨hledger, hadds⟩
  exact ends_statePure ⟨hholds, hledger, hadds⟩

/-! ## The latched inpoll cache -/

theorem pair_add {α : Type} (x y : α) (s : Multiset α) : ({x, y} : Multiset α) + s = x ::ₘ y ::ₘ s := by
  rw [Multiset.insert_eq_cons, Multiset.cons_add, Multiset.singleton_add]

/-- The same descriptors, told apart in another way. -/
theorem Ledger.regroup {olds news : Multiset FdResource} (h : Ledger table (olds + rs))
    (hnames : fdResources.names news = fdResources.names olds) (hnews : ∀ r ∈ news, r.Holds table) :
    Ledger table (news + rs) :=
  ⟨h.inventory.regroup hnames hnews, h.registered⟩

/-- An inpoll and its latch, each on its own. -/
theorem Ledger.split_latched {poll latch : Fd} (h : Ledger table (.latched poll latch ::ₘ rs)) :
    Ledger table (.inpoll poll ::ₘ .event latch ::ₘ rs) := by
  have hholds : FdResource.Holds table (.latched poll latch) := h.inventory.holds_head
  rw [← Multiset.singleton_add] at h
  rw [← pair_add]
  refine h.regroup rfl fun r hr => ?_
  rw [Multiset.insert_eq_cons, Multiset.mem_cons, Multiset.mem_singleton] at hr
  rcases hr with rfl | rfl
  · exact ⟨_, hholds.1⟩
  · exact hholds.2

theorem Ledger.split_pairs (h : Ledger table (pairResources pairs + rs)) :
    Ledger table ((pairs.map Prod.fst : Multiset Fd).map .inpoll + (eventResources (pairs.map Prod.snd) + rs)) := by
  induction pairs generalizing rs with
  | nil => simpa [pairResources, eventResources] using h
  | cons pair older ih =>
      rw [pairResources, ← Multiset.cons_coe, Multiset.map_cons, Multiset.cons_add] at h
      have hrest : Ledger table (pairResources older + (.inpoll pair.1 ::ₘ .event pair.2 ::ₘ rs)) := by
        simpa [pairResources, Multiset.add_cons] using h.split_latched
      have hsplit := ih hrest
      simpa [eventResources, ← Multiset.cons_coe, Multiset.add_cons, Multiset.cons_add,
        Multiset.cons_swap] using hsplit

/-- A pair is set up: the latch is new for the inpoll, and no inpoll, so that it can be attached. -/
theorem latchedInpollInitialize_ends (k : Kernel) (h : Ledger table rs) :
    Ends (fun q => Ledger q.2 (.latched q.1.inpoll q.1.latch ::ₘ rs) ∧
        table.Adds q.2 [(q.1.inpoll, q.1.latch)] ∧ table q.1.inpoll = none)
      (Exit.IsAfter allocateErrnos) (latchedInpollInitialize k table) := by
  refine ends_stateBind (create_ends k h .event (fun _ => rfl) (fun _ _ h => h) (by simp) createMessage
    isAfter_allocate_of_create) ?_
  rintro latch table₁ ⟨hledger₁, hadds₁, -⟩
  refine ends_stateBind (create_ends k hledger₁ .bare (fun _ => rfl) (fun _ _ h => h) (by simp) _
    isAfter_allocate_of_create) ?_
  rintro poll table₂ ⟨hledger₂, hadds₂, hfree⟩
  have hpoll : table₂ poll = some (.epollfd fun _ => none) := hledger₂.inventory.holds_head
  have hlatch : table₂ latch = some .eventfd :=
    hledger₂.inventory.holds (.event latch) (by simp)
  have hne : poll ≠ latch := hledger₂.ne (Multiset.mem_cons_self _ rs) (by simp [FdResource.footprint])
    (by simp [FdResource.footprint])
  rw [← pair_add] at hledger₂
  refine attachExpected_ends {.latched poll latch} k hledger₂ ?_ hpoll (by rw [hlatch]; rfl) hne rfl rfl ?_
    isAfter_allocate_of_watch ?_ ?_
  · exact ResourceKind.mem_names.mpr ⟨.bare poll, by simp, Multiset.mem_singleton_self poll⟩
  · intro r hr
    obtain rfl := Multiset.mem_singleton.mp hr
    exact ⟨update_self .., by rw [update_of_ne hne.symm, hlatch]⟩
  · intro hnested
    obtain ⟨⟨interest, hinterest⟩, -⟩ := k.nested_law _ _ _ hnested
    rw [hlatch] at hinterest
    cases hinterest
  intro table₃ hledger₃ hadds₃
  refine ends_statePure ⟨hledger₃, (hadds₁.trans hadds₂).trans hadds₃, ?_⟩
  -- what was open is still open after the latch is made
  rw [← Option.not_isSome_iff_eq_none]
  intro hopen
  have hopen₁ := h.isSome_of_subset hledger₁ (Multiset.subset_cons _ _) hopen
  rw [hfree] at hopen₁
  cases hopen₁

/-- A pair comes out of the cache, or is new. -/
theorem latchedInpollCacheAllocate_ends (k : Kernel) (h : Ledger table (pairResources pairs + rs))
    (hcache : latchedInpolls.Holds eventCacheCapacity pairs) :
    Ends (fun q => ∃ pairs', q.1.2.Holds eventCacheCapacity pairs' ∧
        Ledger q.2 (.latched q.1.1.inpoll q.1.1.latch ::ₘ (pairResources pairs' + rs)) ∧
        table.Adds q.2 [(q.1.1.inpoll, q.1.1.latch)] ∧
        (table q.1.1.inpoll = none ∨
          latchedInpolls.inpolls latchedInpolls.eventCache.latest = some q.1.1.inpoll))
      (Exit.IsAfter allocateErrnos) (latchedInpollCacheAllocate k latchedInpolls table) := by
  rw [latchedInpollCacheAllocate_eq, hcache.inpolls.slot_latest]
  cases pairs with
  | nil =>
      refine ends_stateBind (latchedInpollInitialize_ends k h) ?_
      rintro latched table' ⟨hledger, hadds, hfree⟩
      rw [hcache.allocate_nil]
      exact ends_statePure ⟨[], hcache, hledger, hadds, .inl hfree⟩
  | cons pair older =>
      refine ends_stateBind (P := fun q => q.2 = table) rfl ?_
      rintro fresh _ rfl
      obtain ⟨latchedInpolls', hallocate, hholds⟩ :=
        hcache.allocate_cons (b := ⟨true⟩) (fresh.inpoll, fresh.latch)
      rw [hallocate]
      refine ends_statePure ⟨older, hholds, ?_, ?_, .inr rfl⟩
      · simpa [pairResources, ← Multiset.cons_coe] using h
      · exact fun _ _ hmonitors => .inl hmonitors

/-- A pair goes into the cache, and the oldest one of a full cache is closed. -/
theorem latchedInpollCacheLiberate_ends {poll latch : Fd}
    (h : Ledger table (.latched poll latch ::ₘ (pairResources pairs + rs)))
    (hcache : latchedInpolls.Holds eventCacheCapacity pairs) :
    Ends (fun q => ∃ pairs', q.1.Holds eventCacheCapacity pairs' ∧
        Ledger q.2 (pairResources pairs' + rs) ∧ table.Adds q.2 [])
      F (latchedInpollCacheLiberate latchedInpolls (some poll) (some latch) table) := by
  obtain ⟨latchedInpolls', hliberate, hholds⟩ := hcache.liberate eventCacheCapacity_pos (by decide) (poll, latch)
  have hlength : pairs.length ≤ eventCacheCapacity := by simpa using hcache.inpolls.length_le
  set kept := ((poll, latch) :: pairs).take eventCacheCapacity
  have hledger : Ledger table (pairResources pairs[eventCacheCapacity - 1]?.toList + (pairResources kept + rs)) := by
    have hsplit := congrArg (Multiset.map fun pair => FdResource.latched pair.1 pair.2)
      (coe_add_singleton hlength (poll, latch))
    rw [Multiset.map_add, Multiset.map_add, Multiset.map_singleton] at hsplit
    rw [← add_assoc]
    show Ledger table (Multiset.map _ _ + Multiset.map _ _ + rs)
    rw [← hsplit, add_comm (Multiset.map _ _), add_assoc, Multiset.singleton_add]
    exact h
  rw [latchedInpollCacheLiberate_eq, hliberate]
  -- the latch of the oldest pair is closed first, while its inpoll still monitors it
  have hsplit := hledger.split_pairs
  rw [add_left_comm, ← Option.toList_map, ← Option.toList_map] at hsplit
  refine ends_stateBind (closeAll_ends .event (fun _ => rfl) hsplit) ?_
  rintro _ table' ⟨hledger', hadds⟩
  refine ends_stateBind (closeAll_ends .inpoll (fun _ => rfl) hledger') ?_
  rintro _ table'' ⟨hledger'', hadds'⟩
  exact ends_statePure ⟨kept, hholds, hledger'', hadds.trans hadds'⟩

/-- `latched_inpoll_cache_finalize` of the ring of `pairs`. -/
theorem latchedInpollCacheFinalize_ends (h : Ledger table (pairResources pairs + rs))
    (hcache : latchedInpolls.Holds eventCacheCapacity pairs) :
    Ends (fun q => q.1.Holds eventCacheCapacity [] ∧ Ledger q.2 rs ∧ table.Adds q.2 []) F
      (latchedInpollCacheFinalize latchedInpolls table) := by
  obtain ⟨latchedInpolls', hfinalize, hholds⟩ := hcache.finalize
  rw [latchedInpollCacheFinalize_eq hfinalize (RingHolds.latest_lt hcache.eventCache)]
  refine ends_stateBind (closeAll_ends .inpoll (fun _ => rfl) h.split_pairs) ?_
  rintro _ table' ⟨hledger, hadds⟩
  refine ends_stateBind (closeAll_ends .event (fun _ => rfl) hledger) ?_
  rintro _ table'' ⟨hledger', hadds'⟩
  exact ends_statePure ⟨hholds, hledger', hadds.trans hadds'⟩

/-- The caches of a thread that exits, or of a context that is destroyed. -/
theorem threadCachesFinalize_ends {caches : ThreadCaches} {stock : Multiset FdResource} (h : Ledger table (stock + rs))
    (hcaches : caches.Stocks stock) :
    Ends (fun q => q.1.Stocks 0 ∧ Ledger q.2 rs ∧ table.Adds q.2 []) F (caches.finalize table) := by
  obtain ⟨newest, pairs, hevents, hpairs, rfl⟩ := hcaches
  rw [add_assoc] at h
  refine ends_stateBind (eventCacheFinalize_ends h hevents) ?_
  rintro events table' ⟨hevents', hledger, hadds⟩
  refine ends_stateBind (latchedInpollCacheFinalize_ends hledger hpairs) ?_
  rintro latchedInpolls table'' ⟨hpairs', hledger', hadds'⟩
  exact ends_statePure ⟨⟨[], [], hevents', hpairs', rfl⟩, hledger', hadds.trans hadds'⟩

end Udipe.VirtualFds

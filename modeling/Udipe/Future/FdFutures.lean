import Udipe.Future.FdCaches

/-!
# The descriptors of one future

Reference: `future/allocator.c` (`future_sync_initialize`, `future_sync_finalize`), `future/status_sync.h`.

A future of each type has one resource. `future_sync_initialize` makes it and `future_sync_finalize` gives it up,
with the caches of the calling thread.
-/

namespace Udipe.VirtualFds

open Function Checked

/-- What the descriptors of a future are. -/
def futureResource : FutureType → FutureFds → Option FdResource
  | .networkConnect, ⟨some event, none, none⟩ | .networkDisconnect, ⟨some event, none, none⟩
  | .networkSend, ⟨some event, none, none⟩ | .networkRecv, ⟨some event, none, none⟩
  | .custom, ⟨some event, none, none⟩ => some (.event event)
  | .timerOnce, ⟨some timer, none, none⟩ => some (.timer timer)
  | .join, ⟨some poll, some latch, none⟩ => some (.latching poll latch)
  | .unordered, ⟨some poll, some latch, some inner⟩ => some (.chained false poll latch inner)
  | .timerRepeat, ⟨some poll, some latch, some inner⟩ => some (.chained true poll latch inner)
  | _, _ => none

/-- The inpoll that upstream futures are attached to. -/
def collectivePoll (type : FutureType) (fds : FutureFds) : Option Fd :=
  match type with
  | .join => fds.statusSync
  | .unordered => fds.inner
  | _ => none

/-- The cached inpoll that would be used next is still registered with another inpoll. -/
def ThreadCaches.StillMonitored (caches : ThreadCaches) (table : FdTable) : Prop :=
  ∃ poll q, caches.latchedInpolls.inpolls caches.latchedInpolls.eventCache.latest = some poll ∧
    table.Monitors q poll

/-- The cases of the switch that are encountered. -/
def validType : FutureType → Bool
  | .invalid | .numTypes | .outOfRange _ => false
  | _ => true

/-- Why `future_sync_initialize` ends the process. -/
def InitializeExit (type : FutureType) (caches : ThreadCaches) (table : FdTable) (e : Exit) : Prop :=
  e.IsAfter allocateErrnos ∨ e = .unexpected ∧ type = .unordered ∧ caches.StillMonitored table

variable {table : FdTable} {rs stock : Multiset FdResource} {caches : ThreadCaches} {type : FutureType}
  {fds : FutureFds} {r : FdResource} {F : Exit → Prop}

/-- What `future_sync_initialize` does. -/
structure Initialized (type : FutureType) (table : FdTable) (rs : Multiset FdResource) (fds : FutureFds)
    (caches : ThreadCaches) (table' : FdTable) : Prop where
  ledger : ∃ stock r, caches.Stocks stock ∧ futureResource type fds = some r ∧
    Ledger table' (r ::ₘ (stock + rs))
  /-- The new registrations are with the future's own inpoll. -/
  registrations : ∀ poll fd, table'.Monitors poll fd → table.Monitors poll fd ∨ fds.statusSync = some poll
  /-- No upstream is attached yet. -/
  unattached : ∀ poll, collectivePoll type fds = some poll → ∀ fd, table'.Monitors poll fd →
    fds.inpollLatch = some fd

theorem Ledger.monitors_latched {poll latch fd : Fd} (h : Ledger table (.latched poll latch ::ₘ rs))
    (hmonitors : table.Monitors poll fd) : fd = latch := by
  obtain ⟨interest, hpoll, hfd⟩ := hmonitors
  have hlatched : FdResource.Holds table (.latched poll latch) := h.inventory.holds_head
  rw [hlatched.1, Option.some.injEq, VirtualFile.epollfd.injEq] at hpoll
  by_contra hne
  rw [← hpoll, latchInterest, update_of_ne hne] at hfd
  cases hfd

/-- The event of a network or custom future. -/
theorem eagerInitialize_ends (k : Kernel)
    (htype : ∀ event, futureResource type ⟨some event, none, none⟩ = some (.event event))
    (hpoll : ∀ fds, collectivePoll type fds = none) (h : Ledger table (stock + rs)) (hcaches : caches.Stocks stock) :
    Ends (fun q => Initialized type table rs q.1.1 q.1.2 q.2) (Exit.IsAfter createErrnos)
      ((do
        let (event, events) ← eventCacheAllocate k caches.events
        pure ({ FutureFds.invalid with statusSync := some event }, { caches with events }) :
          Syscalls (FutureFds × ThreadCaches)) table) := by
  obtain ⟨newest, pairs, hevents, hpairs, rfl⟩ := hcaches
  rw [add_assoc] at h
  refine ends_stateBind (eventCacheAllocate_ends k h hevents) ?_
  rintro ⟨event, events⟩ table' ⟨newest', hevents', hledger, hadds⟩
  refine ends_statePure ⟨⟨_, _, ⟨newest', pairs, hevents', hpairs, rfl⟩, htype event, ?_⟩, ?_, ?_⟩
  · rwa [add_assoc]
  · exact fun poll fd hmonitors => .inl ((hadds poll fd hmonitors).resolve_right List.not_mem_nil)
  · intro poll hsome
    rw [hpoll] at hsome
    cases hsome

/-- The type of a chained future. -/
def chainedType (repeats : Bool) : FutureType := if repeats then .timerRepeat else .unordered

/-- Its inner descriptor. -/
def innerInitialize (k : Kernel) (repeats : Bool) : Syscalls Fd :=
  if repeats then timerInitialize k else inpollInitialize k

/-- What that is at first. -/
def innerResource (repeats : Bool) (fd : Fd) : FdResource := if repeats then .timer fd else .bare fd

theorem innerInitialize_ends (k : Kernel) (repeats : Bool) (h : Ledger table rs) :
    Ends (fun q => Ledger q.2 (innerResource repeats q.1 ::ₘ rs) ∧ table.Adds q.2 [] ∧ table q.1 = none)
      (Exit.IsAfter createErrnos) (innerInitialize k repeats table) := by
  cases repeats with
  | false => exact create_ends k h .bare (fun _ => rfl) (fun _ _ h => h) (by simp) _ fun _ => id
  | true => exact create_ends k h .timer (fun _ => rfl) (fun _ _ h => h) (by simp) createMessage fun _ => id

theorem innerResource_footprint (repeats : Bool) (fd : Fd) : (innerResource repeats fd).footprint = {fd} := by
  cases repeats <;> rfl

theorem not_monitors_of_innerResource {repeats : Bool} {fd q : Fd} (h : (innerResource repeats fd).Holds table) :
    ¬ table.Monitors fd q := by
  rintro ⟨interest, hfd, hq⟩
  cases repeats with
  | false =>
      have hbare : table fd = some (.epollfd fun _ => none) := h
      rw [hbare, Option.some.injEq, VirtualFile.epollfd.injEq] at hfd
      rw [← hfd] at hq
      cases hq
  | true =>
      have htimer : table fd = some .timerfd := h
      rw [htimer] at hfd
      cases hfd

/-- A pair with an inner descriptor attached to it. -/
theorem chained_holds {repeats : Bool} {poll latch inner : Fd}
    (hlatched : FdResource.Holds table (.latched poll latch)) (hinner : (innerResource repeats inner).Holds table)
    (hlatch : poll ≠ latch) (hne : poll ≠ inner) :
    FdResource.Holds (update table poll (some (.epollfd (chainedInterest latch inner))))
      (.chained repeats poll latch inner) := by
  refine ⟨update_self .., by rw [update_of_ne hlatch.symm, hlatched.2], ?_⟩
  cases repeats with
  | false =>
      have hbare : table inner = some (.epollfd fun _ => none) := hinner
      exact ⟨_, by rw [update_of_ne hne.symm, hbare]⟩
  | true =>
      have htimer : table inner = some .timerfd := hinner
      show update table poll _ inner = some .timerfd
      rw [update_of_ne hne.symm, htimer]

/-- The inner descriptor monitors nothing, so that only an inpoll is nested too deeply, in one that something still
monitors. -/
theorem monitored_of_nested {k : Kernel} {repeats : Bool} {poll inner : Fd}
    (hinner : (innerResource repeats inner).Holds table) (hnested : k.nested table poll inner = true) :
    repeats = false ∧ ∃ q, table.Monitors q poll := by
  obtain ⟨⟨interest, hinterest⟩, hmonitors⟩ := k.nested_law _ _ _ hnested
  refine ⟨?_, hmonitors.resolve_right fun ⟨q, hq⟩ => not_monitors_of_innerResource hinner hq⟩
  cases repeats with
  | false => rfl
  | true =>
      have htimer : table inner = some .timerfd := hinner
      rw [htimer] at hinterest
      cases hinterest

/-- The pair and the inner descriptor of a chained future. -/
theorem chainedInitialize_ends (k : Kernel) (repeats : Bool) (h : Ledger table (stock + rs))
    (hcaches : caches.Stocks stock) :
    Ends (fun q => Initialized (chainedType repeats) table rs q.1.1 q.1.2 q.2)
      (InitializeExit (chainedType repeats) caches table)
      (chainedInitialize k caches (innerInitialize k repeats) table) := by
  obtain ⟨newest, pairs, hevents, hpairs, rfl⟩ := hcaches
  refine ends_stateBind ((innerInitialize_ends k repeats h).of_imp
    fun x hx => .inl (isAfter_allocate_of_create x hx)) ?_
  rintro inner table₁ ⟨hledger₁, hadds₁, -⟩
  have hreorder : Ledger table₁ (pairResources pairs +
      (innerResource repeats inner ::ₘ (eventResources newest + rs))) := by
    rw [Multiset.add_cons, ← add_assoc, add_comm (pairResources pairs)]
    exact hledger₁
  refine ends_stateBind ((latchedInpollCacheAllocate_ends k hreorder hpairs).of_imp fun _ => .inl) ?_
  rintro ⟨⟨poll, latch⟩, latchedInpolls⟩ table₂ ⟨pairs', hpairs', hledger₂, hadds₂, hsource⟩
  dsimp only at hpairs' hledger₂ hadds₂ hsource
  -- the two groups that become one
  have hpair : Ledger table₂ ({.latched poll latch, innerResource repeats inner} +
      (pairResources pairs' + (eventResources newest + rs))) := by
    rw [pair_add, ← Multiset.add_cons]
    exact hledger₂
  have hlatched : FdResource.Holds table₂ (.latched poll latch) := hledger₂.inventory.holds_head
  have hinner : (innerResource repeats inner).Holds table₂ := hledger₂.inventory.holds _ (by simp)
  have hmem : inner ∈ (innerResource repeats inner).footprint := by
    rw [innerResource_footprint]
    exact Multiset.mem_singleton_self inner
  have hne : poll ≠ inner := hledger₂.ne (by simp) (by simp [FdResource.footprint]) hmem
  have hlatchNe : latch ≠ inner := hledger₂.ne (show innerResource repeats inner ∈ _ by simp)
    (by simp [FdResource.footprint]) hmem
  have hpollNe : poll ≠ latch := by
    have hnodup := hledger₂.footprint_nodup
    simpa [FdResource.footprint] using hnodup
  refine attachExpected_ends {.chained repeats poll latch inner} k hpair ?_ hlatched.1
    (FdResource.isSome_of_holds hinner hmem) hne (by rw [latchInterest, update_of_ne hlatchNe.symm]) ?_ ?_
    (fun x hx => .inl (isAfter_allocate_of_watch x hx)) ?_ ?_
  · simp [ResourceKind.names, fdResources, FdResource.footprint, Multiset.insert_eq_cons]
  · cases repeats <;> rfl
  · intro r hr
    obtain rfl := Multiset.mem_singleton.mp hr
    exact chained_holds hlatched hinner hpollNe hne
  · -- the pair is not new, as it is monitored, so that it comes from the cache
    intro hnested
    obtain ⟨rfl, q, hq⟩ := monitored_of_nested hinner hnested
    have hq₁ : table₁.Monitors q poll := by
      refine (hadds₂ q poll hq).resolve_right fun hedge => ?_
      simp only [List.mem_singleton, Prod.mk.injEq] at hedge
      exact hpollNe hedge.2
    have hopen := hreorder.registered q poll hq₁
    rcases hsource with hfree | hcached
    · rw [hfree] at hopen
      cases hopen
    · exact .inr ⟨rfl, rfl, poll, q, hcached, (hadds₁ q poll hq₁).resolve_right List.not_mem_nil⟩
  intro table₃ hledger₃ hadds₃
  have hadds : table.Adds table₃ [(poll, latch), (poll, inner)] := (hadds₁.trans hadds₂).trans hadds₃
  refine ends_statePure ⟨⟨_, .chained repeats poll latch inner, ⟨newest, pairs', hevents, hpairs', rfl⟩,
    ?_, ?_⟩, ?_, ?_⟩
  · cases repeats <;> rfl
  · rw [Multiset.singleton_add, ← add_assoc, add_comm (pairResources pairs')] at hledger₃
    exact hledger₃
  · intro q fd hmonitors
    refine (hadds q fd hmonitors).imp_right fun hedge => ?_
    simp only [List.mem_cons, Prod.mk.injEq, List.not_mem_nil, or_false] at hedge
    rcases hedge with ⟨rfl, -⟩ | ⟨rfl, -⟩ <;> rfl
  · -- the inner inpoll still monitors nothing
    intro q hq fd hmonitors
    obtain rfl : inner = q := by
      cases repeats with
      | false => exact Option.some.inj hq
      | true => cases hq
    exfalso
    rcases hadds₃ inner fd hmonitors with hmonitors | hedge
    · exact not_monitors_of_innerResource hinner hmonitors
    · simp only [List.mem_singleton, Prod.mk.injEq] at hedge
      exact hne hedge.1.symm

/-- The pair of a join future. -/
theorem joinInitialize_ends (k : Kernel) (h : Ledger table (stock + rs)) (hcaches : caches.Stocks stock) :
    Ends (fun q => Initialized .join table rs q.1.1 q.1.2 q.2) (Exit.IsAfter allocateErrnos)
      (futureSyncInitialize k .join caches table) := by
  obtain ⟨newest, pairs, hevents, hpairs, rfl⟩ := hcaches
  rw [add_comm (eventResources newest), add_assoc] at h
  refine ends_stateBind (latchedInpollCacheAllocate_ends k h hpairs) ?_
  rintro ⟨⟨poll, latch⟩, latchedInpolls⟩ table' ⟨pairs', hpairs', hledger, hadds, -⟩
  have hlatched : FdResource.Holds table' (.latched poll latch) := hledger.inventory.holds_head
  have hlatching : Ledger table' ({.latching poll latch} + (pairResources pairs' + (eventResources newest + rs))) := by
    rw [← Multiset.singleton_add] at hledger
    refine hledger.regroup rfl fun r hr => ?_
    obtain rfl := Multiset.mem_singleton.mp hr
    exact ⟨⟨_, hlatched.1, by rw [latchInterest, update_self]⟩, hlatched.2⟩
  refine ends_statePure ⟨⟨_, .latching poll latch, ⟨newest, pairs', hevents, hpairs', rfl⟩, rfl,
    ?_⟩, ?_, ?_⟩
  · rw [Multiset.singleton_add, ← add_assoc, add_comm (pairResources pairs')] at hlatching
    exact hlatching
  · intro q fd hmonitors
    refine (hadds q fd hmonitors).imp_right fun hedge => ?_
    simp only [List.mem_singleton, Prod.mk.injEq] at hedge
    rw [hedge.1]
  · intro q hq fd hmonitors
    obtain rfl : poll = q := Option.some.inj hq
    rw [hledger.monitors_latched hmonitors]

/-- The timer of a `TYPE_TIMER_ONCE` future. -/
theorem timerOnceInitialize_ends (k : Kernel) (h : Ledger table (stock + rs)) (hcaches : caches.Stocks stock) :
    Ends (fun q => Initialized .timerOnce table rs q.1.1 q.1.2 q.2) (Exit.IsAfter createErrnos)
      (futureSyncInitialize k .timerOnce caches table) := by
  refine ends_stateBind (innerInitialize_ends k true h) ?_
  rintro timer table' ⟨hledger, hadds, -⟩
  refine ends_statePure ⟨⟨stock, .timer timer, hcaches, rfl, hledger⟩, ?_, fun poll hpoll => by cases hpoll⟩
  exact fun poll fd hmonitors => .inl ((hadds poll fd hmonitors).resolve_right List.not_mem_nil)

/-- `future_sync_initialize` of any type. -/
theorem futureSyncInitialize_ends (k : Kernel) (htype : validType type = true) (h : Ledger table (stock + rs))
    (hcaches : caches.Stocks stock) :
    Ends (fun q => Initialized type table rs q.1.1 q.1.2 q.2) (InitializeExit type caches table)
      (futureSyncInitialize k type caches table) := by
  cases type with
  | invalid | numTypes | outOfRange => cases htype
  | networkConnect | networkDisconnect | networkSend | networkRecv | custom =>
      exact (eagerInitialize_ends k (fun _ => rfl) (fun _ => rfl) h hcaches).of_imp
        fun x hx => .inl (isAfter_allocate_of_create x hx)
  | timerOnce =>
      exact (timerOnceInitialize_ends k h hcaches).of_imp fun x hx => .inl (isAfter_allocate_of_create x hx)
  | join => exact (joinInitialize_ends k h hcaches).of_imp fun _ => .inl
  | unordered => exact chainedInitialize_ends k false h hcaches
  | timerRepeat => exact chainedInitialize_ends k true h hcaches

/-! ## Finalization -/

/-- What `future_sync_finalize` does. -/
structure Finalized (table : FdTable) (rs : Multiset FdResource) (fds : FutureFds) (caches : ThreadCaches)
    (table' : FdTable) : Prop where
  invalid : fds = .invalid
  ledger : ∃ stock, caches.Stocks stock ∧ Ledger table' (stock + rs)
  registrations : table.Adds table' []

theorem eagerFinalize_ends {event : Fd} (h : Ledger table (.event event ::ₘ (stock + rs)))
    (hcaches : caches.Stocks stock) :
    Ends (fun q => Finalized table rs q.1.1 q.1.2 q.2) F
      ((do
        let events ← eventCacheLiberate caches.events (some event)
        pure ({ FutureFds.invalid with statusSync := none }, { caches with events }) :
          Syscalls (FutureFds × ThreadCaches)) table) := by
  obtain ⟨newest, pairs, hevents, hpairs, rfl⟩ := hcaches
  rw [add_assoc] at h
  refine ends_stateBind (eventCacheLiberate_ends h hevents) ?_
  rintro events table' ⟨newest', hevents', hledger, hadds⟩
  refine ends_statePure ⟨rfl, ⟨_, ⟨newest', pairs, hevents', hpairs, rfl⟩, ?_⟩, hadds⟩
  rwa [add_assoc]

theorem timerOnceFinalize_ends {timer : Fd} (h : Ledger table (.timer timer ::ₘ (stock + rs)))
    (hcaches : caches.Stocks stock) :
    Ends (fun q => Finalized table rs q.1.1 q.1.2 q.2) F
      (futureSyncFinalize .timerOnce ⟨some timer, none, none⟩ caches table) := by
  refine ends_stateBind (closeVirtualFd_ends h rfl) ?_
  rintro _ table' ⟨hledger, hadds⟩
  exact ends_statePure ⟨rfl, ⟨stock, hcaches, hledger⟩, hadds⟩

/-- The latch is attached, whatever else is. -/
theorem joinFinalize_ends {poll latch : Fd} (h : Ledger table (.latching poll latch ::ₘ (stock + rs)))
    (hcaches : caches.Stocks stock) :
    Ends (fun q => Finalized table rs q.1.1 q.1.2 q.2) F
      (futureSyncFinalize .join ⟨some poll, some latch, none⟩ caches table) := by
  obtain ⟨newest, pairs, hevents, hpairs, rfl⟩ := hcaches
  obtain ⟨⟨interest, hpoll, hregistered⟩, hlatch⟩ :
    FdResource.Holds table (.latching poll latch) := h.inventory.holds_head
  have hne : poll ≠ latch := by
    have hnodup := h.footprint_nodup
    simpa [FdResource.footprint] using hnodup
  rw [← Multiset.singleton_add] at h
  refine ends_stateBind (P := fun q => Ledger q.2 ({.event latch, .inpoll poll} +
    (eventResources newest + pairResources pairs + rs)) ∧ table.Adds q.2 []) ?_ ?_
  · refine ends_stateBind (inpollDetach_ends {.event latch, .inpoll poll} h ?_ hpoll
      (by rw [hlatch]; rfl) hne ?_ ?_) ?_
    · simp [ResourceKind.names, fdResources, FdResource.footprint, Multiset.insert_eq_cons]
    · exact Multiset.pair_comm latch poll
    · intro r hr
      rw [Multiset.insert_eq_cons, Multiset.mem_cons, Multiset.mem_singleton] at hr
      rcases hr with rfl | rfl
      · show update table poll _ latch = some .eventfd
        rw [update_of_ne hne.symm, hlatch]
      · exact ⟨_, update_self ..⟩
    rintro result table' (⟨rfl, hledger, hadds⟩ | ⟨-, -, hnone⟩)
    · exact expectDetached_ends (fun _ => ⟨hledger, hadds⟩) (absurd rfl)
    · rw [hregistered] at hnone
      cases hnone
  rintro _ table₁ ⟨hledger₁, hadds₁⟩
  rw [pair_add, ← Multiset.add_cons, add_assoc] at hledger₁
  refine ends_stateBind (eventCacheLiberate_ends hledger₁ hevents) ?_
  rintro events table₂ ⟨newest', hevents', hledger₂, hadds₂⟩
  have hinpoll : Ledger table₂ (.inpoll poll ::ₘ (eventResources newest' + pairResources pairs + rs)) := by
    rwa [Multiset.add_cons, Multiset.add_cons, ← add_assoc] at hledger₂
  refine ends_stateBind (closeVirtualFd_ends hinpoll rfl) ?_
  rintro _ table₃ ⟨hledger₃, hadds₃⟩
  exact ends_statePure ⟨rfl, ⟨_, ⟨newest', pairs, hevents', hpairs, rfl⟩, hledger₃⟩,
    (hadds₁.trans hadds₂).trans hadds₃⟩

/-- The inner descriptor is attached, and nothing but the latch is left when it is detached. -/
theorem chainedFinalize_ends {repeats : Bool} {poll latch inner : Fd}
    (h : Ledger table (.chained repeats poll latch inner ::ₘ (stock + rs))) (hcaches : caches.Stocks stock) :
    Ends (fun q => Finalized table rs q.1.1 q.1.2 q.2) F
      (futureSyncFinalize (chainedType repeats) ⟨some poll, some latch, some inner⟩ caches table) := by
  have heq : futureSyncFinalize (chainedType repeats) ⟨some poll, some latch, some inner⟩ caches =
      futureSyncFinalize .unordered ⟨some poll, some latch, some inner⟩ caches := by
    cases repeats <;> rfl
  rw [heq]
  obtain ⟨newest, pairs, hevents, hpairs, rfl⟩ := hcaches
  obtain ⟨hpoll, hlatch, hinner⟩ : FdResource.Holds table (.chained repeats poll latch inner) :=
    h.inventory.holds_head
  obtain ⟨hpollNe, hne, hlatchNe⟩ : poll ≠ latch ∧ poll ≠ inner ∧ latch ≠ inner := by
    have hnodup := h.footprint_nodup
    simpa [FdResource.footprint, Multiset.insert_eq_cons, not_or, and_assoc] using hnodup
  have hopen : (table inner).isSome = true :=
    FdResource.isSome_of_holds (r := .chained repeats poll latch inner) ⟨hpoll, hlatch, hinner⟩
      (by simp [FdResource.footprint])
  -- the inner descriptor on its own
  let lone : FdResource := if repeats then .timer inner else .inpoll inner
  have hfoot : lone.footprint = {inner} := by cases repeats <;> rfl
  rw [← Multiset.singleton_add] at h
  refine ends_stateBind (P := fun q => Ledger q.2 ({lone, .latched poll latch} +
    (eventResources newest + pairResources pairs + rs)) ∧ table.Adds q.2 []) ?_ ?_
  · refine ends_stateBind (inpollDetach_ends {lone, .latched poll latch} h ?_ hpoll hopen hne ?_ ?_) ?_
    · simp [ResourceKind.names, fdResources, FdResource.footprint, Multiset.insert_eq_cons]
    · have hnames : fdResources.names {lone, .latched poll latch} = lone.footprint + {poll, latch} := rfl
      rw [hnames, hfoot, add_comm]
      rfl
    · intro r hr
      rw [Multiset.insert_eq_cons, Multiset.mem_cons, Multiset.mem_singleton] at hr
      rcases hr with rfl | rfl
      · cases repeats with
        | false =>
            obtain ⟨interest, hinterest⟩ := hinner
            exact ⟨interest, by rw [update_of_ne hne.symm, hinterest]⟩
        | true =>
            have htimer : table inner = some .timerfd := hinner
            show update table poll _ inner = some .timerfd
            rw [update_of_ne hne.symm, htimer]
      · refine ⟨?_, by rw [update_of_ne hpollNe.symm, hlatch]⟩
        have hlatchInterest : update (chainedInterest latch inner) inner none = latchInterest latch := by
          rw [chainedInterest, update_idem, update_eq_self_iff, latchInterest, update_of_ne hlatchNe.symm]
        rw [update_self, hlatchInterest]
    rintro result table' (⟨rfl, hledger, hadds⟩ | ⟨-, -, hnone⟩)
    · exact expectDetached_ends (fun _ => ⟨hledger, hadds⟩) (absurd rfl)
    · rw [chainedInterest, update_self] at hnone
      cases hnone
  rintro _ table₁ ⟨hledger₁, hadds₁⟩
  have hpair : Ledger table₁ (.latched poll latch ::ₘ
      (pairResources pairs + (lone ::ₘ (eventResources newest + rs)))) := by
    rw [pair_add, Multiset.cons_swap, add_comm (eventResources newest), add_assoc, ← Multiset.add_cons] at hledger₁
    exact hledger₁
  refine ends_stateBind (latchedInpollCacheLiberate_ends hpair hpairs) ?_
  rintro latchedInpolls table₂ ⟨pairs', hpairs', hledger₂, hadds₂⟩
  rw [Multiset.add_cons, ← add_assoc, add_comm (pairResources pairs')] at hledger₂
  refine ends_stateBind (closeVirtualFd_ends hledger₂ hfoot) ?_
  rintro _ table₃ ⟨hledger₃, hadds₃⟩
  exact ends_statePure ⟨rfl, ⟨_, ⟨newest, pairs', hevents, hpairs', rfl⟩, hledger₃⟩,
    (hadds₁.trans hadds₂).trans hadds₃⟩

/-- `future_sync_finalize` of any future. -/
theorem futureSyncFinalize_ends (hr : futureResource type fds = some r) (h : Ledger table (r ::ₘ (stock + rs)))
    (hcaches : caches.Stocks stock) :
    Ends (fun q => Finalized table rs q.1.1 q.1.2 q.2) F (futureSyncFinalize type fds caches table) := by
  unfold futureResource at hr
  split at hr
  case h_10 => cases hr
  all_goals obtain rfl := Option.some.inj hr
  case h_6 => exact timerOnceFinalize_ends h hcaches
  case h_7 => exact joinFinalize_ends h hcaches
  case h_8 => exact chainedFinalize_ends h hcaches
  case h_9 => exact chainedFinalize_ends h hcaches
  all_goals exact eagerFinalize_ends h hcaches

end Udipe.VirtualFds

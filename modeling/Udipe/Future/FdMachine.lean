import Udipe.Future.FdFutures
import Udipe.Lib.Machine

/-!
# The descriptors of all futures, over whole runs

Reference: `future/allocator.c` (`future_allocate`, `future_upstream_detach`, `future_liberate`), `future/wait.c`
(`future_wait_join`), `future/allocator/thread_cache.c`.

Threads allocate and liberate futures of any type, and their caches are finalized, in any order. `future_liberate` is
two steps: between `future_upstream_detach` and `future_sync_finalize`, other threads may liberate the upstream
futures. A key stands for one life of a future.
-/

namespace Udipe.VirtualFds

open Function Checked

variable {Tid Key : Type}

/-- A future that has not been liberated. -/
structure FutureRecord (Key : Type) where
  type : FutureType
  fds : FutureFds
  /-- The futures in `collective_upstream_t`, none once they are detached. -/
  upstream : List Key

structure FdState (Tid Key : Type) where
  table : FdTable
  caches : Tid → ThreadCaches
  futures : Key → Option (FutureRecord Key)

/-- No future yet, and empty caches. -/
def FdState.start : FdState Tid Key where
  table := fun _ => none
  caches := fun _ => .initial
  futures := fun _ => none

inductive FdEvent (Tid Key : Type) where
  /-- Thread `t` allocates future `i`. -/
  | allocate (t : Tid) (i : Key) (type : FutureType) (upstream : List Key) (k : Kernel)
  /-- Upstream `j` is attached to the inpoll of the collective future `i`. -/
  | attach (i j : Key) (identifier : ℕ) (k : Kernel)
  /-- Upstream `j` has its outcome, and is detached. -/
  | detach (i j : Key)
  /-- `future_upstream_detach` of future `i`. -/
  | release (i : Key)
  /-- `future_sync_finalize` of future `i` by thread `t`. -/
  | liberate (t : Tid) (i : Key)
  /-- The caches of thread `t` are finalized. -/
  | finalize (t : Tid)

/-- What future `i` may be awaiting. -/
def collectiveType : FutureType → Bool
  | .join | .unordered => true
  | _ => false

/-- What the callers of the functions see to. -/
def FdState.Legal (s : FdState Tid Key) : FdEvent Tid Key → Prop
  | .allocate _ i type upstream _ =>
      s.futures i = none ∧ validType type = true ∧ (upstream ≠ [] → collectiveType type = true) ∧
        ∀ j ∈ upstream, (s.futures j).isSome = true
  | .attach i j _ _ | .detach i j => ∃ r, s.futures i = some r ∧ j ∈ r.upstream
  | .release i => (s.futures i).isSome = true
  -- the downstream count is zero
  | .liberate _ i => (∃ r, s.futures i = some r ∧ r.upstream = []) ∧
      ∀ k r, s.futures k = some r → i ∉ r.upstream
  | .finalize _ => True

/-- The descriptors of a call to `inpoll_attach` or `inpoll_detach`. -/
def FdState.edge (s : FdState Tid Key) (i j : Key) : Option (Fd × Fd) := do
  let r ← s.futures i
  let upstream ← s.futures j
  let poll ← collectivePoll r.type r.fds
  let fd ← upstream.fds.statusSync
  pure (poll, fd)

variable [DecidableEq Tid] [DecidableEq Key]

/-- One event. -/
def fdStep (s : FdState Tid Key) : FdEvent Tid Key → Except Exit (FdState Tid Key)
  | .allocate t i type upstream k => do
      let ((fds, caches), table) ← futureSyncInitialize k type (s.caches t) s.table
      pure { table
             caches := update s.caches t caches
             futures := update s.futures i (some { type, fds, upstream }) }
  | .attach i j identifier k => do
      let (poll, fd) ← ofOption .unexpected (s.edge i j)
      let (_, table) ← inpollAttach k poll fd identifier s.table
      pure { s with table }
  | .detach i j => do
      let (poll, fd) ← ofOption .unexpected (s.edge i j)
      let (_, table) ← inpollDetach poll fd s.table
      pure { s with table }
  | .release i => do
      let r ← ofOption .unexpected (s.futures i)
      pure { s with futures := update s.futures i (some { r with upstream := [] }) }
  | .liberate t i => do
      let r ← ofOption .unexpected (s.futures i)
      let ((_, caches), table) ← futureSyncFinalize r.type r.fds (s.caches t) s.table
      pure { table
             caches := update s.caches t caches
             futures := update s.futures i none }
  | .finalize t => do
      let (caches, table) ← (s.caches t).finalize s.table
      pure { s with table, caches := update s.caches t caches }

/-- The machine of the descriptors. -/
def fdMachine : Machine (FdState Tid Key) (FdEvent Tid Key) where
  step s e := (fdStep s e).toOption

/-! ## Who has which descriptor -/

/-- A thread, through its caches, or a future. -/
inductive Owner (Tid Key : Type) where
  | thread (t : Tid)
  | future (i : Key)

/-- A descriptor is in a cache of the thread or in the future. -/
def FdState.Has (s : FdState Tid Key) (fd : Fd) : Owner Tid Key → Prop
  | .thread t => ∃ slot < eventCacheCapacity, (s.caches t).events.events slot = some fd ∨
      (s.caches t).latchedInpolls.inpolls slot = some fd ∨
      (s.caches t).latchedInpolls.eventCache.events slot = some fd
  | .future i => ∃ r, s.futures i = some r ∧
      (r.fds.statusSync = some fd ∨ r.fds.inpollLatch = some fd ∨ r.fds.inner = some fd)

/-- The resources of a future. -/
def FutureRecord.Owns (r : FutureRecord Key) (rs : Multiset FdResource) : Prop :=
  ∃ resource, futureResource r.type r.fds = some resource ∧ rs = {resource}

/-- `own` says who owns what. -/
structure FdState.Owned (s : FdState Tid Key) (own : Owner Tid Key →₀ Multiset FdResource) : Prop where
  ledger : Ledger s.table (holdings own)
  caches : ∀ t, (s.caches t).Stocks (own (.thread t))
  futures : ∀ i r, s.futures i = some r → r.Owns (own (.future i))
  liberated : ∀ i, s.futures i = none → own (.future i) = 0

/-- What holds in every state. -/
structure FdState.Invariant (s : FdState Tid Key) : Prop where
  owned : ∃ own, s.Owned own
  /-- The futures that are awaited have not been liberated. -/
  live : ∀ i r, s.futures i = some r → ∀ j ∈ r.upstream, (s.futures j).isSome = true
  distinct : ∀ i r, s.futures i = some r → i ∉ r.upstream
  collective : ∀ i r, s.futures i = some r → r.upstream ≠ [] → collectiveType r.type = true
  /-- What is attached to a collective future is what it awaits. -/
  attached : ∀ i r poll fd, s.futures i = some r → r.upstream ≠ [] → collectivePoll r.type r.fds = some poll →
    s.table.Monitors poll fd → r.fds.inpollLatch = some fd ∨
      ∃ j ∈ r.upstream, ∃ upstream, s.futures j = some upstream ∧ upstream.fds.statusSync = some fd

/-- Why an event ends the process. -/
def FdState.ExitsWith (s : FdState Tid Key) (x : Exit) : FdEvent Tid Key → Prop
  | .allocate t _ type _ _ => InitializeExit type (s.caches t) s.table x
  | .attach _ _ _ _ => x.IsAfter watchErrnos
  | _ => False

omit [DecidableEq Tid] [DecidableEq Key] in
theorem invariant_start : (FdState.start : FdState Tid Key).Invariant where
  owned := ⟨0, by rw [holdings_zero]; exact ledger_empty, fun _ => stocks_initial,
    fun _ _ h => (by cases h), fun _ _ => rfl⟩
  live := fun _ _ h => by cases h
  distinct := fun _ _ h => by cases h
  collective := fun _ _ h => by cases h
  attached := fun _ _ _ _ h => by cases h

theorem mem_footprint_iff {type : FutureType} {fds : FutureFds} {resource : FdResource} {fd : Fd}
    (h : futureResource type fds = some resource) :
    fd ∈ resource.footprint ↔ fds.statusSync = some fd ∨ fds.inpollLatch = some fd ∨ fds.inner = some fd := by
  unfold futureResource at h
  split at h
  case h_10 => cases h
  all_goals
    obtain rfl := Option.some.inj h
    simp [FdResource.footprint, Multiset.insert_eq_cons, eq_comm]

/-- The inpoll of a collective future, among its resource. -/
theorem futureResource_of_collectivePoll {type : FutureType} {fds : FutureFds} {resource : FdResource} {poll : Fd}
    (h : futureResource type fds = some resource) (hpoll : collectivePoll type fds = some poll) :
    (∃ latch, fds.inpollLatch = some latch ∧ resource = .latching poll latch) ∨
      ∃ p latch, fds.inpollLatch = some latch ∧ resource = .chained false p latch poll := by
  unfold futureResource at h
  split at h
  case h_10 => cases h
  case h_7 =>
    obtain rfl := Option.some.inj h
    obtain rfl := Option.some.inj hpoll
    exact .inl ⟨_, rfl, rfl⟩
  case h_8 =>
    obtain rfl := Option.some.inj h
    obtain rfl := Option.some.inj hpoll
    exact .inr ⟨_, _, rfl, rfl⟩
  all_goals cases hpoll

variable {s : FdState Tid Key} {own : Owner Tid Key →₀ Multiset FdResource} {fd : Fd}

omit [DecidableEq Tid] [DecidableEq Key] in
theorem mem_names_stock {caches : ThreadCaches} {stock : Multiset FdResource} (h : caches.Stocks stock) :
    fd ∈ fdResources.names stock ↔ ∃ slot < eventCacheCapacity, caches.events.events slot = some fd ∨
      caches.latchedInpolls.inpolls slot = some fd ∨ caches.latchedInpolls.eventCache.events slot = some fd := by
  obtain ⟨newest, pairs, hevents, hpairs, rfl⟩ := h
  have hmem : fd ∈ fdResources.names (eventResources newest + pairResources pairs) ↔
      fd ∈ newest ∨ fd ∈ pairs.map Prod.fst ∨ fd ∈ pairs.map Prod.snd := by
    rw [ResourceKind.names_add, Multiset.mem_add]
    simp only [ResourceKind.mem_names, eventResources, pairResources, fdResources, FdResource.footprint,
      Multiset.mem_map, Multiset.mem_coe, List.mem_map]
    constructor
    · rintro (⟨_, ⟨e, he, rfl⟩, hfd⟩ | ⟨_, ⟨pair, hpair, rfl⟩, hfd⟩)
      · exact .inl (Multiset.mem_singleton.mp hfd ▸ he)
      · replace hfd : fd ∈ ({pair.1, pair.2} : Multiset Fd) := hfd
        rw [Multiset.insert_eq_cons, Multiset.mem_cons, Multiset.mem_singleton] at hfd
        rcases hfd with rfl | rfl
        · exact .inr (.inl ⟨pair, hpair, rfl⟩)
        · exact .inr (.inr ⟨pair, hpair, rfl⟩)
    · rintro (he | ⟨pair, hpair, rfl⟩ | ⟨pair, hpair, rfl⟩)
      · exact .inl ⟨_, ⟨fd, he, rfl⟩, Multiset.mem_singleton_self fd⟩
      · exact .inr ⟨_, ⟨pair, hpair, rfl⟩, by simp⟩
      · exact .inr ⟨_, ⟨pair, hpair, rfl⟩, by simp⟩
  rw [hmem, RingHolds.mem_iff hevents, hpairs.inpolls.mem_iff, RingHolds.mem_iff hpairs.eventCache]
  constructor
  · rintro (⟨slot, hslot, h⟩ | ⟨slot, hslot, h⟩ | ⟨slot, hslot, h⟩)
    · exact ⟨slot, hslot, .inl h⟩
    · exact ⟨slot, hslot, .inr (.inl h)⟩
    · exact ⟨slot, hslot, .inr (.inr h)⟩
  · rintro ⟨slot, hslot, h | h | h⟩
    · exact .inl ⟨slot, hslot, h⟩
    · exact .inr (.inl ⟨slot, hslot, h⟩)
    · exact .inr (.inr ⟨slot, hslot, h⟩)

omit [DecidableEq Tid] [DecidableEq Key] in
theorem FdState.Owned.has_iff (h : s.Owned own) (o : Owner Tid Key) :
    s.Has fd o ↔ fd ∈ fdResources.names (own o) := by
  cases o with
  | thread t => exact (mem_names_stock (h.caches t)).symm
  | future i =>
      cases hfuture : s.futures i with
      | none => simp [FdState.Has, hfuture, h.liberated i hfuture]
      | some r =>
          obtain ⟨resource, hresource, hown⟩ := h.futures i r hfuture
          rw [hown, ← Multiset.cons_zero, ResourceKind.names_cons, ResourceKind.names_zero, add_zero]
          show _ ↔ fd ∈ resource.footprint
          rw [mem_footprint_iff hresource]
          simp [FdState.Has, hfuture]

omit [DecidableEq Tid] [DecidableEq Key] in
/-- A descriptor has one owner. -/
theorem FdState.Owned.has_unique (h : s.Owned own) {o o' : Owner Tid Key} (ho : s.Has fd o) (ho' : s.Has fd o') :
    o = o' :=
  h.ledger.inventory.owner_unique ((h.has_iff o).mp ho) ((h.has_iff o').mp ho')

omit [DecidableEq Tid] [DecidableEq Key] in
/-- The open descriptors have owners. -/
theorem FdState.Owned.isSome_iff (h : s.Owned own) : (s.table fd).isSome = true ↔ ∃ o, s.Has fd o := by
  rw [h.ledger.inventory.isSome_iff, ResourceKind.mem_names]
  simp only [mem_holdings, h.has_iff, ResourceKind.mem_names]
  grind

/-! ## One event -/

/-- Two owners change, and the others keep what they own. -/
theorem FdState.Owned.update₂ (h : s.Owned own) {t : Tid} {i : Key} {s' : FdState Tid Key}
    {stock rs : Multiset FdResource}
    {caches : ThreadCaches} {future : Option (FutureRecord Key)}
    (hcaches : s'.caches = update s.caches t caches) (hstock : caches.Stocks stock)
    (hfutures : s'.futures = update s.futures i future) (hsome : ∀ r, future = some r → r.Owns rs)
    (hnone : future = none → rs = 0)
    (hledger : Ledger s'.table (holdings ((own.update (.thread t) stock).update (.future i) rs))) :
    s'.Owned ((own.update (.thread t) stock).update (.future i) rs) := by
  classical
  refine ⟨hledger, fun t' => ?_, fun i' r hr => ?_, fun i' hi' => ?_⟩
  · rw [hcaches]
    rcases eq_or_ne t' t with rfl | hne
    · simpa [Finsupp.update_apply] using hstock
    · simpa [Finsupp.update_apply, hne] using h.caches t'
  · rw [hfutures] at hr
    rcases eq_or_ne i' i with rfl | hne
    · rw [update_self] at hr
      simpa [Finsupp.update_apply] using hsome r hr
    · rw [update_of_ne hne] at hr
      simpa [Finsupp.update_apply, hne] using h.futures i' r hr
  · rw [hfutures] at hi'
    rcases eq_or_ne i' i with rfl | hne
    · rw [update_self] at hi'
      simpa [Finsupp.update_apply] using hnone hi'
    · rw [update_of_ne hne] at hi'
      simpa [Finsupp.update_apply, hne] using h.liberated i' hi'

theorem allocate_ends (h : s.Invariant) {t : Tid} {i : Key} {type : FutureType} {upstream : List Key} {k : Kernel}
    (hlegal : s.Legal (.allocate t i type upstream k)) :
    Ends FdState.Invariant (InitializeExit type (s.caches t) s.table) (fdStep s (.allocate t i type upstream k)) := by
  obtain ⟨hnone, htype, hcollective, hupstream⟩ := hlegal
  obtain ⟨own, howned⟩ := h.owned
  obtain ⟨rest, hsplit, hupdate⟩ := holdings_update₂ own
    (show Owner.thread t ≠ Owner.future i by simp)
  have hledger := howned.ledger
  rw [hsplit, howned.liberated i hnone, add_zero] at hledger
  refine ends_bind (futureSyncInitialize_ends k htype hledger (howned.caches t)) ?_
  rintro ⟨⟨fds, caches⟩, table⟩ ⟨⟨stock, resource, hstock, hresource, hledger'⟩,
    hregistrations, hunattached⟩
  set s' : FdState Tid Key :=
    { table, caches := update s.caches t caches, futures := update s.futures i (some { type, fds, upstream }) }
  have hnew : s'.Owned ((own.update (.thread t) stock).update (.future i) {resource}) := by
    refine howned.update₂ rfl hstock rfl (fun r hr => ?_) (by simp) ?_
    · cases hr
      exact ⟨resource, hresource, rfl⟩
    · rw [hupdate, add_comm stock, add_assoc, Multiset.singleton_add]
      exact hledger'
  have hi : s'.futures i = some { type, fds, upstream } := update_self ..
  have hother : ∀ j, j ≠ i → s'.futures j = s.futures j := fun j hne => update_of_ne hne ..
  have hlive : ∀ j, (s.futures j).isSome = true → j ≠ i := by
    rintro j hj rfl
    rw [hnone] at hj
    cases hj
  refine ends_pure ⟨⟨_, hnew⟩, fun i' r hr j hj => ?_, fun i' r hr => ?_, fun i' r hr => ?_,
    fun i' r poll fd hr hawaits hpoll hmonitors => ?_⟩
  · have hj' : (s.futures j).isSome = true := by
      rcases eq_or_ne i' i with rfl | hne
      · obtain rfl := Option.some.inj (hi.symm.trans hr)
        exact hupstream j hj
      · exact h.live i' r (by rwa [← hother i' hne]) j hj
    rwa [hother j (hlive j hj')]
  · rcases eq_or_ne i' i with rfl | hne
    · obtain rfl := Option.some.inj (hi.symm.trans hr)
      exact fun hmem => hlive i' (hupstream i' hmem) rfl
    · exact h.distinct i' r (by rwa [← hother i' hne])
  · rcases eq_or_ne i' i with rfl | hne
    · obtain rfl := Option.some.inj (hi.symm.trans hr)
      exact hcollective
    · exact h.collective i' r (by rwa [← hother i' hne])
  · rcases eq_or_ne i' i with rfl | hne
    · obtain rfl := Option.some.inj (hi.symm.trans hr)
      exact .inl (hunattached poll hpoll fd hmonitors)
    · have hr' : s.futures i' = some r := by rwa [← hother i' hne]
      rcases hregistrations poll fd hmonitors with hmonitors | hsync
      · refine (h.attached i' r poll fd hr' hawaits hpoll hmonitors).imp_right ?_
        rintro ⟨j, hj, upstream', hupstream', hfd⟩
        exact ⟨j, hj, upstream', by rwa [hother j (hlive j (by rw [hupstream']; rfl))], hfd⟩
      · -- the new registrations are with the inpoll of the new future
        obtain ⟨resource', hresource', -⟩ := hnew.futures i' r hr
        have hmem : poll ∈ resource'.footprint := by
          rcases futureResource_of_collectivePoll hresource' hpoll with ⟨latch, -, rfl⟩ | ⟨p, latch, -, rfl⟩ <;>
            simp [FdResource.footprint]
        have hhas : s'.Has poll (.future i') := ⟨r, hr, (mem_footprint_iff hresource').mp hmem⟩
        have hhas' : s'.Has poll (.future i) := ⟨_, hi, .inl hsync⟩
        exact absurd (Owner.future.inj (hnew.has_unique hhas hhas')) hne

omit [DecidableEq Tid] [DecidableEq Key] in
/-- What a call to `inpoll_attach` or `inpoll_detach` is about. -/
theorem FdState.Invariant.edge_eq (h : s.Invariant) {i j : Key} {r : FutureRecord Key} (hr : s.futures i = some r)
    (hj : j ∈ r.upstream) :
    ∃ poll fd upstream, s.edge i j = some (poll, fd) ∧ collectivePoll r.type r.fds = some poll ∧
      s.futures j = some upstream ∧ upstream.fds.statusSync = some fd := by
  obtain ⟨own, howned⟩ := h.owned
  have hcollective := h.collective i r hr (List.ne_nil_of_mem hj)
  obtain ⟨upstream, hupstream⟩ := Option.isSome_iff_exists.mp (h.live i r hr j hj)
  obtain ⟨resource, hresource, -⟩ := howned.futures i r hr
  obtain ⟨resource', hresource', -⟩ := howned.futures j upstream hupstream
  have hpoll : ∃ poll, collectivePoll r.type r.fds = some poll := by
    unfold futureResource at hresource
    split at hresource <;> simp_all [collectivePoll, collectiveType]
  have hfd : ∃ fd, upstream.fds.statusSync = some fd := by
    unfold futureResource at hresource'
    split at hresource' <;> simp_all
  obtain ⟨poll, hpoll⟩ := hpoll
  obtain ⟨fd, hfd⟩ := hfd
  exact ⟨poll, fd, upstream, by simp [FdState.edge, hr, hupstream, hpoll, hfd], hpoll, hupstream, hfd⟩

omit [DecidableEq Tid] [DecidableEq Key] in
/-- Only the registrations of a future with what it awaits change. -/
theorem FdState.Invariant.of_registrations (h : s.Invariant) {i j : Key} {r upstream : FutureRecord Key} {poll fd : Fd}
    (hr : s.futures i = some r) (hj : j ∈ r.upstream) (hpoll : collectivePoll r.type r.fds = some poll)
    (hupstream : s.futures j = some upstream) (hfd : upstream.fds.statusSync = some fd) {table : FdTable}
    (howned : s.Owned own) (hledger : Ledger table (holdings own)) (hadds : s.table.Adds table [(poll, fd)]) :
    FdState.Invariant { s with table } := by
  have hmem : ∀ i r, s.futures i = some r → collectivePoll r.type r.fds = some poll → s.Has poll (.future i) := by
    intro i r hr hpoll
    obtain ⟨resource, hresource, -⟩ := howned.futures i r hr
    refine ⟨r, hr, (mem_footprint_iff hresource).mp ?_⟩
    rcases futureResource_of_collectivePoll hresource hpoll with ⟨latch, -, rfl⟩ | ⟨p, latch, -, rfl⟩ <;>
      simp [FdResource.footprint]
  refine ⟨⟨own, hledger, howned.caches, howned.futures, howned.liberated⟩, h.live, h.distinct, h.collective,
    fun i' r' q fd' hr' hawaits hq hmonitors => ?_⟩
  rcases hadds q fd' hmonitors with hmonitors | hedge
  · exact h.attached i' r' q fd' hr' hawaits hq hmonitors
  · -- the inpoll that is registered with belongs to future `i`
    simp only [List.mem_singleton, Prod.mk.injEq] at hedge
    obtain ⟨rfl, rfl⟩ := hedge
    obtain rfl := Owner.future.inj (howned.has_unique (hmem i' r' hr' hq) (hmem i r hr hpoll))
    obtain rfl := Option.some.inj (hr.symm.trans hr')
    exact .inr ⟨j, hj, upstream, hupstream, hfd⟩

/-- A descriptor of another future may be registered with the inpoll, or no longer be. -/
theorem FdResource.Holds.register {resource : FdResource} {table : FdTable} {poll latch : Fd}
    (h : resource.Holds table) (hnodup : resource.footprint.Nodup)
    (hresource : resource = .latching poll latch ∨ ∃ p, resource = .chained false p latch poll)
    (hfd : fd ∉ resource.footprint) {interest : Fd → Option ℕ} (hpoll : table poll = some (.epollfd interest))
    (identifier : Option ℕ) :
    resource.Holds (update table poll (some (.epollfd (update interest fd identifier)))) := by
  rcases hresource with rfl | ⟨p, rfl⟩
  · obtain ⟨⟨interest', hpoll', hregistered⟩, hlatch⟩ := h
    rw [hpoll, Option.some.injEq, VirtualFile.epollfd.injEq] at hpoll'
    have hne : latch ≠ poll := by simpa [FdResource.footprint, eq_comm] using hnodup
    have hfd' : latch ≠ fd := by
      rintro rfl
      simp [FdResource.footprint] at hfd
    exact ⟨⟨_, update_self .., by rw [update_of_ne hfd', hpoll', hregistered]⟩,
      by rw [update_of_ne hne, hlatch]⟩
  · obtain ⟨hp, hlatch, -⟩ := h
    obtain ⟨-, hne, hne'⟩ : p ≠ latch ∧ p ≠ poll ∧ latch ≠ poll := by
      simpa [FdResource.footprint, Multiset.insert_eq_cons, not_or, and_assoc] using hnodup
    exact ⟨by rw [update_of_ne hne, hp], by rw [update_of_ne hne', hlatch], ⟨_, update_self ..⟩⟩

omit [DecidableEq Tid] [DecidableEq Key] in
/-- `epoll_ctl` of an upstream future and of the inpoll of a collective future. -/
theorem FdState.Invariant.registration (h : s.Invariant) {i j : Key} {r : FutureRecord Key}
    (hr : s.futures i = some r) (hj : j ∈ r.upstream) :
    ∃ poll fd interest resource rest, s.edge i j = some (poll, fd) ∧ Ledger s.table ({resource} + rest) ∧
      poll ∈ fdResources.names {resource} ∧ s.table poll = some (.epollfd interest) ∧
      (s.table fd).isSome = true ∧
      poll ≠ fd ∧
      (∀ identifier, ∀ r ∈ ({resource} : Multiset FdResource),
        r.Holds (update s.table poll (some (.epollfd (update interest fd identifier))))) ∧
      ∀ table, Ledger table ({resource} + rest) → s.table.Adds table [(poll, fd)] →
        FdState.Invariant { s with table } := by
  obtain ⟨poll, fd, upstream, hedge, hpoll, hupstream, hfd⟩ := h.edge_eq hr hj
  obtain ⟨own, howned⟩ := h.owned
  obtain ⟨resource, hresource, hown⟩ := howned.futures i r hr
  obtain ⟨rest, hsplit, -⟩ := holdings_update own (.future i)
  rw [hown] at hsplit
  have hledger := howned.ledger
  rw [hsplit] at hledger
  have hholds : resource.Holds s.table := hledger.inventory.holds resource (by simp)
  have hnodup : resource.footprint.Nodup := by
    rw [Multiset.singleton_add] at hledger
    exact hledger.footprint_nodup
  have hmem : poll ∈ resource.footprint := by
    rcases futureResource_of_collectivePoll hresource hpoll with ⟨latch, -, rfl⟩ | ⟨p, latch, -, rfl⟩ <;>
      simp [FdResource.footprint]
  -- the upstream future is another one, and so are its descriptors
  have hhas : s.Has fd (.future j) := ⟨upstream, hupstream, .inl hfd⟩
  have hne : fd ∉ resource.footprint := by
    intro hmem'
    have hhas' : s.Has fd (.future i) := ⟨r, hr, (mem_footprint_iff hresource).mp hmem'⟩
    obtain rfl := Owner.future.inj (howned.has_unique hhas hhas')
    exact h.distinct j r hr hj
  obtain ⟨latch, hshape⟩ : ∃ latch, resource = .latching poll latch ∨
      ∃ p, resource = .chained false p latch poll := by
    rcases futureResource_of_collectivePoll hresource hpoll with ⟨latch, -, hlatching⟩ | ⟨p, latch, -, hchained⟩
    · exact ⟨latch, .inl hlatching⟩
    · exact ⟨latch, .inr ⟨p, hchained⟩⟩
  obtain ⟨interest, hinterest⟩ : s.table.IsInpoll poll := by
    rcases hshape with rfl | ⟨p, rfl⟩
    · exact ⟨_, hholds.1.choose_spec.1⟩
    · exact hholds.2.2
  refine ⟨poll, fd, interest, resource, rest, hedge, hledger, ?_, hinterest,
    howned.isSome_iff.mpr ⟨_, hhas⟩, ?_, ?_, ?_⟩
  · exact ResourceKind.mem_names.mpr ⟨resource, by simp, hmem⟩
  · rintro rfl
    exact hne hmem
  · intro identifier r hr
    obtain rfl := Multiset.mem_singleton.mp hr
    exact hholds.register hnodup hshape hne hinterest identifier
  · intro table htable hadds
    exact h.of_registrations hr hj hpoll hupstream hfd howned (by rwa [hsplit]) hadds

theorem attach_ends (h : s.Invariant) {i j : Key} {identifier : ℕ} {k : Kernel}
    (hlegal : s.Legal (.attach i j identifier k)) :
    Ends FdState.Invariant (Exit.IsAfter watchErrnos) (fdStep s (.attach i j identifier k)) := by
  obtain ⟨r, hr, hj⟩ := hlegal
  obtain ⟨poll, fd, interest, resource, rest, hedge, hledger, hmem, hpoll, hfd, hne,
    hholds, hafter⟩ := h.registration hr hj
  simp only [fdStep, hedge, ofOption_some, ok_bind]
  refine ends_bind (inpollAttach_ends _ k hledger hmem hpoll hfd hne rfl (hholds _) fun _ => id) ?_
  rintro ⟨result, table⟩ (⟨-, hledger', hadds⟩ | ⟨-, rfl, -⟩ | ⟨-, rfl, -⟩)
  · exact hafter table hledger' hadds
  · exact h
  · exact h

theorem detach_ends (h : s.Invariant) {i j : Key} (hlegal : s.Legal (.detach i j)) :
    Ends FdState.Invariant (fun _ => False) (fdStep s (.detach i j)) := by
  obtain ⟨r, hr, hj⟩ := hlegal
  obtain ⟨poll, fd, interest, resource, rest, hedge, hledger, hmem, hpoll, hfd, hne,
    hholds, hafter⟩ := h.registration hr hj
  simp only [fdStep, hedge, ofOption_some, ok_bind]
  refine ends_bind (inpollDetach_ends _ hledger hmem hpoll hfd hne rfl (hholds _)) ?_
  rintro ⟨result, table⟩ (⟨-, hledger', hadds⟩ | ⟨-, rfl, -⟩)
  · exact hafter table hledger' fun q fd' hmonitors =>
      .inl ((hadds q fd' hmonitors).resolve_right List.not_mem_nil)
  · exact h

/-- The future awaits nothing any more. -/
theorem release_ends (h : s.Invariant) {i : Key} (hlegal : s.Legal (.release i)) :
    Ends FdState.Invariant (fun _ => False) (fdStep s (.release i)) := by
  obtain ⟨r, hr⟩ := Option.isSome_iff_exists.mp hlegal
  simp only [fdStep, hr, ofOption_some, ok_bind]
  obtain ⟨own, howned⟩ := h.owned
  set s' : FdState Tid Key := { s with futures := update s.futures i (some { r with upstream := [] }) }
  have hfutures : ∀ i' r', s'.futures i' = some r' →
      ∃ r, s.futures i' = some r ∧ r'.type = r.type ∧ r'.fds = r.fds ∧
        (r'.upstream = [] ∨ r'.upstream = r.upstream) := by
    intro i' r' hr'
    rcases eq_or_ne i' i with rfl | hne
    · have hself : s'.futures i' = some { r with upstream := [] } := update_self ..
      obtain rfl := Option.some.inj (hself.symm.trans hr')
      exact ⟨r, hr, rfl, rfl, .inl rfl⟩
    · exact ⟨r', by rwa [← update_of_ne hne (some { r with upstream := [] }) s.futures], rfl, rfl, .inr rfl⟩
  have hback : ∀ j upstream, s.futures j = some upstream →
      ∃ upstream', s'.futures j = some upstream' ∧ upstream'.fds = upstream.fds := by
    intro j upstream hj
    rcases eq_or_ne j i with rfl | hne
    · obtain rfl := Option.some.inj (hr.symm.trans hj)
      exact ⟨_, update_self .., rfl⟩
    · exact ⟨upstream, by rw [← hj]; exact update_of_ne hne .., rfl⟩
  refine ends_pure (a := s') ⟨⟨own, howned.ledger, howned.caches, fun i' r' hr' => ?_, fun i' hi' => ?_⟩,
    fun i' r' hr' j hj => ?_, fun i' r' hr' => ?_, fun i' r' hr' hne => ?_,
    fun i' r' poll fd hr' hawaits hpoll hmonitors => ?_⟩
  · obtain ⟨r, hr, htype, hfds, -⟩ := hfutures i' r' hr'
    obtain ⟨resource, hresource, hown⟩ := howned.futures i' r hr
    exact ⟨resource, by rw [htype, hfds, hresource], hown⟩
  · refine howned.liberated i' ?_
    cases hfuture : s.futures i' with
    | none => rfl
    | some upstream =>
        obtain ⟨upstream', hupstream', -⟩ := hback i' upstream hfuture
        rw [hi'] at hupstream'
        cases hupstream'
  · obtain ⟨r, hr, -, -, hnil | hsame⟩ := hfutures i' r' hr'
    · rw [hnil] at hj
      cases hj
    · obtain ⟨upstream, hupstream⟩ := Option.isSome_iff_exists.mp (h.live i' r hr j (hsame ▸ hj))
      obtain ⟨upstream', hupstream', -⟩ := hback j upstream hupstream
      rw [hupstream']
      rfl
  · obtain ⟨r, hr, -, -, hnil | hsame⟩ := hfutures i' r' hr'
    · rw [hnil]
      exact List.not_mem_nil
    · rw [hsame]
      exact h.distinct i' r hr
  · obtain ⟨r, hr, htype, -, hnil | hsame⟩ := hfutures i' r' hr'
    · exact absurd hnil hne
    · rw [htype]
      exact h.collective i' r hr (hsame ▸ hne)
  · obtain ⟨r, hr, htype, hfds, hnil | hsame⟩ := hfutures i' r' hr'
    · exact absurd hnil hawaits
    · rw [htype, hfds] at hpoll
      rw [hfds, hsame]
      refine (h.attached i' r poll fd hr (hsame ▸ hawaits) hpoll hmonitors).imp_right ?_
      rintro ⟨j, hj, upstream, hupstream, hfd⟩
      obtain ⟨upstream', hupstream', hfds'⟩ := hback j upstream hupstream
      exact ⟨j, hj, upstream', hupstream', by rw [hfds', hfd]⟩

theorem liberate_ends (h : s.Invariant) {t : Tid} {i : Key} (hlegal : s.Legal (.liberate t i)) :
    Ends FdState.Invariant (fun _ => False) (fdStep s (.liberate t i)) := by
  obtain ⟨⟨r, hr, -⟩, hunused⟩ := hlegal
  obtain ⟨own, howned⟩ := h.owned
  obtain ⟨resource, hresource, hown⟩ := howned.futures i r hr
  obtain ⟨rest, hsplit, hupdate⟩ := holdings_update₂ own
    (show Owner.thread t ≠ Owner.future i by simp)
  have hledger := howned.ledger
  rw [hsplit, hown, add_comm (own _), add_assoc, Multiset.singleton_add] at hledger
  simp only [fdStep, hr, ofOption_some, ok_bind]
  refine ends_bind (futureSyncFinalize_ends hresource hledger (howned.caches t)) ?_
  rintro ⟨⟨fds, caches⟩, table⟩ ⟨-, ⟨stock, hstock, hledger'⟩, hregistrations⟩
  have hother : ∀ j, j ≠ i → update s.futures i none j = s.futures j := fun j hne => update_of_ne hne ..
  have hsub : ∀ j r, update s.futures i none j = some r → j ≠ i ∧ s.futures j = some r := by
    intro j r hj
    rcases eq_or_ne j i with rfl | hne
    · rw [update_self] at hj
      cases hj
    · exact ⟨hne, by rwa [← hother j hne]⟩
  -- no future awaits the one that is gone
  have hne : ∀ k r j, s.futures k = some r → j ∈ r.upstream → j ≠ i := by
    rintro k r j hk hj rfl
    exact hunused k r hk hj
  refine ends_pure ⟨⟨_, howned.update₂ rfl hstock rfl (fun _ hsome => (by cases hsome)) (fun _ => rfl) ?_⟩,
    fun i' r' hr' j hj => ?_, fun i' r' hr' => ?_, fun i' r' hr' => ?_,
    fun i' r' poll fd hr' hawaits hpoll hmonitors => ?_⟩
  · rw [hupdate, add_zero]
    exact hledger'
  · obtain ⟨-, hr'⟩ := hsub i' r' hr'
    show (update s.futures i none j).isSome = true
    rw [hother j (hne i' r' j hr' hj)]
    exact h.live i' r' hr' j hj
  · exact h.distinct i' r' (hsub i' r' hr').2
  · exact h.collective i' r' (hsub i' r' hr').2
  · obtain ⟨-, hr'⟩ := hsub i' r' hr'
    have hmonitors' := (hregistrations poll fd hmonitors).resolve_right List.not_mem_nil
    refine (h.attached i' r' poll fd hr' hawaits hpoll hmonitors').imp_right ?_
    rintro ⟨j, hj, upstream, hupstream, hfd⟩
    exact ⟨j, hj, upstream, (hother j (hne i' r' j hr' hj)).trans hupstream, hfd⟩

theorem finalize_ends (h : s.Invariant) (t : Tid) :
    Ends FdState.Invariant (fun _ => False) (fdStep s (.finalize t)) := by
  classical
  obtain ⟨own, howned⟩ := h.owned
  obtain ⟨rest, hsplit, hupdate⟩ := holdings_update own (.thread t)
  have hledger := howned.ledger
  rw [hsplit] at hledger
  refine ends_bind (threadCachesFinalize_ends hledger (howned.caches t)) ?_
  rintro ⟨caches, table⟩ ⟨hstock, hledger', hregistrations⟩
  refine ends_pure ⟨⟨own.update (.thread t) 0, ?_, fun t' => ?_, fun i r hr => ?_, fun i hi => ?_⟩,
    h.live, h.distinct,
    h.collective, fun i r poll fd hr hawaits hpoll hmonitors => ?_⟩
  · rw [hupdate, zero_add]
    exact hledger'
  · show (update s.caches t caches t').Stocks _
    rcases eq_or_ne t' t with rfl | hne
    · simpa [Finsupp.update_apply] using hstock
    · simpa [Finsupp.update_apply, hne] using howned.caches t'
  · simpa [Finsupp.update_apply] using howned.futures i r hr
  · simpa [Finsupp.update_apply] using howned.liberated i hi
  · exact h.attached i r poll fd hr hawaits hpoll
      ((hregistrations poll fd hmonitors).resolve_right List.not_mem_nil)

/-- Every event keeps the invariant, or ends the process for a reason that is given. -/
theorem fdStep_ends (h : s.Invariant) {e : FdEvent Tid Key} (hlegal : s.Legal e) :
    Ends FdState.Invariant (fun x => s.ExitsWith x e) (fdStep s e) := by
  cases e with
  | allocate t i type upstream k => exact allocate_ends h hlegal
  | attach i j identifier k => exact attach_ends h hlegal
  | detach i j => exact detach_ends h hlegal
  | release i => exact release_ends h hlegal
  | liberate t i => exact liberate_ends h hlegal
  | finalize t => exact finalize_ends h t

end Udipe.VirtualFds

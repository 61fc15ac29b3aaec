import Udipe.Future.FdMachine
import Mathlib.Data.Fintype.Basic

/-!
# No descriptor is lost, shared or misused

Reference: `fd.h`, `inpoll.c`, `future/allocator.c`, `future/allocator/sync_caches.c`, `future/latched_inpoll.c`.
-/

namespace Udipe.VirtualFds

open Function Checked

variable {Tid Key : Type} {s : FdState Tid Key}

/-- The cached inpoll that would be used next is registered with the inpoll of a collective future between its
`future_upstream_detach` and its `future_sync_finalize`. -/
def FdState.MonitoredByReleased (s : FdState Tid Key) (t : Tid) : Prop :=
  ∃ poll j r q, (s.caches t).latchedInpolls.inpolls (s.caches t).latchedInpolls.eventCache.latest = some poll ∧
    s.futures j = some r ∧ r.upstream = [] ∧ collectivePoll r.type r.fds = some q ∧ s.table.Monitors q poll

/-- A cached inpoll is its latch's, and belongs to the thread. -/
theorem cachedInpoll_holds {caches : ThreadCaches} {table : FdTable} {stock rest : Multiset FdResource}
    (h : Ledger table (stock + rest)) (hcaches : caches.Stocks stock) {slot : ℕ} (hslot : slot < eventCacheCapacity)
    {poll : Fd} (hpoll : caches.latchedInpolls.inpolls slot = some poll) :
    ∃ latch, caches.latchedInpolls.eventCache.events slot = some latch ∧
      .latched poll latch ∈ stock ∧ FdResource.Holds table (.latched poll latch) := by
  obtain ⟨newest, pairs, -, hpairs, rfl⟩ := hcaches
  obtain ⟨pair, hinpoll, hlatch, hmem⟩ := hpairs.parallel hslot
  rw [hpoll] at hinpoll
  obtain ⟨pair, rfl, rfl⟩ := Option.map_eq_some_iff.mp hinpoll.symm
  have hstock : .latched pair.1 pair.2 ∈ eventResources newest + pairResources pairs :=
    Multiset.mem_add.mpr (.inr (Multiset.mem_map.mpr ⟨pair, hmem pair rfl, rfl⟩))
  exact ⟨pair.2, hlatch, hstock, h.inventory.holds _ (Multiset.mem_add.mpr (.inl hstock))⟩

theorem cachedEvent_holds {caches : ThreadCaches} {table : FdTable} {stock rest : Multiset FdResource}
    (h : Ledger table (stock + rest)) (hcaches : caches.Stocks stock) {slot : ℕ} (hslot : slot < eventCacheCapacity)
    {event : Fd} (hevent : caches.events.events slot = some event) : table event = some .eventfd := by
  obtain ⟨newest, pairs, hevents, -, rfl⟩ := hcaches
  have hmem : event ∈ newest := (RingHolds.mem_iff hevents).mpr ⟨slot, hslot, hevent⟩
  refine h.inventory.holds (.event event) (Multiset.mem_add.mpr (.inl (Multiset.mem_add.mpr (.inl ?_))))
  exact Multiset.mem_map.mpr ⟨event, hmem, rfl⟩

/-- What an inpoll of a resource monitors: an event or a timer, an inner inpoll, or anything. -/
theorem FdResource.Holds.monitors {resource : FdResource} {table : FdTable} {q fd : Fd} (h : resource.Holds table)
    (hq : q ∈ resource.footprint) (hmonitors : table.Monitors q fd) :
    table fd = some .eventfd ∨ table fd = some .timerfd ∨ (∃ p latch, resource = .chained false p latch fd) ∨
      resource = .inpoll q ∨ (∃ latch, resource = .latching q latch) ∨
      ∃ p latch, resource = .chained false p latch q := by
  obtain ⟨interest, hinterest, hfd⟩ := hmonitors
  cases resource with
  | event e | timer e =>
      obtain rfl := Multiset.mem_singleton.mp hq
      rw [show table q = _ from h] at hinterest
      cases hinterest
  | inpoll p =>
      obtain rfl := Multiset.mem_singleton.mp hq
      exact .inr (.inr (.inr (.inl rfl)))
  | bare p =>
      obtain rfl := Multiset.mem_singleton.mp hq
      rw [show table q = _ from h, Option.some.injEq, VirtualFile.epollfd.injEq] at hinterest
      rw [← hinterest] at hfd
      cases hfd
  | latched p latch =>
      obtain ⟨hp, hlatch⟩ := h
      simp only [footprint, Multiset.insert_eq_cons, Multiset.mem_cons, Multiset.mem_singleton] at hq
      rcases hq with rfl | rfl
      · rw [hp, Option.some.injEq, VirtualFile.epollfd.injEq] at hinterest
        by_cases heq : fd = latch
        · exact .inl (heq ▸ hlatch)
        · rw [← hinterest, latchInterest, update_of_ne heq] at hfd
          cases hfd
      · rw [hlatch] at hinterest
        cases hinterest
  | latching p latch =>
      simp only [footprint, Multiset.insert_eq_cons, Multiset.mem_cons, Multiset.mem_singleton] at hq
      rcases hq with rfl | rfl
      · exact .inr (.inr (.inr (.inr (.inl ⟨latch, rfl⟩))))
      · rw [show table q = _ from h.2] at hinterest
        cases hinterest
  | chained repeats p latch inner =>
      obtain ⟨hp, hlatch, hinner⟩ := h
      simp only [footprint, Multiset.insert_eq_cons, Multiset.mem_cons, Multiset.mem_singleton] at hq
      rcases hq with rfl | rfl | rfl
      · rw [hp, Option.some.injEq, VirtualFile.epollfd.injEq] at hinterest
        by_cases heq : fd = inner
        · subst heq
          cases repeats with
          | false => exact .inr (.inr (.inl ⟨q, latch, rfl⟩))
          | true => exact .inr (.inl hinner)
        · by_cases heq' : fd = latch
          · exact .inl (heq' ▸ hlatch)
          · rw [← hinterest, chainedInterest, update_of_ne heq, latchInterest, update_of_ne heq'] at hfd
            cases hfd
      · rw [hlatch] at hinterest
        cases hinterest
      · cases repeats with
        | false => exact .inr (.inr (.inr (.inr (.inr ⟨p, latch, rfl⟩))))
        | true =>
            rw [show table q = _ from hinner] at hinterest
            cases hinterest

/-- A resource that is neither a lone event nor a latched pair is a future's. -/
theorem FdState.Owned.exists_future {own : Owner Tid Key →₀ Multiset FdResource} (h : s.Owned own)
    {resource : FdResource} (hresource : resource ∈ holdings own) (hevent : ∀ fd, resource ≠ .event fd)
    (hlatched : ∀ poll latch, resource ≠ .latched poll latch) :
    ∃ j r, s.futures j = some r ∧ futureResource r.type r.fds = some resource := by
  obtain ⟨o, ho⟩ := mem_holdings.mp hresource
  cases o with
  | thread t =>
      obtain ⟨newest, pairs, -, -, hstock⟩ := h.caches t
      rw [hstock, Multiset.mem_add, eventResources, pairResources, Multiset.mem_map, Multiset.mem_map] at ho
      rcases ho with ⟨fd, -, rfl⟩ | ⟨pair, -, rfl⟩
      · exact absurd rfl (hevent fd)
      · exact absurd rfl (hlatched pair.1 pair.2)
  | future j =>
      cases hfuture : s.futures j with
      | none =>
          rw [h.liberated j hfuture] at ho
          exact absurd ho (Multiset.notMem_zero resource)
      | some r =>
          obtain ⟨resource', hresource', hown⟩ := h.futures j r hfuture
          rw [hown, Multiset.mem_singleton] at ho
          exact ⟨j, r, hfuture, ho ▸ hresource'⟩

/-- Who monitors a cached inpoll. -/
theorem FdState.Invariant.monitoredByReleased (h : s.Invariant) {t : Tid}
    (hmonitored : (s.caches t).StillMonitored s.table) : s.MonitoredByReleased t := by
  obtain ⟨poll, q, htop, hmonitors⟩ := hmonitored
  obtain ⟨own, howned⟩ := h.owned
  obtain ⟨rest, hsplit⟩ : ∃ rest, holdings own = own (.thread t) + rest := ⟨_, holdings_eq_erase own _⟩
  have hledger := howned.ledger
  rw [hsplit] at hledger
  have hlatest : (s.caches t).latchedInpolls.eventCache.latest < eventCacheCapacity := by
    obtain ⟨newest, pairs, -, hpairs, -⟩ := howned.caches t
    exact hpairs.inpolls.latest_lt
  obtain ⟨latch, -, hstock, hpoll, hlatch⟩ := cachedInpoll_holds hledger (howned.caches t) hlatest htop
  have hpollOwner : poll ∈ fdResources.names (own (.thread t)) :=
    ResourceKind.mem_names.mpr ⟨_, hstock, by simp [fdResources, FdResource.footprint]⟩
  have hhas : s.Has poll (.thread t) := (howned.has_iff _).mpr hpollOwner
  have hforeign : ∀ j r, s.futures j = some r →
      ¬ (r.fds.statusSync = some poll ∨ r.fds.inpollLatch = some poll ∨ r.fds.inner = some poll) := by
    intro j r hr hfds
    cases howned.has_unique hhas (show s.Has poll (.future j) from ⟨r, hr, hfds⟩)
  -- the resource that the monitoring inpoll is in
  have hqOpen : (s.table q).isSome = true := by
    obtain ⟨interest, hq, -⟩ := hmonitors
    rw [hq]
    rfl
  obtain ⟨resource, hresource, hq⟩ := ResourceKind.mem_names.mp (howned.ledger.inventory.covers q hqOpen)
  have hcollective : (∃ latch, resource = .latching q latch) ∨
      ∃ p latch, resource = .chained false p latch q := by
    have hholds : resource.Holds s.table := howned.ledger.inventory.holds resource hresource
    rcases hholds.monitors hq hmonitors with hevent | htimer | ⟨p, latch, rfl⟩ | rfl | hcollective
    · rw [hpoll] at hevent
      cases hevent
    · rw [hpoll] at htimer
      cases htimer
    · obtain ⟨j, r, hr, hfuture⟩ := howned.exists_future hresource (by simp) (by simp)
      refine absurd ((mem_footprint_iff hfuture).mp ?_) (hforeign j r hr)
      simp [FdResource.footprint]
    · obtain ⟨j, r, hr, hfuture⟩ := howned.exists_future hresource (by simp) (by simp)
      unfold futureResource at hfuture
      split at hfuture <;> cases hfuture
    · exact hcollective
  obtain ⟨j, r, hr, hfuture⟩ := howned.exists_future hresource
    (by rintro fd rfl; simp at hcollective) (by rintro p l rfl; simp at hcollective)
  have hcollectivePoll : collectivePoll r.type r.fds = some q := by
    unfold futureResource at hfuture
    rcases hcollective with ⟨latch, rfl⟩ | ⟨p, latch, rfl⟩ <;> split at hfuture <;>
      simp_all [collectivePoll]
  refine ⟨poll, j, r, q, htop, hr, ?_, hcollectivePoll, hmonitors⟩
  -- a future that still awaits others is attached to them only, and not to what is in a cache
  by_contra hawaits
  rcases h.attached j r q poll hr hawaits hcollectivePoll hmonitors with hlatch | ⟨k, -, upstream, hk, hsync⟩
  · exact hforeign j r hr (.inr (.inl hlatch))
  · exact hforeign k upstream hk (.inl hsync)

variable [DecidableEq Tid] [DecidableEq Key]

/-- What holds of the descriptors of the process. -/
structure DescriptorLaw (s : FdState Tid Key) : Prop where
  /-- The open descriptors are those of the futures and of the caches. -/
  owned : ∀ fd, (s.table fd).isSome = true ↔ ∃ o, s.Has fd o
  /-- None is shared. -/
  exclusive : ∀ fd o o', s.Has fd o → s.Has fd o' → o = o'
  /-- Each future has the descriptors of its type, and they are set up as its type needs. -/
  futures : ∀ i r, s.futures i = some r →
    ∃ resource, futureResource r.type r.fds = some resource ∧ resource.Holds s.table
  /-- A cached inpoll monitors the latch that is cached with it, and nothing else. -/
  cachedPairs : ∀ t, ∀ slot < eventCacheCapacity, ∀ poll, (s.caches t).latchedInpolls.inpolls slot = some poll →
    ∃ latch, (s.caches t).latchedInpolls.eventCache.events slot = some latch ∧
      FdResource.Holds s.table (.latched poll latch)
  cachedEvents : ∀ t, ∀ slot < eventCacheCapacity, ∀ event, (s.caches t).events.events slot = some event →
    s.table event = some .eventfd
  /-- What a collective future monitors is its latch and what it awaits. -/
  attached : ∀ i r poll fd, s.futures i = some r → r.upstream ≠ [] → collectivePoll r.type r.fds = some poll →
    s.table.Monitors poll fd → r.fds.inpollLatch = some fd ∨
      ∃ j ∈ r.upstream, ∃ upstream, s.futures j = some upstream ∧ upstream.fds.statusSync = some fd
  /-- The allocation of a future ends the process when the kernel has no descriptor, epoll watch or memory left, or
  because of an inpoll that is still monitored; an attachment when it has no watch or memory left; and nothing else
  does. -/
  exits : ∀ e, s.Legal e → ∀ x, fdStep s e = .error x →
    (∃ t i type upstream k, e = .allocate t i type upstream k ∧
      (x.IsAfter allocateErrnos ∨ x = .unexpected ∧ type = .unordered ∧ s.MonitoredByReleased t)) ∨
    ∃ i j identifier k, e = .attach i j identifier k ∧ x.IsAfter watchErrnos

theorem FdState.Invariant.law (h : s.Invariant) : DescriptorLaw s := by
  obtain ⟨own, howned⟩ := h.owned
  have hledger : ∀ t, ∃ rest, Ledger s.table (own (.thread t) + rest) := fun t =>
    ⟨_, holdings_eq_erase own (.thread t) ▸ howned.ledger⟩
  refine ⟨fun fd => howned.isSome_iff, fun fd o o' => howned.has_unique, fun i r hr => ?_,
    fun t slot hslot poll hpoll => ?_,
    fun t slot hslot event hevent => ?_, h.attached, fun e hlegal x hx => ?_⟩
  · obtain ⟨resource, hresource, hown⟩ := howned.futures i r hr
    refine ⟨resource, hresource, howned.ledger.inventory.holds resource (mem_holdings.mpr ⟨.future i, ?_⟩)⟩
    rw [hown]
    exact Multiset.mem_singleton_self resource
  · obtain ⟨rest, hrest⟩ := hledger t
    obtain ⟨latch, hlatch, -, hholds⟩ := cachedInpoll_holds hrest (howned.caches t) hslot hpoll
    exact ⟨latch, hlatch, hholds⟩
  · obtain ⟨rest, hrest⟩ := hledger t
    exact cachedEvent_holds hrest (howned.caches t) hslot hevent
  · have hexit := (fdStep_ends h hlegal).of_error hx
    cases e with
    | allocate t i type upstream k =>
        exact .inl ⟨t, i, type, upstream, k, rfl, hexit.imp_right fun ⟨hx, htype, hmonitored⟩ =>
          ⟨hx, htype, h.monitoredByReleased hmonitored⟩⟩
    | attach i j identifier k => exact .inr ⟨i, j, identifier, k, rfl, hexit⟩
    | detach | release | liberate | finalize => exact hexit.elim

/-- The invariant over runs. -/
theorem invariant_of_fdRun {es : List (FdEvent Tid Key)} (hlegal : fdMachine.Along (fun s e _ => s.Legal e) .start es)
    (hrun : fdMachine.run .start es = some s) : s.Invariant := by
  refine Machine.invariant_of_along (fun s e s' hinv hlegal hstep => ?_) invariant_start hlegal hrun
  have hends := fdStep_ends hinv hlegal
  have hok : fdStep s e = .ok s' := by
    cases hfd : fdStep s e with
    | error x => simp [fdMachine, hfd, Except.toOption] at hstep
    | ok t => simpa [fdMachine, hfd, Except.toOption] using hstep
  rwa [hok] at hends

/-- The caches of a thread are emptied, and nothing else changes hands. -/
theorem FdState.Invariant.finalize_ok (h : s.Invariant) (t : Tid) :
    ∃ s', fdStep s (.finalize t) = .ok s' ∧ s'.Invariant ∧ s'.futures = s.futures ∧
      (∀ fd, ¬ s'.Has fd (.thread t)) ∧ ∀ t', t' ≠ t → s'.caches t' = s.caches t' := by
  obtain ⟨s', hstep, hinv⟩ := (finalize_ends h t).exists_ok
  obtain ⟨own, howned⟩ := h.owned
  have hledger := howned.ledger
  rw [holdings_eq_erase own (.thread t)] at hledger
  obtain ⟨⟨caches, table⟩, hfinalize, hstock, -⟩ :=
    (threadCachesFinalize_ends (F := fun _ => False) hledger (howned.caches t)).exists_ok
  have hs' : s' = { s with table, caches := update s.caches t caches } := by
    simp only [fdStep, hfinalize, ok_bind] at hstep
    exact (Except.ok.inj hstep).symm
  subst hs'
  refine ⟨_, hstep, hinv, rfl, fun fd hhas => ?_, fun t' hne => update_of_ne hne ..⟩
  have hmem := (mem_names_stock hstock).mpr (by simpa [FdState.Has] using hhas)
  simp at hmem

/-- Nothing is open when no future is left and every thread that has something in its caches has finalized them. -/
theorem FdState.Invariant.finalize_run (h : s.Invariant) (hliberated : ∀ i, s.futures i = none) {ts : List Tid}
    (hts : ∀ t fd, s.Has fd (.thread t) → t ∈ ts) :
    ∃ s', fdMachine.run s (ts.map .finalize) = some s' ∧ ∀ fd, s'.table fd = none := by
  induction ts generalizing s with
  | nil =>
      refine ⟨s, rfl, fun fd => ?_⟩
      rw [← Option.not_isSome_iff_eq_none, h.law.owned]
      rintro ⟨t | i, hhas⟩
      · exact absurd (hts t fd hhas) List.not_mem_nil
      · obtain ⟨r, hr, -⟩ := hhas
        rw [hliberated i] at hr
        cases hr
  | cons t ts ih =>
      obtain ⟨s₁, hstep, hinv, hfutures, hempty, hother⟩ := h.finalize_ok t
      obtain ⟨s', hrun, hclosed⟩ := ih hinv (fun i => by rw [hfutures, hliberated i]) fun t' fd hhas => by
        have hne : t' ≠ t := by
          rintro rfl
          exact hempty fd hhas
        have hhas' : s.Has fd (.thread t') := by
          simp only [FdState.Has] at hhas ⊢
          rwa [hother t' hne] at hhas
        exact (List.mem_cons.mp (hts t' fd hhas')).resolve_left hne
      refine ⟨s', ?_, hclosed⟩
      rw [List.map_cons, Machine.run_cons_eq_some]
      exact ⟨s₁, by simp [fdMachine, hstep, Except.toOption], hrun⟩

/-- Whatever futures came and went, no descriptor is left when the last one has been liberated and the caches have
been finalized. -/
theorem descriptors_closed {es : List (FdEvent Tid Key)}
    (hlegal : fdMachine.Along (fun s e _ => s.Legal e) .start es) (hrun : fdMachine.run .start es = some s)
    (hliberated : ∀ i, s.futures i = none) {ts : List Tid} (hts : ∀ t fd, s.Has fd (.thread t) → t ∈ ts) :
    ∃ s', fdMachine.run s (ts.map .finalize) = some s' ∧ ∀ fd, s'.table fd = none :=
  (invariant_of_fdRun hlegal hrun).finalize_run hliberated hts

/-! ## A run -/

instance decidableLegal [Fintype Key] (s : FdState Tid Key) : ∀ e, Decidable (s.Legal e)
  | .allocate _ i type upstream _ => inferInstanceAs (Decidable (s.futures i = none ∧ validType type = true ∧
      (upstream ≠ [] → collectiveType type = true) ∧ ∀ j ∈ upstream, (s.futures j).isSome = true))
  | .attach i j _ _ => inferInstanceAs (Decidable (∃ r ∈ s.futures i, j ∈ r.upstream))
  | .detach i j => inferInstanceAs (Decidable (∃ r ∈ s.futures i, j ∈ r.upstream))
  | .release i => inferInstanceAs (Decidable ((s.futures i).isSome = true))
  | .liberate _ i => inferInstanceAs (Decidable ((∃ r ∈ s.futures i, r.upstream = []) ∧
      ∀ k, ∀ r ∈ s.futures k, i ∉ r.upstream))
  | .finalize _ => isTrue trivial

/-- A kernel that gives the lowest of sixteen descriptors. -/
def lowestFirst : Kernel where
  fresh table := (((List.range 16).find? fun fd => (table fd).isNone).elim (.error .emfile) .ok)
  fresh_free table fd h := by
    cases hfind : (List.range 16).find? fun fd => (table fd).isNone with
    | none => simp [hfind] at h
    | some fd' =>
        obtain rfl : fd' = fd := by simpa [hfind] using h
        simpa using List.find?_some hfind
  fresh_errno table errno h := by
    cases hfind : (List.range 16).find? fun fd => (table fd).isNone with
    | none =>
        obtain rfl : Errno.emfile = errno := by simpa [hfind] using h
        decide
    | some fd' => simp [hfind] at h
  watch _ _ _ := .ok ()
  watch_errno _ _ _ _ h := by cases h
  nested _ _ _ := false
  nested_law := fun _ _ _ h => by cases h

/-- A join future awaits a repeating timer, and both are liberated. -/
def timerThenJoin : List (FdEvent (Fin 1) (Fin 2)) :=
  [.allocate 0 0 .timerRepeat [] lowestFirst, .allocate 0 1 .join [0] lowestFirst, .attach 1 0 0 lowestFirst,
    .detach 1 0, .release 1, .liberate 0 1, .liberate 0 0]

theorem timerThenJoin_legal : fdMachine.Along (fun s e _ => s.Legal e) .start timerThenJoin := by
  decide +kernel

/-- The pair and the latch that the thread has cached are closed. -/
theorem descriptors_closed_timerThenJoin :
    ∃ s s', fdMachine.run .start timerThenJoin = some s ∧ fdMachine.run s [.finalize 0] = some s' ∧
      ∀ fd, s'.table fd = none := by
  have hrun : (fdMachine.run .start timerThenJoin).any (fun s => decide (∀ i, (s.futures i).isNone)) = true := by
    decide +kernel
  obtain ⟨s, hs, hliberated⟩ := (Option.any_eq_true _ _).mp hrun
  obtain ⟨s', hfinalize, hclosed⟩ := descriptors_closed timerThenJoin_legal hs
    (fun i => Option.isNone_iff_eq_none.mp (of_decide_eq_true hliberated i))
    (fun t _ _ => (List.mem_singleton.mpr (Fin.fin_one_eq_zero t) : t ∈ [0]))
  exact ⟨s, s', hs, hfinalize, hclosed⟩

end Udipe.VirtualFds

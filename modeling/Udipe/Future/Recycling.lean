import Udipe.Future.Pool
import Udipe.Future.Holders

/-!
# The state of recycled events

`future_sync_finalize` hands the event or latch of a liberated future to a cache without a call of
`event_reset`. The cached events are unsignaled as long as no future is liberated whose event was
signaled, and no late worker signals an event that is in a cache by then.
-/

namespace Udipe

open Function

variable {Tid Key P : Type} {arity : Key → ℕ} {b : Build}

/-- The events in the caches of all threads are unsignaled. -/
def RecycledUnsignaled (s : PoolState Tid Key P arity) : Prop :=
  ∀ t, (s.caches t).events.Unsignaled s.fds ∧
    (s.caches t).latchedInpolls.eventCache.Unsignaled s.fds

/-- The event is in the cache of a thread. -/
def PoolState.Cached (s : PoolState Tid Key P arity) (fd : Fd) : Prop :=
  ∃ t k, (s.caches t).events.events k = some fd ∨
    (s.caches t).latchedInpolls.eventCache.events k = some fd

/-- The step liberates a future whose event or latch is signaled, or it is the `event_signal` of a
worker whose event was put into a cache since it read `status_sync.event`. -/
def RecyclesSignaled (s : PoolState Tid Key P arity) : PoolEvent Tid Key P arity → Prop
  | .step i (.client t _) =>
      ∃ entry, s.futures i = some entry ∧ (∃ f r, entry.future.pc t = .finishLiberate f r) ∧
        s.fds.signaled (recycledEvent entry.future.shared.word.type entry.sync) = true
  | .step i (.worker _) =>
      ∃ entry fd, s.futures i = some entry ∧ entry.future.worker.signals = true ∧
        entry.fetched = some (some fd) ∧ s.Cached fd
  | _ => False

/-- A future that was just initialized has no readable event and no readable latch. -/
def StartsUnreadable (s' : PoolState Tid Key P arity) : PoolEvent Tid Key P arity → Prop
  | .start _ i _ _ _ _ =>
      ∀ entry, s'.futures i = some entry →
        (entry.observe s'.fds).shared.event = false ∧ (entry.observe s'.fds).shared.latch = false
  | _ => True

/-! ## Who holds which descriptor -/

/-- The descriptors of each future, none if it was not allocated. -/
def PoolState.syncs (s : PoolState Tid Key P arity) (i : Key) : FutureSync :=
  (s.futures i).elim .invalid FutureEntry.sync

/-- Each descriptor in a future or a cache is open, of the right kind, and nowhere else. -/
def PoolState.Law (quiet : Bool) (s : PoolState Tid Key P arity) : Prop :=
  Owned (Holder.fits quiet) (heldBy s.syncs s.caches) s.fds

theorem PoolState.law_true_iff {s : PoolState Tid Key P arity} :
    s.Law true ↔ s.Law false ∧ RecycledUnsignaled s := by
  constructor
  · intro h
    refine ⟨⟨h.exclusive, fun k fd hk => ?_⟩, fun t => ⟨fun k => ?_, fun k => ?_⟩⟩
    · obtain ⟨d, hd, hfit⟩ := h.valid k fd hk
      refine ⟨d, hd, ?_⟩
      cases k <;> cases d <;> simp_all [Holder.fits]
    · by_contra hsig
      obtain ⟨fd, hfd, hopen⟩ := signaled_eq_true.mp (by simpa using hsig)
      obtain ⟨d, hd, hfit⟩ := h.valid (.cachedEvent t false k) fd hfd
      simp [hopen] at hd
      simp [← hd, Holder.fits] at hfit
    · by_contra hsig
      obtain ⟨fd, hfd, hopen⟩ := signaled_eq_true.mp (by simpa using hsig)
      obtain ⟨d, hd, hfit⟩ := h.valid (.cachedEvent t true k) fd hfd
      simp [hopen] at hd
      simp [← hd, Holder.fits] at hfit
  · rintro ⟨h, hquiet⟩
    refine ⟨h.exclusive, fun k fd hk => ?_⟩
    obtain ⟨d, hd, hfit⟩ := h.valid k fd hk
    refine ⟨d, hd, ?_⟩
    cases k with
    | cachedEvent t latched k =>
        cases d with
        | inpoll => exact hfit
        | eventfd signaled =>
            intro _
            by_contra hsig
            have htrue : s.fds.signaled (some fd) = true :=
              signaled_eq_true.mpr ⟨fd, rfl, by simpa [hd] using hsig⟩
            cases latched with
            | false => simp [← hk, heldBy, (hquiet t).1 k] at htrue
            | true => simp [← hk, heldBy, (hquiet t).2 k] at htrue
    | _ => cases d <;> simp_all [Holder.fits]

/-! ## Steps of the pool -/

variable [DecidableEq Tid] [Fintype Tid] [DecidableEq Key] {s s' : PoolState Tid Key P arity}
  {e : PoolEvent Tid Key P arity} {quiet : Bool}

/-- What a step of the pool does. -/
inductive PoolStep (b : Build) (s : PoolState Tid Key P arity) :
    PoolEvent Tid Key P arity → PoolState Tid Key P arity → Prop where
  | start {t i status payload upstream fresh sync cache fds} (hnew : s.futures i = none)
      (hfresh : fresh.allowed s.fds = true)
      (hinit : futureSyncInitialize b status.type (s.caches t) s.fds fresh = some (sync, cache, fds)) :
      PoolStep b s (.start t i status payload upstream fresh)
        { fds := fds
          caches := update s.caches t cache
          futures := update s.futures i
            (some { future := .start status payload upstream, sync := sync, fetched := none }) }
  | client {i t o entry future sync cache fds} (hentry : s.futures i = some entry)
      (hsync : clientSync entry (s.caches t) s.fds (entry.future.pc t) = some (sync, cache, fds)) :
      PoolStep b s (.step i (.client t o))
        { fds := fds
          caches := update s.caches t cache
          futures := update s.futures i (some { entry with future := future, sync := sync }) }
  | worker {i o entry future fds} (hentry : s.futures i = some entry)
      (hsync : workerSync entry s.fds = some fds) :
      PoolStep b s (.step i (.worker o))
        { s with
          fds := fds
          futures := update s.futures i (some { entry with future := future, fetched := none }) }
  | other {i e entry future} (hentry : s.futures i = some entry)
      (hclient : ∀ t o, e ≠ .client t o) (hworker : ∀ o, e ≠ .worker o) :
      PoolStep b s (.step i e)
        { s with futures := update s.futures i (some { entry with future := future }) }
  | fetch {i successor entry fetched} (hentry : s.futures i = some entry) :
      PoolStep b s (.fetchEvent i successor)
        { s with futures := update s.futures i (some { entry with fetched := fetched }) }

theorem poolStep_cases (h : (pool b).step s e = some s') : PoolStep b s e s' := by
  cases e with
  | start t i status payload upstream fresh =>
      simp only [pool, poolStep] at h
      split at h
      · rename_i hguard
        simp only [Bool.and_eq_true, Option.isNone_iff_eq_none] at hguard
        simp only [Option.map_eq_some_iff, Prod.exists] at h
        obtain ⟨sync, cache, fds, hinit, rfl⟩ := h
        exact .start hguard.1.1.1 hguard.2 hinit
      · cases h
  | step i e =>
      simp only [pool, poolStep, Option.bind_eq_bind, Option.bind_eq_some_iff] at h
      obtain ⟨entry, hentry, future, -, h⟩ := h
      split at h
      · cases h
      · split at h
        · simp only [Option.bind_eq_some_iff, Prod.exists] at h
          obtain ⟨sync, cache, fds, hsync, h⟩ := h
          obtain rfl := Option.some.inj h
          exact .client hentry hsync
        · simp only [Option.bind_eq_some_iff] at h
          obtain ⟨fds, hsync, h⟩ := h
          obtain rfl := Option.some.inj h
          exact .worker hentry hsync
        · rename_i hclient hworker
          obtain rfl := Option.some.inj h
          exact .other hentry hclient hworker
  | fetchEvent i successor =>
      simp only [pool, poolStep, Option.bind_eq_bind, Option.bind_eq_some_iff] at h
      obtain ⟨entry, hentry, h⟩ := h
      split at h
      · split at h
        · obtain rfl := Option.some.inj h
          exact .fetch hentry
        · simp only [Option.bind_eq_some_iff] at h
          obtain ⟨other, -, h⟩ := h
          split at h
          · obtain rfl := Option.some.inj h
            exact .fetch hentry
          · cases h
      · cases h

omit [DecidableEq Tid] [Fintype Tid] in
/-- The references of the futures after one of them changed. -/
theorem PoolState.syncs_update {fds : Descriptors} {caches : Tid → SyncCaches} {i : Key}
    {entry : FutureEntry Tid P (arity i)} :
    PoolState.syncs { fds := fds, caches := caches, futures := update s.futures i (some entry) } =
      update s.syncs i entry.sync := by
  funext j
  by_cases hj : j = i
  · subst hj
    simp [syncs]
  · simp [syncs, hj]

omit [DecidableEq Tid] [Fintype Tid] [DecidableEq Key] in
theorem PoolState.syncs_of_entry {i : Key} {entry : FutureEntry Tid P (arity i)}
    (h : s.futures i = some entry) : s.syncs i = entry.sync := by
  simp [syncs, h]

omit [DecidableEq Tid] [Fintype Tid] [DecidableEq Key] in
theorem PoolState.cached_of_held {t : Tid} {latched : Bool} {k : SyncCacheIndex} {fd : Fd}
    (h : heldBy s.syncs s.caches (.cachedEvent t latched k) = some fd) : s.Cached fd := by
  cases latched with
  | false => exact ⟨t, k, .inl h⟩
  | true => exact ⟨t, k, .inr h⟩

/-- The law is kept by every step, and so is the silence of the caches by the steps that do not
recycle a signaled event. -/
theorem PoolState.Law.step (h : s.Law quiet) (hquiet : quiet = true → ¬ RecyclesSignaled s e)
    (hstep : (pool b).step s e = some s') : s'.Law quiet := by
  cases poolStep_cases hstep with
  | @start t i status payload upstream fresh sync cache fds hnew hfresh hinit =>
      have hsync : s.syncs i = .invalid := by simp [PoolState.syncs, hnew]
      rw [PoolState.Law, PoolState.syncs_update]
      exact futureSyncInitialize_owned h hsync hfresh hinit
  | @client i t o entry future sync cache fds hentry hsync =>
      have hold := PoolState.syncs_of_entry hentry
      -- a signal that leaves the references as they are
      have hsignal : ∀ {fds'}, eventSignal s.fds entry.sync.inpollLatch = some fds' →
          Owned (Holder.fits quiet)
            (heldBy (update s.syncs i entry.sync) (update s.caches t (s.caches t))) fds' := by
        intro fds' hfds
        rw [← hold, update_eq_self, update_eq_self]
        rw [← hold] at hfds
        refine eventSignal_owned h (fun _ u latched k fd hheld hlatch => ?_) hfds
        exact nomatch h.exclusive _ (.latch i) fd hheld hlatch
      rw [PoolState.Law, PoolState.syncs_update]
      unfold clientSync at hsync
      split at hsync
      · simp only [Option.map_eq_some_iff, Prod.mk.injEq] at hsync
        obtain ⟨fds', hfds, rfl, rfl, rfl⟩ := hsync
        exact hsignal hfds
      · split at hsync
        · simp only [Option.map_eq_some_iff, Prod.mk.injEq] at hsync
          obtain ⟨fds', hfds, rfl, rfl, rfl⟩ := hsync
          exact hsignal hfds
        · simp only [Option.some.injEq, Prod.mk.injEq] at hsync
          obtain ⟨rfl, rfl, rfl⟩ := hsync
          rw [← hold, update_eq_self, update_eq_self]
          exact h
      · rename_i f r hpc
        rw [← hold] at hsync
        refine futureSyncFinalize_owned h (fun hq => ?_) hsync
        by_contra hsig
        exact hquiet hq ⟨entry, hentry, ⟨f, r, hpc⟩, by simpa [hold] using hsig⟩
      · simp only [Option.some.injEq, Prod.mk.injEq] at hsync
        obtain ⟨rfl, rfl, rfl⟩ := hsync
        rw [← hold, update_eq_self, update_eq_self]
        exact h
  | @worker i o entry future fds hentry hsync =>
      have hold := PoolState.syncs_of_entry hentry
      rw [PoolState.Law, PoolState.syncs_update, ← hold, update_eq_self]
      unfold workerSync at hsync
      split at hsync
      · rename_i hsignals
        obtain ⟨event, hfetched, hfds⟩ := Option.bind_eq_some_iff.mp hsync
        refine eventSignal_owned h (fun hq t latched k fd hheld hevent => ?_) hfds
        exact hquiet hq ⟨entry, fd, hentry, hsignals, hevent ▸ hfetched,
          PoolState.cached_of_held hheld⟩
      · obtain rfl := Option.some.inj hsync
        exact h
  | @other i e entry future hentry | @fetch i successor entry fetched hentry =>
      rw [PoolState.Law, PoolState.syncs_update]
      dsimp only
      rw [← PoolState.syncs_of_entry hentry, update_eq_self]
      exact h

omit [DecidableEq Tid] [Fintype Tid] [DecidableEq Key] in
theorem not_recycledUnsignaled {fd : Fd} (hcached : s.Cached fd)
    (hsig : s.fds fd = some (.eventfd true)) : ¬ RecycledUnsignaled s := by
  intro hquiet
  have htrue : s.fds.signaled (some fd) = true := signaled_eq_true.mpr ⟨fd, rfl, hsig⟩
  obtain ⟨t, k, hk | hk⟩ := hcached
  · simp [← hk, (hquiet t).1 k] at htrue
  · simp [← hk, (hquiet t).2 k] at htrue

/-- A step that recycles a signaled event leaves it signaled in a cache. -/
theorem RecyclesSignaled.breaks (hbad : RecyclesSignaled s e) (h : s.Law false)
    (hstep : (pool b).step s e = some s') : ¬ RecycledUnsignaled s' := by
  have h' : s'.Law false := h.step (by simp) hstep
  cases poolStep_cases hstep with
  | @client i t o entry future sync cache fds hentry hsync =>
      obtain ⟨_, hsome, ⟨f, r, hpc⟩, hsig⟩ := hbad
      obtain rfl := Option.some.inj (hentry.symm.trans hsome)
      obtain ⟨fd, hevent, htrue⟩ := signaled_eq_true.mp hsig
      rw [hpc] at hsync
      obtain ⟨k, hk⟩ := futureSyncFinalize_recycles hsync hevent
      refine not_recycledUnsignaled ⟨t, k, by simpa using hk⟩ ?_
      -- the event was not closed, since its new holder holds an open one
      obtain ⟨d, hd, -⟩ : ∃ d, fds fd = some d ∧ True := by
        obtain hk | hk := hk
        · obtain ⟨d, hd, -⟩ := h'.valid (.cachedEvent t false k) fd (by simpa [heldBy] using hk)
          exact ⟨d, hd, trivial⟩
        · obtain ⟨d, hd, -⟩ := h'.valid (.cachedEvent t true k) fd (by simpa [heldBy] using hk)
          exact ⟨d, hd, trivial⟩
      exact hd.trans ((futureSyncFinalize_fds hsync hd).symm.trans htrue)
  | @worker i o entry future fds hentry hsync =>
      obtain ⟨_, fd, hsome, hsignals, hfetched, hcached⟩ := hbad
      obtain rfl := Option.some.inj (hentry.symm.trans hsome)
      simp only [workerSync, hsignals, hfetched, if_true, Option.bind_some] at hsync
      obtain ⟨_, signaled, hfd, -, rfl⟩ := eventSignal_eq hsync
      obtain rfl := Option.some.inj hfd
      exact not_recycledUnsignaled hcached (update_self ..)
  | start | fetch => exact hbad.elim
  | @other i e entry future hentry hclient hworker =>
      cases e with
      | client t o => exact absurd rfl (hclient t o)
      | worker o => exact absurd rfl (hworker o)
      | _ => exact hbad.elim

theorem RecycledUnsignaled.starts (h : RecycledUnsignaled s) (hstep : (pool b).step s e = some s') :
    StartsUnreadable s' e := by
  cases poolStep_cases hstep with
  | @start t i status payload upstream fresh sync cache fds hnew hfresh hinit =>
      intro entry hentry
      dsimp only at hentry
      rw [update_self] at hentry
      obtain rfl := Option.some.inj hentry
      exact futureSyncInitialize_unsignaled (h t).1 (h t).2 hfresh hinit
  | client | worker | other | fetch => trivial

omit [DecidableEq Tid] [Fintype Tid] [DecidableEq Key] in
theorem PoolState.start_law : (PoolState.start : PoolState Tid Key P arity).Law true := by
  have hnone : ∀ u : Holder Tid Key,
      heldBy (PoolState.start : PoolState Tid Key P arity).syncs
        (PoolState.start : PoolState Tid Key P arity).caches u = none := by
    rintro (i | i | i | ⟨t, _ | _, k⟩ | ⟨t, k⟩) <;> rfl
  exact ⟨fun u _ fd hu => by simp [hnone u] at hu, fun u fd hu => by simp [hnone u] at hu⟩

/-- The step is one of the three notifications through `fd`: the join's lock holder after publishing
the outcome, `udipe_cancel`, or `future_notify_eager_outcome`. -/
def Notifies (s : PoolState Tid Key P arity) (fd : Fd) : PoolEvent Tid Key P arity → Prop
  | .step i (.client t _) =>
      ∃ entry, s.futures i = some entry ∧ entry.sync.inpollLatch = some fd ∧
        ((∃ w latest, entry.future.pc t = .joinSignal w latest) ∨
          ∃ finish status, entry.future.pc t = .cancelLatch finish status)
  | .step i (.worker _) =>
      ∃ entry, s.futures i = some entry ∧ entry.fetched = some (some fd) ∧
        entry.future.worker.signals = true
  | _ => False

/-- Nothing but a notification signals an event. -/
theorem notifies_of_signaled {fd : Fd} (h : s.fds fd ≠ some (.eventfd true))
    (hstep : (pool b).step s e = some s') (hfd : s'.fds fd = some (.eventfd true)) :
    Notifies s fd e := by
  have hsignal : ∀ {event : Option Fd} {fds'}, eventSignal s.fds event = some fds' →
      fds' fd = some (.eventfd true) → event = some fd := by
    intro event fds' hsig hfd
    obtain ⟨fd', signaled, rfl, -, rfl⟩ := eventSignal_eq hsig
    by_contra hne
    rw [update_of_ne fun heq => hne (by rw [heq])] at hfd
    exact h hfd
  cases poolStep_cases hstep with
  | start _ _ hinit => exact absurd (futureSyncInitialize_fds hinit hfd) h
  | @client i t o entry future sync cache fds hentry hsync =>
      unfold clientSync at hsync
      split at hsync
      · rename_i w latest hpc
        simp only [Option.map_eq_some_iff, Prod.mk.injEq] at hsync
        obtain ⟨fds', hfds, -, -, rfl⟩ := hsync
        exact ⟨entry, hentry, hsignal hfds hfd, .inl ⟨w, latest, hpc⟩⟩
      · rename_i finish status hpc
        split at hsync
        · simp only [Option.map_eq_some_iff, Prod.mk.injEq] at hsync
          obtain ⟨fds', hfds, -, -, rfl⟩ := hsync
          exact ⟨entry, hentry, hsignal hfds hfd, .inr ⟨finish, status, hpc⟩⟩
        · simp only [Option.some.injEq, Prod.mk.injEq] at hsync
          exact absurd (hsync.2.2 ▸ hfd) h
      · exact absurd (futureSyncFinalize_fds hsync hfd) h
      · simp only [Option.some.injEq, Prod.mk.injEq] at hsync
        exact absurd (hsync.2.2 ▸ hfd) h
  | @worker i o entry future fds hentry hsync =>
      unfold workerSync at hsync
      split at hsync
      · rename_i hsignals
        obtain ⟨event, hfetched, hfds⟩ := Option.bind_eq_some_iff.mp hsync
        exact ⟨entry, hentry, hsignal hfds hfd ▸ hfetched, hsignals⟩
      · exact absurd (Option.some.inj hsync ▸ hfd) h
  | other | fetch => exact absurd hfd h

/-- Over every run: the events in the caches are always unsignaled exactly when no step recycles a
signaled one; and then no future starts with a readable event or latch. -/
theorem recycled_unsignaled_iff {es : List (PoolEvent Tid Key P arity)} :
    ((pool b).Along (fun _ _ s' => RecycledUnsignaled s') PoolState.start es ↔
      (pool b).Along (fun s e _ => ¬ RecyclesSignaled s e) PoolState.start es) ∧
    ((pool b).Along (fun s e _ => ¬ RecyclesSignaled s e) PoolState.start es →
      (pool b).Along (fun _ e s' => StartsUnreadable s' e) PoolState.start es) := by
  have hstart := PoolState.law_true_iff.mp (@PoolState.start_law Tid Key P arity)
  have hkeep : ∀ (s : PoolState Tid Key P arity) e s', s.Law true → ¬ RecyclesSignaled s e →
      (pool b).step s e = some s' → s'.Law true :=
    fun _ _ _ h hsafe hstep => h.step (fun _ => hsafe) hstep
  refine ⟨⟨?_, ?_⟩, ?_⟩
  · exact Machine.along_of_invariant (I := PoolState.Law false)
      (fun _ _ _ h _ hstep => h.step (by simp) hstep)
      (fun _ _ _ h hquiet hstep hbad => hbad.breaks h hstep hquiet) hstart.1
  · exact Machine.along_of_invariant hkeep
      (fun s e s' h hsafe hstep => (PoolState.law_true_iff.mp (hkeep s e s' h hsafe hstep)).2)
      PoolState.start_law
  · exact Machine.along_of_invariant hkeep
      (fun s e s' h _ hstep => (PoolState.law_true_iff.mp h).2.starts hstep) PoolState.start_law

/-- Steps of thread `t` on future 0 during which nothing unexpected happens. -/
def calmSteps (k : ℕ) (t : Fin 2) : List (PoolEvent (Fin 2) (Fin 2) Bool fun _ => 1) :=
  List.replicate k (.step 0 (.client t (.calm (Fin 2) 1)))

/-- Thread 0 waits for a join. Thread 1 cancels it and signals the latch for the waiter; the waiter returns
and finishes the join. -/
def latchSignaled : List (PoolEvent (Fin 2) (Fin 2) Bool fun _ => 1) :=
  .start 0 0 .startJoin false (fun _ => .counted) ⟨3, 4⟩ :: .step 0 (.call 0 (.wait 7)) ::
    calmSteps 2 0 ++ .step 0 (.call 1 (.cancel false)) :: calmSteps 4 1 ++
    .step 0 (.client 0 { Oracle.calm (Fin 2) 1 with poll := .ready [.latch] }) :: calmSteps 3 0 ++
    .step 0 (.call 0 .finish) :: calmSteps 7 0

/-- Its latch is signaled in the cache of thread 0, and the custom future that this thread starts next
has a readable event. -/
theorem latchSignaled_recycles :
    ∃ s s', (pool ⟨true⟩).run PoolState.start latchSignaled = some s ∧ ¬ RecycledUnsignaled s ∧
      (pool ⟨true⟩).step s (.start 0 1 .startCustom false (fun _ => .counted) ⟨5, 6⟩) = some s' ∧
      ¬ StartsUnreadable s' (.start 0 1 .startCustom false (fun _ => .counted) ⟨5, 6⟩) := by
  have hend : ((pool ⟨true⟩).run PoolState.start latchSignaled).map (fun s =>
      (s.fds.signaled ((s.caches 0).events.events (s.caches 0).events.latest),
        ((pool ⟨true⟩).step s (.start 0 1 .startCustom false (fun _ => .counted) ⟨5, 6⟩)).map
          fun s' => (s'.futures 1).map fun entry => (entry.observe s'.fds).shared.event)) =
      some (true, some (some true)) := by
    decide +kernel
  obtain ⟨s, hrun, hs⟩ := Option.map_eq_some_iff.mp hend
  simp only [Prod.mk.injEq] at hs
  obtain ⟨s', hstep, hs'⟩ := Option.map_eq_some_iff.mp hs.2
  obtain ⟨entry, hentry, hevent⟩ := Option.map_eq_some_iff.mp hs'
  refine ⟨s, s', hrun, fun h => ?_, hstep, fun h => ?_⟩
  · simpa [hs.1] using (h 0).1 (s.caches 0).events.latest
  · simpa [hevent] using (h entry hentry).1

end Udipe

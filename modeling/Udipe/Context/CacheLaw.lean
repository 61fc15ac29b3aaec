import Udipe.Context.ThreadCache
import Mathlib.Logic.Basic

/-!
# What the flags of a thread cache say

`CacheLaw` ties the flags and the history of a cache to the points of the two halves. Each step of each
half keeps it, whatever the other one does in between, and no assertion of either half fails in it.
-/

namespace Udipe

open Checked


/-- The thread half has set its first flag. -/
def ThreadHalfPc.started : ThreadHalfPc → Bool
  | .dying => false
  | _ => true

/-- The thread half is emptying the cache. -/
def ThreadHalfPc.spilling : ThreadHalfPc → Bool
  | .lock | .spill | .unlock | .events | .emptied | .wake => true
  | _ => false

/-- If the thread half empties the cache, it has disposed of the pointers. -/
def ThreadHalfPc.futuresDone : ThreadHalfPc → Bool
  | .dying | .lock | .spill => false
  | _ => true

/-- If the thread half empties the cache, it has disposed of the event objects. -/
def ThreadHalfPc.eventsDone : ThreadHalfPc → Bool
  | .dying | .lock | .spill | .unlock | .events => false
  | _ => true

/-- If the thread half empties the cache, it has said so. -/
def ThreadHalfPc.emptiedDone : ThreadHalfPc → Bool
  | .dying | .lock | .spill | .unlock | .events | .emptied => false
  | _ => true

/-- The thread half has set its last flag. -/
def ThreadHalfPc.done? : ThreadHalfPc → Bool
  | .freeCache | .finished => true
  | _ => false

/-- The thread half is about to free the cache. -/
def ThreadHalfPc.freeing : ThreadHalfPc → ℕ
  | .freeCache => 1
  | _ => 0

/-- The context half has set its first flag. -/
def ContextHalfPc.started : ContextHalfPc → Bool
  | .dying => false
  | _ => true

/-- The context half is emptying the cache. -/
def ContextHalfPc.liberating : ContextHalfPc → Bool
  | .liberate | .events | .emptied => true
  | _ => false

/-- The context half waits for the thread half. -/
def ContextHalfPc.waiting : ContextHalfPc → Bool
  | .wait _ | .blocked _ | .reload | .yield => true
  | _ => false

/-- If the context half empties the cache, it has disposed of the pointers. -/
def ContextHalfPc.futuresDone : ContextHalfPc → Bool
  | .dying | .liberate => false
  | _ => true

/-- If the context half empties the cache, it has disposed of the event objects. -/
def ContextHalfPc.eventsDone : ContextHalfPc → Bool
  | .dying | .liberate | .events => false
  | _ => true

/-- If the context half empties the cache, it has said so. -/
def ContextHalfPc.emptiedDone : ContextHalfPc → Bool
  | .dying | .liberate | .events | .emptied => false
  | _ => true

/-- The context half has set its last flag. -/
def ContextHalfPc.done? : ContextHalfPc → Bool
  | .freeCache | .finished => true
  | _ => false

/-- The context half is about to free the cache. -/
def ContextHalfPc.freeing : ContextHalfPc → ℕ
  | .freeCache => 1
  | _ => 0

/-- The value, for the half that empties the cache, of a property of its point. -/
def byEmptier (emptier : Option Half) (thread context : Bool) : Bool :=
  match emptier with
  | none => false
  | some .thread => thread
  | some .context => context

/-- The flags word with the given bits. -/
def cacheFlags (td cd em tdn cdn : Bool) : BitVec 32 :=
  (if td then threadDying else 0) ||| (if cd then contextDying else 0) |||
    (if em then emptied else 0) ||| (if tdn then threadDone else 0) |||
      (if cdn then contextDone else 0)

section

variable (td cd em tdn cdn : Bool)

theorem cacheFlags_or :
    cacheFlags td cd em tdn cdn ||| threadDying = cacheFlags true cd em tdn cdn ∧
      cacheFlags td cd em tdn cdn ||| contextDying = cacheFlags td true em tdn cdn ∧
      cacheFlags td cd em tdn cdn ||| emptied = cacheFlags td cd true tdn cdn ∧
      cacheFlags td cd em tdn cdn ||| threadDone = cacheFlags td cd em true cdn ∧
      cacheFlags td cd em tdn cdn ||| contextDone = cacheFlags td cd em tdn true := by
  revert td cd em tdn cdn
  decide

theorem cacheFlags_and :
    (cacheFlags td cd em tdn cdn &&& threadDying = 0 ↔ td = false) ∧
      (cacheFlags td cd em tdn cdn &&& contextDying = 0 ↔ cd = false) ∧
      (cacheFlags td cd em tdn cdn &&& emptied = 0 ↔ em = false) ∧
      (cacheFlags td cd em tdn cdn &&& threadDone = 0 ↔ tdn = false) ∧
      (cacheFlags td cd em tdn cdn &&& contextDone = 0 ↔ cdn = false) := by
  revert td cd em tdn cdn
  decide

theorem cacheFlags_and_or :
    (cacheFlags td cd em tdn cdn &&& (threadDying ||| threadDone) = 0 ↔ td = false ∧ tdn = false) ∧
      (cacheFlags td cd em tdn cdn &&& (emptied ||| threadDone) = 0 ↔ em = false ∧ tdn = false) ∧
      (cacheFlags td cd em tdn cdn &&& (contextDying ||| contextDone) = 0 ↔
        cd = false ∧ cdn = false) ∧
      (cacheFlags td cd em tdn cdn &&& (emptied ||| contextDone) = 0 ↔
        em = false ∧ cdn = false) := by
  revert td cd em tdn cdn
  decide

end

/-- The law of a cache with both halves. -/
structure CacheLaw (cache : ThreadCache) (thread : ThreadHalfPc) (context : ContextHalfPc) : Prop where
  flags : cache.flags = cacheFlags thread.started context.started
    (byEmptier cache.emptier thread.emptiedDone context.emptiedDone) thread.done? context.done?
  unclaimed : cache.emptier = none → thread.started = false ∧ context.started = false
  claimedThread : cache.emptier = some .thread → thread.started = true
  claimedContext : cache.emptier = some .context → context.started = true
  spilling : thread.spilling = true → cache.emptier = some .thread
  liberating : context.liberating = true → cache.emptier = some .context
  waiting : context.waiting = true → cache.emptier = some .thread
  yielding : context = .yield → thread.emptiedDone = true
  past : cache.emptier = some .thread → context.started = true → context.waiting = false →
    thread.done? = true
  asleep : ∀ flags, context = .blocked flags → thread.emptiedDone = true → thread = .wake
  futures : cache.futuresEmptied
    = (byEmptier cache.emptier thread.futuresDone context.futuresDone).toNat
  events : cache.eventsEmptied
    = (byEmptier cache.emptier thread.eventsDone context.eventsDone).toNat
  freed : cache.freed + thread.freeing + context.freeing
    = (thread.done? && context.done?).toNat
  halves : cache.contextHalves = context.started.toNat
  view : ∀ flags, context = .wait flags ∨ context = .blocked flags → flags &&& emptied = 0

theorem CacheLaw.start : CacheLaw futureThreadCacheInitialize .dying .dying :=
  { flags := by decide
    unclaimed := fun _ => ⟨rfl, rfl⟩
    claimedThread := fun h => by cases h
    claimedContext := fun h => by cases h
    spilling := fun h => by cases h
    liberating := fun h => by cases h
    waiting := fun h => by cases h
    yielding := fun h => by cases h
    past := fun h => by cases h
    asleep := fun _ h => by cases h
    futures := rfl
    events := rfl
    freed := rfl
    halves := rfl
    view := fun _ hv => by obtain hv | hv := hv <;> cases hv }

variable {cache cache' : ThreadCache} {thread thread' : ThreadHalfPc}
  {context context' : ContextHalfPc} {assertions success : Bool}

/-- A point of the thread half that says the same about the cache. -/
theorem CacheLaw.advance (h : CacheLaw cache thread context)
    (hstarted : thread'.started = thread.started)
    (hfutures : thread'.futuresDone = thread.futuresDone)
    (hevents : thread'.eventsDone = thread.eventsDone)
    (hemptied : thread'.emptiedDone = thread.emptiedDone) (hdone : thread'.done? = thread.done?)
    (hfreeing : thread'.freeing = thread.freeing)
    (hspilling : thread'.spilling = true → thread.spilling = true)
    (hwake : thread = .wake → ∀ flags, context ≠ .blocked flags) :
    CacheLaw cache thread' context :=
  { flags := by rw [hstarted, hemptied, hdone]; exact h.flags
    unclaimed := by rw [hstarted]; exact h.unclaimed
    claimedThread := by rw [hstarted]; exact h.claimedThread
    claimedContext := h.claimedContext
    spilling := fun hs => h.spilling (hspilling hs)
    liberating := h.liberating
    waiting := h.waiting
    yielding := by rw [hemptied]; exact h.yielding
    past := by rw [hdone]; exact h.past
    asleep := fun flags hb he =>
      absurd hb (hwake (h.asleep flags hb (hemptied ▸ he)) flags)
    futures := by rw [hfutures]; exact h.futures
    events := by rw [hevents]; exact h.events
    freed := by rw [hfreeing, hdone]; exact h.freed
    halves := h.halves
    view := h.view }

/-- The wake call of the thread half. -/
theorem CacheLaw.wake (h : CacheLaw cache .wake context) : CacheLaw cache .release context.wake := by
  have hawake : CacheLaw cache .wake context.wake := by
    cases context with
    | blocked flags =>
        exact
          { flags := h.flags
            unclaimed := h.unclaimed
            claimedThread := h.claimedThread
            claimedContext := h.claimedContext
            spilling := h.spilling
            liberating := fun hl => by cases hl
            waiting := fun _ => h.waiting rfl
            yielding := fun hy => by cases hy
            past := fun _ _ hw => by cases hw
            asleep := fun _ hb => by cases hb
            futures := h.futures
            events := h.events
            freed := h.freed
            halves := h.halves
            view := fun _ hv => by obtain hv | hv := hv <;> cases hv }
    | _ => exact h
  refine hawake.advance rfl rfl rfl rfl rfl rfl (fun hs => by cases hs) fun _ flags hb => ?_
  cases context <;> cases hb

/-! ### What a half reads from the flags -/

theorem CacheLaw.threadDying_iff (h : CacheLaw cache thread context) :
    cache.flags &&& threadDying = 0 ↔ thread.started = false := by
  rw [h.flags]
  exact (cacheFlags_and ..).1

theorem CacheLaw.contextDying_iff (h : CacheLaw cache thread context) :
    cache.flags &&& contextDying = 0 ↔ context.started = false := by
  rw [h.flags]
  exact (cacheFlags_and ..).2.1

theorem CacheLaw.emptied_iff (h : CacheLaw cache thread context) :
    cache.flags &&& emptied = 0 ↔
      byEmptier cache.emptier thread.emptiedDone context.emptiedDone = false := by
  rw [h.flags]
  exact (cacheFlags_and ..).2.2.1

theorem CacheLaw.threadDone_iff (h : CacheLaw cache thread context) :
    cache.flags &&& threadDone = 0 ↔ thread.done? = false := by
  rw [h.flags]
  exact (cacheFlags_and ..).2.2.2.1

theorem CacheLaw.contextDone_iff (h : CacheLaw cache thread context) :
    cache.flags &&& contextDone = 0 ↔ context.done? = false := by
  rw [h.flags]
  exact (cacheFlags_and ..).2.2.2.2

/-- Nobody, the thread half or the context half came first. -/
theorem CacheLaw.first (h : CacheLaw cache thread context) :
    (cache.emptier = none ∧ thread.started = false ∧ context.started = false) ∨
      (cache.emptier = some .thread ∧ thread.started = true) ∨
        (cache.emptier = some .context ∧ context.started = true) := by
  cases he : cache.emptier with
  | none => exact .inl ⟨rfl, h.unclaimed he⟩
  | some half =>
      cases half with
      | thread => exact .inr (.inl ⟨rfl, h.claimedThread he⟩)
      | context => exact .inr (.inr ⟨rfl, h.claimedContext he⟩)

theorem ContextHalfPc.started_eq_false {pc : ContextHalfPc} (h : pc.started = false) :
    pc = .dying := by
  cases pc <;> simp [started] at h ⊢

theorem ThreadHalfPc.started_eq_false {pc : ThreadHalfPc} (h : pc.started = false) :
    pc = .dying := by
  cases pc <;> simp [started] at h ⊢

/-! ### The steps of the thread half -/

/-- The thread half is first. -/
theorem CacheLaw.thread_first (h : CacheLaw cache .dying context) (hc : context.started = false) :
    CacheLaw ((cache.fetchOr threadDying).claim .thread) .lock context := by
  obtain rfl := ContextHalfPc.started_eq_false hc
  have hnone : cache.emptier = none := by
    obtain ⟨he, -⟩ | ⟨-, hs⟩ | ⟨-, hs⟩ := h.first
    · exact he
    · cases hs
    · cases hs
  have hflags := h.flags
  have hfutures := h.futures
  have hevents := h.events
  rw [hnone] at hflags hfutures hevents
  exact
    { flags := by
        simp only [ThreadCache.claim, ThreadCache.fetchOr, hflags, hnone]
        decide
      unclaimed := fun he => by simp [ThreadCache.claim, ThreadCache.fetchOr, hnone] at he
      claimedThread := fun _ => rfl
      claimedContext := fun he => by simp [ThreadCache.claim, ThreadCache.fetchOr, hnone] at he
      spilling := fun _ => by simp [ThreadCache.claim, ThreadCache.fetchOr, hnone]
      liberating := fun hl => by cases hl
      waiting := fun hw => by cases hw
      yielding := fun hy => by cases hy
      past := fun _ hs => by cases hs
      asleep := fun _ hb => by cases hb
      futures := by
        simp only [ThreadCache.claim, ThreadCache.fetchOr, hnone]
        exact hfutures
      events := by
        simp only [ThreadCache.claim, ThreadCache.fetchOr, hnone]
        exact hevents
      freed := h.freed
      halves := h.halves
      view := h.view }

/-- The thread half comes after the context half. -/
theorem CacheLaw.thread_second (h : CacheLaw cache .dying context) (hc : context.started = true) :
    CacheLaw (cache.fetchOr threadDying) .release context := by
  have hcontext : cache.emptier = some .context := by
    obtain ⟨-, -, hs⟩ | ⟨-, hs⟩ | ⟨he, -⟩ := h.first
    · simp [hc] at hs
    · cases hs
    · exact he
  have hne : cache.emptier ≠ some .thread := by simp [hcontext]
  have hwaiting : context.waiting = false := by
    by_contra hw
    exact hne (h.waiting (by simpa using hw))
  have hflags := h.flags
  have hfutures := h.futures
  have hevents := h.events
  rw [hcontext] at hflags hfutures hevents
  exact
    { flags := by
        simp only [ThreadCache.fetchOr, hflags, hcontext]
        exact (cacheFlags_or ..).1
      unclaimed := fun he => by simp [ThreadCache.fetchOr, hcontext] at he
      claimedThread := fun _ => rfl
      claimedContext := fun _ => hc
      spilling := fun hs => by cases hs
      liberating := fun _ => hcontext
      waiting := fun hw => by simp [hwaiting] at hw
      yielding := fun hy => by
        rw [hy] at hwaiting
        cases hwaiting
      past := fun he => absurd he hne
      asleep := fun _ hb => by
        rw [hb] at hwaiting
        cases hwaiting
      futures := by
        simp only [ThreadCache.fetchOr, hcontext]
        exact hfutures
      events := by
        simp only [ThreadCache.fetchOr, hcontext]
        exact hevents
      freed := h.freed
      halves := h.halves
      view := h.view }

theorem CacheLaw.thread_spill (h : CacheLaw cache .spill context) :
    CacheLaw cache.emptyFutures .unlock context := by
  have he := h.spilling rfl
  exact
    { flags := h.flags
      unclaimed := fun hn => by simp [ThreadCache.emptyFutures, he] at hn
      claimedThread := fun _ => rfl
      claimedContext := h.claimedContext
      spilling := fun _ => he
      liberating := h.liberating
      waiting := h.waiting
      yielding := h.yielding
      past := h.past
      asleep := fun _ _ hd => by cases hd
      futures := by
        have hfutures := h.futures
        rw [he] at hfutures
        simp only [ThreadCache.emptyFutures, he, hfutures]
        rfl
      events := h.events
      freed := h.freed
      halves := h.halves
      view := h.view }

theorem CacheLaw.thread_events (h : CacheLaw cache .events context) :
    CacheLaw cache.emptyEvents .emptied context := by
  have he := h.spilling rfl
  exact
    { flags := h.flags
      unclaimed := fun hn => by simp [ThreadCache.emptyEvents, he] at hn
      claimedThread := fun _ => rfl
      claimedContext := h.claimedContext
      spilling := fun _ => he
      liberating := h.liberating
      waiting := h.waiting
      yielding := h.yielding
      past := h.past
      asleep := fun _ _ hd => by cases hd
      futures := h.futures
      events := by
        have hevents := h.events
        rw [he] at hevents
        simp only [ThreadCache.emptyEvents, he, hevents]
        rfl
      freed := h.freed
      halves := h.halves
      view := h.view }

/-- The thread half says that the cache is empty, and goes on to wake the context half if that one has
started. -/
theorem CacheLaw.thread_emptied (h : CacheLaw cache .emptied context) {pc : ThreadHalfPc}
    (hpc : pc = if context.started then .wake else .release) :
    CacheLaw (cache.fetchOr emptied) pc context := by
  have he := h.spilling rfl
  have hliberating : context.liberating = false := by
    by_contra hl
    have := h.liberating (by simpa using hl)
    simp [he] at this
  have hflags := h.flags
  have hfutures := h.futures
  have hevents := h.events
  rw [he] at hflags hfutures hevents
  have hsame : pc.started = true ∧ pc.emptiedDone = true ∧ pc.done? = false ∧
      pc.futuresDone = true ∧ pc.eventsDone = true ∧ pc.freeing = 0 := by
    subst hpc
    cases context.started <;> exact ⟨rfl, rfl, rfl, rfl, rfl, rfl⟩
  obtain ⟨hstarted, hemptied, hdone, hfd, hed, hfreeing⟩ := hsame
  exact
    { flags := by
        simp only [ThreadCache.fetchOr, hflags, he, hstarted, hemptied, hdone]
        exact (cacheFlags_or ..).2.2.1
      unclaimed := fun hn => by simp [ThreadCache.fetchOr, he] at hn
      claimedThread := fun _ => hstarted
      claimedContext := fun hc => by simp [ThreadCache.fetchOr, he] at hc
      spilling := fun _ => he
      liberating := fun hl => by simp [hliberating] at hl
      waiting := h.waiting
      yielding := fun _ => hemptied
      past := fun _ hs hw => absurd (h.past he hs hw) (by simp [ThreadHalfPc.done?])
      asleep := fun flags hb _ => by
        rw [hpc, hb]
        rfl
      futures := by
        simp only [ThreadCache.fetchOr, he, hfd, hfutures]
        rfl
      events := by
        simp only [ThreadCache.fetchOr, he, hed, hevents]
        rfl
      freed := by
        rw [hdone, hfreeing]
        exact h.freed
      halves := h.halves
      view := h.view }

/-- The thread half is done, and frees the cache if the context half is. -/
theorem CacheLaw.thread_done (h : CacheLaw cache .done context) {pc : ThreadHalfPc}
    (hpc : pc = if context.done? then .freeCache else .finished) :
    CacheLaw (cache.fetchOr threadDone) pc context := by
  have hflags := h.flags
  have hfreed := h.freed
  have hsame : pc.started = true ∧ pc.emptiedDone = true ∧ pc.done? = true ∧
      pc.futuresDone = true ∧ pc.eventsDone = true ∧ pc.spilling = false ∧
        pc.freeing = context.done?.toNat ∧ pc ≠ .wake := by
    subst hpc
    cases context.done? <;> exact ⟨rfl, rfl, rfl, rfl, rfl, rfl, rfl, by simp⟩
  obtain ⟨hstarted, hemptied, hdone, hfd, hed, hspilling, hfreeing, hwake⟩ := hsame
  exact
    { flags := by
        simp only [ThreadCache.fetchOr, hflags, hstarted, hemptied, hdone]
        exact (cacheFlags_or ..).2.2.2.1
      unclaimed := fun hn => by
        have hs := (h.unclaimed hn).1
        cases hs
      claimedThread := fun _ => hstarted
      claimedContext := h.claimedContext
      spilling := fun hs => by simp [hspilling] at hs
      liberating := h.liberating
      waiting := h.waiting
      yielding := fun _ => hemptied
      past := fun _ _ _ => hdone
      asleep := fun flags hb _ => by
        have hold := h.asleep flags hb rfl
        cases hold
      futures := by
        simp only [ThreadCache.fetchOr, hfd]
        exact h.futures
      events := by
        simp only [ThreadCache.fetchOr, hed]
        exact h.events
      freed := by
        have hfreed := h.freed
        simp only [ThreadCache.fetchOr, hfreeing, hdone, Bool.true_and]
        simp only [ThreadHalfPc.freeing, ThreadHalfPc.done?, Bool.false_and, Bool.toNat_false]
          at hfreed
        omega
      halves := h.halves
      view := h.view }

theorem CacheLaw.thread_freeCache (h : CacheLaw cache .freeCache context) :
    CacheLaw cache.free .finished context :=
  { flags := h.flags
    unclaimed := h.unclaimed
    claimedThread := h.claimedThread
    claimedContext := h.claimedContext
    spilling := fun hs => by cases hs
    liberating := h.liberating
    waiting := h.waiting
    yielding := h.yielding
    past := h.past
    asleep := fun flags hb _ => by
      have hold := h.asleep flags hb rfl
      cases hold
    futures := h.futures
    events := h.events
    freed := by
      have hfreed := h.freed
      simp only [ThreadCache.free, ThreadHalfPc.freeing] at hfreed ⊢
      exact hfreed
    halves := h.halves
    view := h.view }

/-- One step of the thread half on its cache. At the other points nothing changes. -/
theorem CacheLaw.threadStep (h : CacheLaw cache thread context)
    (hstep : threadHalfStep assertions cache thread = .ok (cache', thread')) :
    CacheLaw cache' thread' context := by
  cases thread with
  | dying =>
      simp only [threadHalfStep, bind_eq_ok] at hstep
      obtain ⟨-, -, hstep⟩ := hstep
      split at hstep
      case isTrue hc =>
        obtain ⟨rfl, rfl⟩ := Prod.mk.inj (pure_eq_ok.mp hstep)
        exact h.thread_first (h.contextDying_iff.mp hc)
      case isFalse hc =>
        obtain ⟨rfl, rfl⟩ := Prod.mk.inj (pure_eq_ok.mp hstep)
        exact h.thread_second (by simpa using mt h.contextDying_iff.mpr hc)
  | spill =>
      obtain ⟨rfl, rfl⟩ := Prod.mk.inj (pure_eq_ok.mp hstep)
      exact h.thread_spill
  | events =>
      obtain ⟨rfl, rfl⟩ := Prod.mk.inj (pure_eq_ok.mp hstep)
      exact h.thread_events
  | emptied =>
      simp only [threadHalfStep, bind_eq_ok, pure_eq_ok, Prod.mk.injEq] at hstep
      obtain ⟨-, -, rfl, rfl⟩ := hstep
      refine h.thread_emptied ?_
      simp only [ne_eq, h.contextDying_iff, Bool.not_eq_false]
  | clear =>
      obtain ⟨rfl, rfl⟩ := Prod.mk.inj (pure_eq_ok.mp hstep)
      exact h.advance rfl rfl rfl rfl rfl rfl (fun hs => by cases hs) fun hw => by cases hw
  | done =>
      simp only [threadHalfStep, bind_eq_ok] at hstep
      obtain ⟨-, -, hstep⟩ := hstep
      split at hstep
      case isTrue hc =>
        simp only [bind_eq_ok] at hstep
        obtain ⟨-, -, -, -, hstep⟩ := hstep
        obtain ⟨rfl, rfl⟩ := Prod.mk.inj (pure_eq_ok.mp hstep)
        refine h.thread_done ?_
        rw [if_pos (by simpa using mt h.contextDone_iff.mpr hc)]
      case isFalse hc =>
        obtain ⟨rfl, rfl⟩ := Prod.mk.inj (pure_eq_ok.mp hstep)
        refine h.thread_done ?_
        rw [h.contextDone_iff.mp (by simpa using hc)]
        rfl
  | freeCache =>
      obtain ⟨rfl, rfl⟩ := Prod.mk.inj (pure_eq_ok.mp hstep)
      exact h.thread_freeCache
  | lock | unlock | wake | release | freeContext | finished =>
      obtain ⟨rfl, rfl⟩ := Prod.mk.inj (pure_eq_ok.mp hstep)
      exact h

/-! ### The steps of the context half -/

/-- The context half is first. -/
theorem CacheLaw.context_first (h : CacheLaw cache thread .dying) (ht : thread.started = false) :
    CacheLaw (({ cache.fetchOr contextDying with contextHalves := cache.contextHalves + 1 }
      : ThreadCache).claim .context) thread .liberate := by
  obtain rfl := ThreadHalfPc.started_eq_false ht
  have hnone : cache.emptier = none := by
    obtain ⟨he, -⟩ | ⟨-, hs⟩ | ⟨-, hs⟩ := h.first
    · exact he
    · cases hs
    · cases hs
  have hflags := h.flags
  have hfutures := h.futures
  have hevents := h.events
  rw [hnone] at hflags hfutures hevents
  exact
    { flags := by
        simp only [ThreadCache.claim, ThreadCache.fetchOr, hflags, hnone]
        decide
      unclaimed := fun he => by simp [ThreadCache.claim, ThreadCache.fetchOr, hnone] at he
      claimedThread := fun he => by simp [ThreadCache.claim, ThreadCache.fetchOr, hnone] at he
      claimedContext := fun _ => rfl
      spilling := fun hs => by cases hs
      liberating := fun _ => by simp [ThreadCache.claim, ThreadCache.fetchOr, hnone]
      waiting := fun hw => by cases hw
      yielding := fun hy => by cases hy
      past := fun he => by simp [ThreadCache.claim, ThreadCache.fetchOr, hnone] at he
      asleep := fun _ hb => by cases hb
      futures := by
        simp only [ThreadCache.claim, ThreadCache.fetchOr, hnone]
        exact hfutures
      events := by
        simp only [ThreadCache.claim, ThreadCache.fetchOr, hnone]
        exact hevents
      freed := h.freed
      halves := by
        simp only [ThreadCache.claim, h.halves]
        rfl
      view := fun _ hv => by obtain hv | hv := hv <;> cases hv }

/-- The view of the flags says how far the thread half is. -/
structure Sees (view : BitVec 32) (thread : ThreadHalfPc) : Prop where
  emptied : view &&& emptied = 0 ↔ thread.emptiedDone = false
  done : view &&& threadDone = 0 ↔ thread.done? = false

theorem CacheLaw.sees (h : CacheLaw cache thread context) (he : cache.emptier = some .thread) :
    Sees cache.flags thread :=
  { emptied := by
      have hem := h.emptied_iff
      rw [he] at hem
      exact hem
    done := h.threadDone_iff }

/-- What the context half does with its view of the flags while it waits. -/
theorem CacheLaw.await (h : CacheLaw cache thread context) (hw : context.waiting = true)
    {view : BitVec 32} (hview : Sees view thread) {pc : ContextHalfPc}
    (hpc : pc = awaitEmptied view ∨ thread.emptiedDone = true ∧ pc = awaitThreadDone view) :
    CacheLaw cache thread pc := by
  have he := h.waiting hw
  have hstarted : context.started = true := by cases context <;> first | rfl | cases hw
  have hdone : context.done? = false := by cases context <;> first | rfl | cases hw
  have hfreeing : context.freeing = 0 := by cases context <;> first | rfl | cases hw
  have hcases : (∃ flags, pc = .wait flags ∧ flags &&& emptied = 0) ∨
      (pc = .yield ∧ thread.emptiedDone = true) ∨ (pc = .done ∧ thread.done? = true) := by
    have hawait : thread.emptiedDone = true → pc = awaitThreadDone view →
        (∃ flags, pc = .wait flags ∧ flags &&& emptied = 0) ∨
          (pc = .yield ∧ thread.emptiedDone = true) ∨ (pc = .done ∧ thread.done? = true) := by
      rintro hempty rfl
      unfold awaitThreadDone
      split
      · exact .inr (.inl ⟨rfl, hempty⟩)
      · exact .inr (.inr ⟨rfl, by simpa using mt hview.done.mpr ‹_›⟩)
    obtain rfl | ⟨hempty, hpc⟩ := hpc
    · by_cases hem : view &&& emptied = 0
      · exact .inl ⟨view, by rw [awaitEmptied, if_pos hem], hem⟩
      · have hempty : thread.emptiedDone = true := by simpa using mt hview.emptied.mpr hem
        exact hawait hempty (by rw [awaitEmptied, if_neg hem])
    · exact hawait hempty hpc
  have hsame : pc.started = true ∧ pc.done? = false ∧ pc.liberating = false ∧ pc.freeing = 0 ∧
      (∀ flags, pc ≠ .blocked flags) := by
    obtain ⟨flags, rfl, -⟩ | ⟨rfl, -⟩ | ⟨rfl, -⟩ := hcases <;>
      exact ⟨rfl, rfl, rfl, rfl, fun _ hb => by cases hb⟩
  obtain ⟨hs', hd', hl', hf', hb'⟩ := hsame
  have hflags := h.flags
  have hfreed := h.freed
  have hfutures := h.futures
  have hevents := h.events
  have hhalves := h.halves
  rw [he] at hflags hfutures hevents
  rw [hstarted] at hflags hhalves
  rw [hdone] at hflags hfreed
  rw [hfreeing] at hfreed
  exact
    { flags := by
        rw [hs', hd', he]
        exact hflags
      unclaimed := fun hn => by simp [he] at hn
      claimedThread := h.claimedThread
      claimedContext := fun hc => by simp [he] at hc
      spilling := h.spilling
      liberating := fun hl => by simp [hl'] at hl
      waiting := fun _ => he
      yielding := fun hy => by
        obtain ⟨flags, rfl, -⟩ | ⟨-, hempty⟩ | ⟨rfl, -⟩ := hcases
        · cases hy
        · exact hempty
        · cases hy
      past := fun _ _ hw' => by
        obtain ⟨flags, rfl, -⟩ | ⟨rfl, -⟩ | ⟨-, hd⟩ := hcases
        · cases hw'
        · cases hw'
        · exact hd
      asleep := fun flags hb => absurd hb (hb' flags)
      futures := by
        rw [he]
        exact hfutures
      events := by
        rw [he]
        exact hevents
      freed := by
        rw [hd', hf']
        exact hfreed
      halves := by
        rw [hs']
        exact hhalves
      view := fun flags hv => by
        obtain ⟨flags', rfl, hview⟩ | ⟨rfl, -⟩ | ⟨rfl, -⟩ := hcases
        · obtain hv | hv := hv
          · obtain rfl := ContextHalfPc.wait.inj hv
            exact hview
          · cases hv
        · obtain hv | hv := hv <;> cases hv
        · obtain hv | hv := hv <;> cases hv }

/-- The context half comes after the thread half. -/
theorem CacheLaw.context_second (h : CacheLaw cache thread .dying) (ht : thread.started = true) :
    CacheLaw { cache.fetchOr contextDying with contextHalves := cache.contextHalves + 1 } thread
      (awaitEmptied cache.flags) := by
  have he : cache.emptier = some .thread := by
    obtain ⟨-, hs, -⟩ | ⟨he, -⟩ | ⟨-, hs⟩ := h.first
    · simp [ht] at hs
    · exact he
    · cases hs
  have hflags := h.flags
  have hfutures := h.futures
  have hevents := h.events
  rw [he] at hflags hfutures hevents
  have hreload : CacheLaw { cache.fetchOr contextDying with
      contextHalves := cache.contextHalves + 1 } thread .reload :=
    { flags := by
        simp only [ThreadCache.fetchOr, hflags, he]
        exact (cacheFlags_or ..).2.1
      unclaimed := fun hn => by simp [ThreadCache.fetchOr, he] at hn
      claimedThread := fun _ => ht
      claimedContext := fun _ => rfl
      spilling := h.spilling
      liberating := fun hl => by cases hl
      waiting := fun _ => he
      yielding := fun hy => by cases hy
      past := fun _ _ hw => by cases hw
      asleep := fun _ hb => by cases hb
      futures := by
        simp only [ThreadCache.fetchOr, he]
        exact hfutures
      events := by
        simp only [ThreadCache.fetchOr, he]
        exact hevents
      freed := h.freed
      halves := by
        simp only [h.halves]
        rfl
      view := fun _ hv => by obtain hv | hv := hv <;> cases hv }
  exact hreload.await rfl (h.sees he) (.inl rfl)

theorem CacheLaw.context_liberate (h : CacheLaw cache thread .liberate) :
    CacheLaw cache.emptyFutures thread .events := by
  have he := h.liberating rfl
  exact
    { flags := h.flags
      unclaimed := fun hn => by simp [ThreadCache.emptyFutures, he] at hn
      claimedThread := h.claimedThread
      claimedContext := fun _ => rfl
      spilling := h.spilling
      liberating := fun _ => he
      waiting := fun hw => by cases hw
      yielding := fun hy => by cases hy
      past := h.past
      asleep := fun _ hb => by cases hb
      futures := by
        have hfutures := h.futures
        rw [he] at hfutures
        simp only [ThreadCache.emptyFutures, he, hfutures]
        rfl
      events := h.events
      freed := h.freed
      halves := h.halves
      view := fun _ hv => by obtain hv | hv := hv <;> cases hv }

theorem CacheLaw.context_events (h : CacheLaw cache thread .events) :
    CacheLaw cache.emptyEvents thread .emptied := by
  have he := h.liberating rfl
  exact
    { flags := h.flags
      unclaimed := fun hn => by simp [ThreadCache.emptyEvents, he] at hn
      claimedThread := h.claimedThread
      claimedContext := fun _ => rfl
      spilling := h.spilling
      liberating := fun _ => he
      waiting := fun hw => by cases hw
      yielding := fun hy => by cases hy
      past := h.past
      asleep := fun _ hb => by cases hb
      futures := h.futures
      events := by
        have hevents := h.events
        rw [he] at hevents
        simp only [ThreadCache.emptyEvents, he, hevents]
        rfl
      freed := h.freed
      halves := h.halves
      view := fun _ hv => by obtain hv | hv := hv <;> cases hv }

theorem CacheLaw.context_emptied (h : CacheLaw cache thread .emptied) :
    CacheLaw (cache.fetchOr emptied) thread .done := by
  have he := h.liberating rfl
  have hne : cache.emptier ≠ some .thread := by simp [he]
  have hflags := h.flags
  have hfutures := h.futures
  have hevents := h.events
  rw [he] at hflags hfutures hevents
  exact
    { flags := by
        simp only [ThreadCache.fetchOr, hflags, he]
        exact (cacheFlags_or ..).2.2.1
      unclaimed := fun hn => by simp [ThreadCache.fetchOr, he] at hn
      claimedThread := h.claimedThread
      claimedContext := fun _ => rfl
      spilling := h.spilling
      liberating := fun hl => by cases hl
      waiting := fun hw => by cases hw
      yielding := fun hy => by cases hy
      past := fun ht => absurd ht hne
      asleep := fun _ hb => by cases hb
      futures := by
        simp only [ThreadCache.fetchOr, he]
        exact hfutures
      events := by
        simp only [ThreadCache.fetchOr, he]
        exact hevents
      freed := h.freed
      halves := h.halves
      view := fun _ hv => by obtain hv | hv := hv <;> cases hv }

/-- A sleep starts only while the word is the one the half has seen. -/
theorem CacheLaw.context_sleep {view : BitVec 32} (h : CacheLaw cache thread (.wait view))
    (hsame : cache.flags = view) : CacheLaw cache thread (.blocked view) := by
  have he := h.waiting rfl
  have hempty : thread.emptiedDone = false :=
    (h.sees he).emptied.mp (by rw [hsame]; exact h.view view (.inl rfl))
  exact
    { flags := h.flags
      unclaimed := h.unclaimed
      claimedThread := h.claimedThread
      claimedContext := fun _ => rfl
      spilling := h.spilling
      liberating := fun hl => by cases hl
      waiting := fun _ => he
      yielding := fun hy => by cases hy
      past := fun _ _ hw => by cases hw
      asleep := fun _ _ hd => by simp [hempty] at hd
      futures := h.futures
      events := h.events
      freed := h.freed
      halves := h.halves
      view := fun flags hv => by
        obtain hv | hv := hv
        · cases hv
        · obtain rfl := ContextHalfPc.blocked.inj hv
          exact h.view _ (.inl rfl) }

/-- A sleep ends. -/
theorem CacheLaw.context_awake {view : BitVec 32} {pc : ContextHalfPc}
    (h : CacheLaw cache thread context) (hcontext : context = .wait view ∨ context = .blocked view)
    (hpc : pc = .reload ∨ pc = .wait view) : CacheLaw cache thread pc := by
  have hw : context.waiting = true := by obtain rfl | rfl := hcontext <;> rfl
  have he := h.waiting hw
  have hview := h.view view hcontext
  have hsame : pc.started = context.started ∧ pc.done? = context.done? ∧
      pc.freeing = context.freeing ∧ pc.waiting = true ∧ pc.liberating = false := by
    obtain rfl | rfl := hpc <;> obtain rfl | rfl := hcontext <;> exact ⟨rfl, rfl, rfl, rfl, rfl⟩
  obtain ⟨hs, hd, hf, hw', hl⟩ := hsame
  have hflags := h.flags
  have hfutures := h.futures
  have hevents := h.events
  rw [he] at hflags hfutures hevents
  exact
    { flags := by
        rw [hs, hd, he]
        exact hflags
      unclaimed := fun hn => by simp [he] at hn
      claimedThread := h.claimedThread
      claimedContext := fun hc => by simp [he] at hc
      spilling := h.spilling
      liberating := fun hl' => by simp [hl] at hl'
      waiting := fun _ => he
      yielding := fun hy => by obtain rfl | rfl := hpc <;> cases hy
      past := fun _ _ hw => by simp [hw'] at hw
      asleep := fun _ hb => by obtain rfl | rfl := hpc <;> cases hb
      futures := by
        rw [he]
        exact hfutures
      events := by
        rw [he]
        exact hevents
      freed := by
        rw [hd, hf]
        exact h.freed
      halves := by
        rw [hs]
        exact h.halves
      view := fun flags hv => by
        obtain rfl | rfl := hpc
        · obtain hv | hv := hv <;> cases hv
        · obtain hv | hv := hv
          · obtain rfl := ContextHalfPc.wait.inj hv
            exact hview
          · cases hv }

/-- The context half is done, and frees the cache if the thread half is. -/
theorem CacheLaw.context_done (h : CacheLaw cache thread .done) {pc : ContextHalfPc}
    (hpc : pc = if thread.done? then .freeCache else .finished) :
    CacheLaw (cache.fetchOr contextDone) thread pc := by
  have hflags := h.flags
  have hsame : pc.started = true ∧ pc.emptiedDone = true ∧ pc.done? = true ∧
      pc.futuresDone = true ∧ pc.eventsDone = true ∧ pc.liberating = false ∧
        pc.waiting = false ∧ pc.freeing = thread.done?.toNat ∧ pc ≠ .yield ∧
          ∀ flags, pc ≠ .wait flags ∧ pc ≠ .blocked flags := by
    subst hpc
    cases thread.done? <;> exact ⟨rfl, rfl, rfl, rfl, rfl, rfl, rfl, rfl, by simp, by simp⟩
  obtain ⟨hstarted, hemptied, hdone, hfd, hed, hl, hw, hfreeing, hy, hview⟩ := hsame
  exact
    { flags := by
        simp only [ThreadCache.fetchOr, hflags, hstarted, hemptied, hdone]
        exact (cacheFlags_or ..).2.2.2.2
      unclaimed := fun hn => by
        have hs := (h.unclaimed hn).2
        cases hs
      claimedThread := h.claimedThread
      claimedContext := fun _ => hstarted
      spilling := h.spilling
      liberating := fun hl' => by simp [hl] at hl'
      waiting := fun hw' => by simp [hw] at hw'
      yielding := fun hy' => absurd hy' hy
      past := fun he _ _ => h.past he rfl rfl
      asleep := fun flags hb => absurd hb (hview flags).2
      futures := by
        simp only [ThreadCache.fetchOr, hfd]
        exact h.futures
      events := by
        simp only [ThreadCache.fetchOr, hed]
        exact h.events
      freed := by
        have hfreed := h.freed
        simp only [ThreadCache.fetchOr, hfreeing, hdone, Bool.and_true]
        simp only [ContextHalfPc.freeing, ContextHalfPc.done?, Bool.and_false, Bool.toNat_false]
          at hfreed
        omega
      halves := by
        rw [hstarted]
        exact h.halves
      view := fun flags hv => by
        obtain hv | hv := hv
        · exact absurd hv (hview flags).1
        · exact absurd hv (hview flags).2 }

theorem CacheLaw.context_freeCache (h : CacheLaw cache thread .freeCache) :
    CacheLaw cache.free thread .finished :=
  { flags := h.flags
    unclaimed := h.unclaimed
    claimedThread := h.claimedThread
    claimedContext := h.claimedContext
    spilling := h.spilling
    liberating := fun hl => by cases hl
    waiting := fun hw => by cases hw
    yielding := fun hy => by cases hy
    past := h.past
    asleep := fun _ hb => by cases hb
    futures := h.futures
    events := h.events
    freed := by
      have hfreed := h.freed
      simp only [ThreadCache.free, ContextHalfPc.freeing] at hfreed ⊢
      rw [← show ContextHalfPc.freeCache.done? = ContextHalfPc.finished.done? from rfl]
      omega
    halves := h.halves
    view := fun _ hv => by obtain hv | hv := hv <;> cases hv }

/-- One step of the context half on its cache. -/
theorem CacheLaw.contextStep (h : CacheLaw cache thread context)
    (hstep : contextHalfStep assertions success cache context = .ok (cache', context')) :
    CacheLaw cache' thread context' := by
  cases context with
  | dying =>
      simp only [contextHalfStep, bind_eq_ok] at hstep
      obtain ⟨-, -, hstep⟩ := hstep
      split at hstep
      case isTrue ht =>
        obtain ⟨rfl, rfl⟩ := Prod.mk.inj (pure_eq_ok.mp hstep)
        exact h.context_first (h.threadDying_iff.mp ht)
      case isFalse ht =>
        obtain ⟨rfl, rfl⟩ := Prod.mk.inj (pure_eq_ok.mp hstep)
        exact h.context_second (by simpa using mt h.threadDying_iff.mpr ht)
  | liberate =>
      obtain ⟨rfl, rfl⟩ := Prod.mk.inj (pure_eq_ok.mp hstep)
      exact h.context_liberate
  | events =>
      obtain ⟨rfl, rfl⟩ := Prod.mk.inj (pure_eq_ok.mp hstep)
      exact h.context_events
  | emptied =>
      simp only [contextHalfStep, bind_eq_ok, pure_eq_ok, Prod.mk.injEq] at hstep
      obtain ⟨-, -, rfl, rfl⟩ := hstep
      exact h.context_emptied
  | wait view =>
      obtain ⟨rfl, rfl⟩ := Prod.mk.inj (pure_eq_ok.mp hstep)
      split
      case isTrue hsame => exact h.context_sleep hsame
      case isFalse => exact h.context_awake (.inl rfl) (.inl rfl)
  | blocked view =>
      obtain ⟨rfl, rfl⟩ := Prod.mk.inj (pure_eq_ok.mp hstep)
      split
      case isTrue => exact h.context_awake (.inr rfl) (.inl rfl)
      case isFalse => exact h.context_awake (.inr rfl) (.inr rfl)
  | reload =>
      obtain ⟨rfl, rfl⟩ := Prod.mk.inj (pure_eq_ok.mp hstep)
      exact h.await rfl (h.sees (h.waiting rfl)) (.inl rfl)
  | yield =>
      obtain ⟨rfl, rfl⟩ := Prod.mk.inj (pure_eq_ok.mp hstep)
      exact h.await rfl (h.sees (h.waiting rfl)) (.inr ⟨h.yielding rfl, rfl⟩)
  | done =>
      simp only [contextHalfStep, bind_eq_ok] at hstep
      obtain ⟨-, -, hstep⟩ := hstep
      split at hstep
      case isTrue ht =>
        simp only [bind_eq_ok] at hstep
        obtain ⟨-, -, -, -, hstep⟩ := hstep
        obtain ⟨rfl, rfl⟩ := Prod.mk.inj (pure_eq_ok.mp hstep)
        refine h.context_done ?_
        rw [if_pos (by simpa using mt h.threadDone_iff.mpr ht)]
      case isFalse ht =>
        obtain ⟨rfl, rfl⟩ := Prod.mk.inj (pure_eq_ok.mp hstep)
        refine h.context_done ?_
        rw [h.threadDone_iff.mp (by simpa using ht)]
        rfl
  | freeCache =>
      obtain ⟨rfl, rfl⟩ := Prod.mk.inj (pure_eq_ok.mp hstep)
      exact h.context_freeCache
  | finished =>
      obtain ⟨rfl, rfl⟩ := Prod.mk.inj (pure_eq_ok.mp hstep)
      exact h

/-! ### No assertion fails -/

/-- A half that is done has started, and the cache is empty. -/
theorem CacheLaw.emptied_of_done (h : CacheLaw cache thread context) (ht : thread.started = true)
    (hte : thread.emptiedDone = true) (hc : context.done? = true ∨ context = .done) :
    cache.flags &&& contextDying ≠ 0 ∧ cache.flags &&& emptied ≠ 0 := by
  have hstarted : context.started = true ∧ context.emptiedDone = true := by
    obtain hc | rfl := hc
    · cases context <;> first | exact ⟨rfl, rfl⟩ | cases hc
    · exact ⟨rfl, rfl⟩
  constructor
  · rw [Ne, h.contextDying_iff, hstarted.1]
    simp
  · rw [Ne, h.emptied_iff, hte, hstarted.2]
    obtain ⟨-, hs, -⟩ | ⟨he, -⟩ | ⟨he, -⟩ := h.first
    · simp [ht] at hs
    · simp [he, byEmptier]
    · simp [he, byEmptier]

theorem CacheLaw.threadStep_failsWith (h : CacheLaw cache thread context) :
    FailsWith (fun _ => False) (threadHalfStep assertions cache thread) := by
  cases thread with
  | dying =>
      have hclear : cache.flags &&& (threadDying ||| threadDone) = 0 := by
        rw [h.flags]
        exact (cacheFlags_and_or ..).1.mpr ⟨rfl, rfl⟩
      simp [threadHalfStep, hclear]
  | emptied =>
      have hclear : cache.flags &&& (emptied ||| threadDone) = 0 := by
        rw [h.flags, h.spilling rfl]
        exact (cacheFlags_and_or ..).2.1.mpr ⟨rfl, rfl⟩
      simp [threadHalfStep, hclear]
  | done =>
      have hclear := h.threadDone_iff.mpr rfl
      simp only [threadHalfStep, hclear, failsWith_bind, failsWith_assertion]
      refine ⟨by simp, fun _ _ => ?_⟩
      split
      case isTrue hc =>
        have hdone : context.done? = true := by simpa using mt h.contextDone_iff.mpr hc
        obtain ⟨hdying, hempty⟩ := h.emptied_of_done rfl rfl (.inl hdone)
        simp only [failsWith_bind, failsWith_assertion, failsWith_pure]
        refine ⟨fun _ hfail => ?_, fun _ _ => ⟨fun _ hfail => ?_, fun _ _ => trivial⟩⟩
        · simp only [bne_eq_false_iff_eq] at hfail
          exact hdying hfail
        · simp only [bne_eq_false_iff_eq] at hfail
          exact hempty hfail
      case isFalse => simp
  | spill | events | clear | freeCache | lock | unlock | wake | release | freeContext | finished =>
      simp [threadHalfStep]

theorem CacheLaw.contextStep_failsWith (h : CacheLaw cache thread context) :
    FailsWith (fun _ => False) (contextHalfStep assertions success cache context) := by
  cases context with
  | dying =>
      have hclear : cache.flags &&& (contextDying ||| contextDone) = 0 := by
        rw [h.flags]
        exact (cacheFlags_and_or ..).2.2.1.mpr ⟨rfl, rfl⟩
      simp [contextHalfStep, hclear]
  | emptied =>
      have hclear : cache.flags &&& (emptied ||| contextDone) = 0 := by
        rw [h.flags, h.liberating rfl]
        exact (cacheFlags_and_or ..).2.2.2.mpr ⟨rfl, rfl⟩
      simp [contextHalfStep, hclear]
  | done =>
      have hclear := h.contextDone_iff.mpr rfl
      simp only [contextHalfStep, hclear, failsWith_bind, failsWith_assertion]
      refine ⟨by simp, fun _ _ => ?_⟩
      split
      case isTrue ht =>
        have hdone : thread.done? = true := by simpa using mt h.threadDone_iff.mpr ht
        have hstarted : thread.started = true ∧ thread.emptiedDone = true := by
          cases thread <;> first | exact ⟨rfl, rfl⟩ | cases hdone
        obtain ⟨-, hempty⟩ := h.emptied_of_done hstarted.1 hstarted.2 (.inr rfl)
        have hdying : cache.flags &&& threadDying ≠ 0 := by
          rw [Ne, h.threadDying_iff, hstarted.1]
          simp
        simp only [failsWith_bind, failsWith_assertion, failsWith_pure]
        refine ⟨fun _ hfail => ?_, fun _ _ => ⟨fun _ hfail => ?_, fun _ _ => trivial⟩⟩
        · simp only [bne_eq_false_iff_eq] at hfail
          exact hdying hfail
        · simp only [bne_eq_false_iff_eq] at hfail
          exact hempty hfail
      case isFalse => simp
  | liberate | events | wait | blocked | reload | yield | freeCache | finished =>
      simp [contextHalfStep]

end Udipe

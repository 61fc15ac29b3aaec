import Udipe.Future.VirtualFds
import Udipe.Lib.CheckedState
import Udipe.Lib.Inventory

/-!
# Which descriptors are open, and what is registered with them

Reference: `fd.h`, `event.h`, `timer.h`, `inpoll.c`, `future/latched_inpoll.c`, `future/allocator/sync_caches.c`.

The ledger is an inventory of the table of descriptors. Its resources are lone descriptors and the groups that the
functions of `VirtualFds` set up: an inpoll with its latch, and with the inner descriptor of a chained future. Each
function takes some resources to others, next to any others.
-/

namespace Udipe.VirtualFds

open Function Checked

/-- What some descriptors are, and what is registered with the inpolls among them. -/
inductive FdResource where
  | event (fd : Fd)
  | timer (fd : Fd)
  /-- An inpoll that may monitor anything. -/
  | inpoll (fd : Fd)
  /-- An inpoll that monitors nothing. -/
  | bare (fd : Fd)
  /-- An inpoll that monitors its latch, and nothing else. -/
  | latched (poll latch : Fd)
  /-- An inpoll that monitors its latch, among others. -/
  | latching (poll latch : Fd)
  /-- An inpoll that monitors its latch and an inner descriptor, a timer or else an inpoll. -/
  | chained (repeats : Bool) (poll latch inner : Fd)

/-- The registrations of `inpoll_with_latch_t`. -/
def latchInterest (latch : Fd) : Fd → Option ℕ := update (fun _ => none) latch (some inpollLatchId)

/-- Those of a chained future. -/
def chainedInterest (latch inner : Fd) : Fd → Option ℕ :=
  update (latchInterest latch) inner (some inpollSingleUpstreamId)

/-- `fd` is an inpoll. -/
def FdTable.IsInpoll (table : FdTable) (fd : Fd) : Prop := ∃ interest, table fd = some (.epollfd interest)

namespace FdResource

def footprint : FdResource → Multiset Fd
  | event fd | timer fd | inpoll fd | bare fd => {fd}
  | latched poll latch | latching poll latch => {poll, latch}
  | chained _ poll latch inner => {poll, latch, inner}

def Holds (table : FdTable) : FdResource → Prop
  | event fd => table fd = some .eventfd
  | timer fd => table fd = some .timerfd
  | inpoll fd => table.IsInpoll fd
  | bare fd => table fd = some (.epollfd fun _ => none)
  | latched poll latch =>
      table poll = some (.epollfd (latchInterest latch)) ∧ table latch = some .eventfd
  | latching poll latch =>
      (∃ interest, table poll = some (.epollfd interest) ∧ interest latch = some inpollLatchId) ∧
        table latch = some .eventfd
  | chained repeats poll latch inner =>
      table poll = some (.epollfd (chainedInterest latch inner)) ∧ table latch = some .eventfd ∧
        if repeats then table inner = some .timerfd else table.IsInpoll inner

theorem isSome_of_holds {r : FdResource} {table : FdTable} {fd : Fd} (h : r.Holds table)
    (hfd : fd ∈ r.footprint) : (table fd).isSome = true := by
  cases r <;>
    simp only [footprint, Multiset.insert_eq_cons, Multiset.mem_cons, Multiset.mem_singleton] at hfd <;>
    simp only [Holds, FdTable.IsInpoll] at h <;> grind

theorem holds_congr {r : FdResource} {table table' : FdTable} (h : r.Holds table)
    (hsame : ∀ fd ∈ r.footprint, table' fd = table fd) : r.Holds table' := by
  cases r <;>
    simp only [footprint, Multiset.insert_eq_cons, Multiset.mem_cons, Multiset.mem_singleton] at hsame <;>
    simp only [Holds, FdTable.IsInpoll] at h ⊢ <;> grind

/-- Closing a descriptor of something else changes nothing. -/
theorem Holds.forget {r : FdResource} {table : FdTable} {fd : Fd} (h : r.Holds table) (hfd : fd ∉ r.footprint) :
    r.Holds fun q => (table q).map (VirtualFile.forget fd) := by
  have hlatch : ∀ latch, fd ≠ latch → update (latchInterest latch) fd none = latchInterest latch := by
    intro latch hne
    rw [update_eq_self_iff, latchInterest, update_of_ne hne]
  have hchained : ∀ latch inner, fd ≠ latch → fd ≠ inner →
      update (chainedInterest latch inner) fd none = chainedInterest latch inner := by
    intro latch inner hne hne'
    rw [update_eq_self_iff, chainedInterest, update_of_ne hne', latchInterest, update_of_ne hne]
  have hinpoll : ∀ q, table.IsInpoll q → FdTable.IsInpoll (fun q => (table q).map (VirtualFile.forget fd)) q := by
    rintro q ⟨interest, hq⟩
    exact ⟨update interest fd none, by simp only [hq, Option.map_some, VirtualFile.forget]⟩
  cases r with
  | event q | timer q => simp_all [Holds, VirtualFile.forget]
  | inpoll q => exact hinpoll q h
  | bare q => simp_all [Holds, VirtualFile.forget]
  | latched poll latch =>
      have hne : fd ≠ latch := by rintro rfl; simp [footprint] at hfd
      exact ⟨by simp only [h.1, Option.map_some, VirtualFile.forget, hlatch latch hne],
        by simp only [h.2, Option.map_some, VirtualFile.forget]⟩
  | latching poll latch =>
      obtain ⟨⟨interest, hpoll, hregistered⟩, hevent⟩ := h
      have hne : latch ≠ fd := by rintro rfl; simp [footprint] at hfd
      refine ⟨⟨update interest fd none, by simp only [hpoll, Option.map_some, VirtualFile.forget], ?_⟩,
        by simp only [hevent, Option.map_some, VirtualFile.forget]⟩
      rw [update_of_ne hne, hregistered]
  | chained repeats poll latch inner =>
      have hne : fd ≠ latch := by rintro rfl; simp [footprint] at hfd
      have hne' : fd ≠ inner := by rintro rfl; simp [footprint] at hfd
      refine ⟨by simp only [h.1, Option.map_some, VirtualFile.forget, hchained latch inner hne hne'],
        by simp only [h.2.1, Option.map_some, VirtualFile.forget], ?_⟩
      cases repeats with
      | false => exact hinpoll inner h.2.2
      | true =>
          have hinner : table inner = some .timerfd := h.2.2
          show (table inner).map (VirtualFile.forget fd) = some .timerfd
          rw [hinner]
          rfl

end FdResource

/-- The resources of the ledger. -/
def fdResources : ResourceKind Fd VirtualFile FdResource where
  footprint := FdResource.footprint
  Holds r table := r.Holds table
  isSome_of_holds := FdResource.isSome_of_holds
  holds_congr := FdResource.holds_congr

/-- The open descriptors are those of the resources, and only open descriptors are registered. -/
structure Ledger (table : FdTable) (rs : Multiset FdResource) : Prop where
  inventory : Inventory fdResources table rs
  registered : ∀ poll fd, table.Monitors poll fd → (table fd).isSome = true

/-- The registrations that are new are among `edges`. -/
def FdTable.Adds (table table' : FdTable) (edges : List (Fd × Fd)) : Prop :=
  ∀ poll fd, table'.Monitors poll fd → table.Monitors poll fd ∨ (poll, fd) ∈ edges

variable {table table' : FdTable} {rs : Multiset FdResource} {fd poll : Fd} {r : FdResource} {file : VirtualFile}
  {F : Exit → Prop}

theorem ledger_empty : Ledger (fun _ => none) 0 where
  inventory := .empty fun _ => rfl
  registered := fun _ _ ⟨_, hpoll, _⟩ => by cases hpoll

theorem FdTable.Adds.refl (table : FdTable) : table.Adds table [] := fun _ _ h => .inl h

theorem FdTable.Adds.trans {table'' : FdTable} {edges edges' : List (Fd × Fd)} (h : table.Adds table' edges)
    (h' : table'.Adds table'' edges') : table.Adds table'' (edges ++ edges') := by
  intro poll fd hmonitors
  rw [List.mem_append]
  rcases h' poll fd hmonitors with hmonitors | hedge
  · exact (h poll fd hmonitors).imp_right .inl
  · exact .inr (.inr hedge)

/-! ## The kernel -/

theorem Exit.IsAfter.of_subset {errnos errnos' : List Errno} {x : Exit} (h : x.IsAfter errnos)
    (hsub : errnos ⊆ errnos') : x.IsAfter errnos' := by
  obtain ⟨errno, hmem, hx⟩ := h
  exact ⟨errno, hsub hmem, hx⟩

theorem isAfter_allocate_of_create (x : Exit) (h : x.IsAfter createErrnos) : x.IsAfter allocateErrnos :=
  h.of_subset (List.subset_append_left ..)

theorem isAfter_allocate_of_watch (x : Exit) (h : x.IsAfter watchErrnos) : x.IsAfter allocateErrnos :=
  h.of_subset (List.subset_append_right ..)

/-- A new descriptor monitors nothing, and nothing monitors it. -/
theorem create_ends (k : Kernel) (h : Ledger table rs) (make : Fd → FdResource)
    (hfoot : ∀ fd, (make fd).footprint = {fd})
    (hmake : ∀ (table : FdTable) fd, table fd = some file → (make fd).Holds table)
    (hfile : ∀ interest, file = .epollfd interest → ∀ fd, interest fd = none) (message : Errno → ExitMessage)
    (hF : ∀ x, Exit.IsAfter createErrnos x → F x) :
    Ends (fun r => Ledger r.2 (make r.1 ::ₘ rs) ∧ table.Adds r.2 [] ∧ table r.1 = none) F
      (k.create file message table) := by
  unfold Kernel.create
  split
  case h_2 errno hfresh => exact hF _ ⟨errno, k.fresh_errno table errno hfresh, message errno, rfl⟩
  case h_1 fd hfresh =>
    have hfree := k.fresh_free table fd hfresh
    have hadds : table.Adds (update table fd (some file)) [] := by
      rintro poll q ⟨interest, hpoll, hq⟩
      rcases eq_or_ne poll fd with rfl | hne
      · rw [update_self, Option.some.injEq] at hpoll
        rw [hfile interest hpoll q] at hq
        cases hq
      · rw [update_of_ne hne] at hpoll
        exact .inl ⟨interest, hpoll, hq⟩
    refine ⟨⟨h.inventory.insert hfree (hfoot fd) (hmake _ fd (update_self ..)), fun poll q hmonitors => ?_⟩,
      hadds, hfree⟩
    have hopen := h.registered poll q ((hadds poll q hmonitors).resolve_right List.not_mem_nil)
    show (update table fd (some file) q).isSome = true
    rcases eq_or_ne q fd with rfl | hne
    · rw [update_self]
      rfl
    · rwa [update_of_ne hne]

/-- A descriptor is closed, and no longer registered. -/
theorem closeVirtualFd_ends (h : Ledger table (r ::ₘ rs)) (hr : r.footprint = {fd}) :
    Ends (fun q => Ledger q.2 rs ∧ table.Adds q.2 []) F (closeVirtualFd (some fd) table) := by
  have hmem : fd ∈ r.footprint := by rw [hr]; exact Multiset.mem_singleton_self fd
  have hopen : (table fd).isSome = true := FdResource.isSome_of_holds h.inventory.holds_head hmem
  have hmonitors : ∀ poll q, (table.close fd).Monitors poll q → table.Monitors poll q ∧ q ≠ fd := by
    rintro poll q ⟨interest, hpoll, hq⟩
    obtain ⟨file, hfile, hforget⟩ := Option.map_eq_some_iff.mp hpoll
    have hne : poll ≠ fd := by rintro rfl; simp at hfile
    rw [update_of_ne hne] at hfile
    cases file with
    | epollfd before =>
        obtain rfl := VirtualFile.epollfd.inj hforget
        have hne' : q ≠ fd := by rintro rfl; simp at hq
        rw [update_of_ne hne'] at hq
        exact ⟨⟨before, hfile, hq⟩, hne'⟩
    | eventfd => cases hforget
    | timerfd => cases hforget
  simp only [closeVirtualFd, hopen, if_true]
  refine ⟨⟨(h.inventory.erase hr).map fun q hq hholds => ?_, fun poll q hq => ?_⟩,
    fun poll q hq => .inl (hmonitors poll q hq).1⟩
  · exact hholds.forget (h.inventory.notMem hmem hq)
  · obtain ⟨hq, hne⟩ := hmonitors poll q hq
    obtain ⟨file, hfile⟩ := Option.isSome_iff_exists.mp (h.registered poll q hq)
    show (((update table fd none) q).map (VirtualFile.forget fd)).isSome = true
    rw [update_of_ne hne, hfile]
    rfl

variable {olds news : Multiset FdResource} {interest : Fd → Option ℕ} {identifier : ℕ}

/-- The registrations of one inpoll change. -/
theorem Ledger.modify (h : Ledger table (olds + rs)) (hpoll : poll ∈ fdResources.names olds)
    (interest' : Fd → Option ℕ)
    (hopen : ∀ fd, (interest' fd).isSome = true → (table fd).isSome = true)
    (hnames : fdResources.names news = fdResources.names olds)
    (hnews : ∀ r ∈ news, r.Holds (update table poll (some (.epollfd interest')))) :
    Ledger (update table poll (some (.epollfd interest'))) (news + rs) := by
  refine ⟨h.inventory.modify (fun fd hfd => update_of_ne ?_ ..) hnames hnews, fun q fd hmonitors => ?_⟩
  · rintro rfl
    exact hfd hpoll
  · have hfd : (table fd).isSome = true := by
      obtain ⟨interest, hq, hfd⟩ := hmonitors
      rcases eq_or_ne q poll with rfl | hne
      · rw [update_self, Option.some.injEq, VirtualFile.epollfd.injEq] at hq
        exact hopen fd (hq ▸ hfd)
      · rw [update_of_ne hne] at hq
        exact h.registered q fd ⟨interest, hq, hfd⟩
    rcases eq_or_ne fd poll with rfl | hne
    · rw [update_self]
      rfl
    · rwa [update_of_ne hne]

/-- The new registrations are those of the inpoll. -/
theorem FdTable.adds_update (hinpoll : table poll = some (.epollfd interest)) {interest' : Fd → Option ℕ}
    {edges : List (Fd × Fd)}
    (h : ∀ fd, (interest' fd).isSome = true → (interest fd).isSome = true ∨ (poll, fd) ∈ edges) :
    table.Adds (update table poll (some (.epollfd interest'))) edges := by
  rintro q fd ⟨interest'', hq, hfd⟩
  rcases eq_or_ne q poll with rfl | hne
  · rw [update_self, Option.some.injEq, VirtualFile.epollfd.injEq] at hq
    exact (h fd (hq ▸ hfd)).imp_left fun hfd => ⟨interest, hinpoll, hfd⟩
  · rw [update_of_ne hne] at hq
    exact .inl ⟨interest'', hq, hfd⟩

/-- `inpoll_attach` of an open descriptor to an inpoll. -/
theorem inpollAttach_ends (news : Multiset FdResource) (k : Kernel)
    (h : Ledger table (olds + rs)) (hpoll : poll ∈ fdResources.names olds)
    (hinpoll : table poll = some (.epollfd interest)) (hfd : (table fd).isSome = true) (hne : poll ≠ fd)
    (hnames : fdResources.names news = fdResources.names olds)
    (hnews : ∀ r ∈ news,
      r.Holds (update table poll (some (.epollfd (update interest fd (some identifier))))))
    (hF : ∀ x, Exit.IsAfter watchErrnos x → F x) :
    Ends (fun r => (r.1 = .success ∧ Ledger r.2 (news + rs) ∧ table.Adds r.2 [(poll, fd)]) ∨
        (r.1 = .tooNested ∧ r.2 = table ∧ k.nested table poll fd = true) ∨
        (r.1 = .redundant ∧ r.2 = table ∧ (interest fd).isSome = true)) F
      (inpollAttach k poll fd identifier table) := by
  obtain ⟨file, hfile⟩ := Option.isSome_iff_exists.mp hfd
  simp only [inpollAttach, Kernel.epollAdd, hinpoll, hfile, if_neg hne]
  by_cases hnested : k.nested table poll fd = true
  · simp only [hnested, if_true]
    exact .inr (.inl ⟨rfl, rfl, trivial⟩)
  by_cases hregistered : (interest fd).isSome = true
  · simp only [hnested, hregistered, if_true]
    exact .inr (.inr ⟨rfl, rfl, trivial⟩)
  simp only [hnested, hregistered]
  cases hwatch : k.watch table poll fd with
  | error errno =>
    have hmem := k.watch_errno table poll fd errno hwatch
    simp only [watchErrnos, List.mem_cons, List.not_mem_nil, or_false] at hmem
    rcases hmem with rfl | rfl
    · exact hF _ ⟨.enospc, by decide, .watchLimit, rfl⟩
    · exact hF _ ⟨.enomem, by decide, .unexpected, rfl⟩
  | ok u =>
    refine .inl ⟨rfl, h.modify hpoll _ (fun q hq => ?_) hnames hnews, ?_⟩
    · rcases eq_or_ne q fd with rfl | hq'
      · exact hfd
      · rw [update_of_ne hq'] at hq
        exact h.registered poll q ⟨interest, hinpoll, hq⟩
    · refine FdTable.adds_update hinpoll fun q hq => ?_
      rcases eq_or_ne q fd with rfl | hq'
      · exact .inr List.mem_cons_self
      · rw [update_of_ne hq'] at hq
        exact .inl hq

/-- `inpoll_detach` of an open descriptor from an inpoll. -/
theorem inpollDetach_ends (news : Multiset FdResource) (h : Ledger table (olds + rs))
    (hpoll : poll ∈ fdResources.names olds)
    (hinpoll : table poll = some (.epollfd interest)) (hfd : (table fd).isSome = true) (hne : poll ≠ fd)
    (hnames : fdResources.names news = fdResources.names olds)
    (hnews : ∀ r ∈ news, r.Holds (update table poll (some (.epollfd (update interest fd none))))) :
    Ends (fun r => (r.1 = .success ∧ Ledger r.2 (news + rs) ∧ table.Adds r.2 []) ∨
        (r.1 = .nonexistent ∧ r.2 = table ∧ interest fd = none)) F
      (inpollDetach poll fd table) := by
  obtain ⟨file, hfile⟩ := Option.isSome_iff_exists.mp hfd
  have hsub : ∀ q, (update interest fd none q).isSome = true → (interest q).isSome = true := by
    intro q hq
    rcases eq_or_ne q fd with rfl | hq'
    · simp at hq
    · rwa [update_of_ne hq'] at hq
  simp only [inpollDetach, epollDel, hinpoll, hfile, if_neg hne]
  split_ifs with hregistered
  · exact .inl ⟨rfl,
      h.modify hpoll _ (fun q hq => h.registered poll q ⟨interest, hinpoll, hsub q hq⟩) hnames hnews,
      FdTable.adds_update hinpoll fun q hq => .inl (hsub q hq)⟩
  · exact .inr ⟨rfl, rfl, Option.not_isSome_iff_eq_none.mp hregistered⟩

end Udipe.VirtualFds

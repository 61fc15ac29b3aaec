import Udipe.Lib.Server
import Mathlib.Algebra.Order.Group.Multiset

/-!
# Stacks that forget their oldest item

A `recencyCache` keeps the newest `capacity` items. Taking one out answers the newest; putting one into a full
cache drops the oldest. `RingHolds` is its representation in a ring of slots, where the newest item is at
`latest` and older ones are before it.
-/

open Function

universe u

variable {α : Type u} {capacity : ℕ}

/-! ## The cache -/

/-- `take` comes with the item to answer when there is none, `clear` takes all out. -/
inductive CacheCall (α : Type u)
  | put (x : α)
  | take (fresh : α)
  | clear

/-- The item that has been taken, and whether it was in the cache; or the items that have been dropped. -/
inductive CacheAnswer (α : Type u)
  | taken (x : α) (cached : Bool)
  | dropped (xs : List α)

/-- The state is the list of the items, the newest first. -/
def recencyCache (capacity : ℕ) : Server (List α) (CacheCall α) (CacheAnswer α) where
  answer
    | newest, .put x => some (.dropped newest[capacity - 1]?.toList, (x :: newest).take capacity)
    | [], .take fresh => some (.taken fresh false, [])
    | x :: older, .take _ => some (.taken x true, older)
    | newest, .clear => some (.dropped newest, [])

/-- The items that are put into a cache. -/
def CacheCall.handed : CacheCall α → Multiset α
  | .put x => {x}
  | .take _ | .clear => 0

/-- The items that leave a cache. -/
def CacheAnswer.left : CacheAnswer α → Multiset α
  | .taken x cached => if cached then {x} else 0
  | .dropped xs => xs

/-- One call moves items in and out, and loses none. -/
theorem recencyCache_answer_left (hcapacity : 0 < capacity) {newest newest' : List α} {c : CacheCall α}
    {a : CacheAnswer α} (hlength : newest.length ≤ capacity)
    (h : (recencyCache capacity).answer newest c = some (a, newest')) :
    newest'.length ≤ capacity ∧ (newest : Multiset α) + c.handed = a.left + newest' := by
  cases c with
  | put x =>
      cases h
      refine ⟨List.length_take_le _ _, ?_⟩
      have hsplit : newest = newest.take (capacity - 1) ++ newest[capacity - 1]?.toList := by
        rw [← List.take_add_one, Nat.sub_add_cancel hcapacity, List.take_of_length_le hlength]
      have htake : (x :: newest).take capacity = x :: newest.take (capacity - 1) := by
        conv_lhs => rw [← Nat.sub_add_cancel hcapacity]
        rfl
      rw [htake, CacheCall.handed, CacheAnswer.left]
      conv_lhs => rw [hsplit]
      rw [← Multiset.coe_add, ← Multiset.cons_coe, ← Multiset.singleton_add]
      ac_rfl
  | take fresh =>
      cases newest with
      | nil =>
          cases h
          exact ⟨hlength, rfl⟩
      | cons x older =>
          cases h
          exact ⟨(Nat.le_succ _).trans hlength, by simp [CacheCall.handed, CacheAnswer.left]⟩
  | clear =>
      cases newest <;> cases h <;> exact ⟨Nat.zero_le _, rfl⟩

/-- Over every list of calls, what is put in is what has left and what is still there. -/
theorem recencyCache_conserves (hcapacity : 0 < capacity) {newest newest' : List α}
    {cs : List (CacheCall α)} {as : List (CacheAnswer α)} (hlength : newest.length ≤ capacity)
    (h : (recencyCache capacity).serve newest cs = some (as, newest')) :
    (newest : Multiset α) + (cs.map CacheCall.handed).sum = (as.map CacheAnswer.left).sum + newest' := by
  induction cs generalizing newest as with
  | nil =>
      cases h
      simp
  | cons c cs ih =>
      obtain ⟨a, t, bs, hanswer, hserve, rfl⟩ := ((recencyCache capacity).serve_cons_eq_some).mp h
      obtain ⟨hlength', hstep⟩ := recencyCache_answer_left hcapacity hlength hanswer
      rw [List.map_cons, List.map_cons, List.sum_cons, List.sum_cons, ← add_assoc, hstep, add_assoc,
        ih hlength' hserve, ← add_assoc]

/-- The items of a cache that started empty have been put into it. -/
theorem recencyCache_handed (hcapacity : 0 < capacity) {newest : List α} {cs : List (CacheCall α)}
    {as : List (CacheAnswer α)} (h : (recencyCache capacity).serve [] cs = some (as, newest)) :
    (cs.map CacheCall.handed).sum = (as.map CacheAnswer.left).sum + newest := by
  have hconserves := recencyCache_conserves hcapacity (Nat.zero_le _) h
  rwa [Multiset.coe_nil, zero_add] at hconserves

/-- Every list of calls is answered. -/
theorem recencyCache_serve_isSome (capacity : ℕ) (newest : List α) (cs : List (CacheCall α)) :
    ∃ as newest', (recencyCache capacity).serve newest cs = some (as, newest') := by
  induction cs generalizing newest with
  | nil => exact ⟨[], newest, rfl⟩
  | cons c cs ih =>
      obtain ⟨a, t, hanswer⟩ : ∃ a t, (recencyCache capacity).answer newest c = some (a, t) := by
        cases c <;> cases newest <;> exact ⟨_, _, rfl⟩
      obtain ⟨as, newest', hserve⟩ := ih t
      exact ⟨a :: as, newest', (Server.serve_cons_eq_some _).mpr ⟨a, t, as, hanswer, hserve, rfl⟩⟩

/-- Clearing the cache. -/
theorem recencyCache_clear (capacity : ℕ) (newest : List α) :
    (recencyCache capacity).answer newest .clear = some (.dropped newest, []) := by
  cases newest <;> rfl

/-- Nothing is left after a list of calls that ends with a clear. -/
theorem recencyCache_of_getLast?_clear {newest newest' : List α} {cs : List (CacheCall α)}
    {as : List (CacheAnswer α)} (h : (recencyCache capacity).serve newest cs = some (as, newest'))
    (hlast : cs.getLast? = some .clear) : newest' = [] := by
  obtain ⟨before, rfl⟩ := List.getLast?_eq_some_iff.mp hlast
  obtain ⟨bs, t, bs', -, hclear, -⟩ := ((recencyCache capacity).serve_append_eq_some).mp h
  rw [Server.serve_cons, recencyCache_clear] at hclear
  cases hclear
  rfl

/-! ## The ring -/

/-- The slot that is `age` before `latest`. -/
def ringSlot (capacity latest age : ℕ) : ℕ := (latest + capacity - age) % capacity

/-- The items are in the slots up to `latest`, and the other slots are free. -/
structure RingHolds (capacity latest : ℕ) (slots : ℕ → Option α) (newest : List α) : Prop where
  latest_lt : latest < capacity
  length_le : newest.length ≤ capacity
  slot : ∀ age < capacity, slots (ringSlot capacity latest age) = newest[age]?

variable {latest : ℕ} {slots : ℕ → Option α} {newest : List α} {x : α}

theorem ringSlot_zero (h : latest < capacity) : ringSlot capacity latest 0 = latest := by
  rw [ringSlot, Nat.sub_zero, Nat.add_mod_right, Nat.mod_eq_of_lt h]

/-- One of two ways around. -/
theorem ringSlot_eq (h : latest < capacity) {age : ℕ} (hage : age < capacity) :
    ringSlot capacity latest age = if age ≤ latest then latest - age else latest + capacity - age := by
  rw [ringSlot]
  split
  · have heq : latest + capacity - age = (latest - age) + capacity := by omega
    rw [heq, Nat.add_mod_right, Nat.mod_eq_of_lt (by omega)]
  · exact Nat.mod_eq_of_lt (by omega)

theorem ringSlot_inj (h : latest < capacity) {age age' : ℕ} (hage : age < capacity) (hage' : age' < capacity) :
    ringSlot capacity latest age = ringSlot capacity latest age' ↔ age = age' := by
  rw [ringSlot_eq h hage, ringSlot_eq h hage']
  split <;> split <;> omega

/-- Every slot has an age. -/
theorem exists_ringSlot (h : latest < capacity) {i : ℕ} (hi : i < capacity) :
    ∃ age < capacity, ringSlot capacity latest age = i := by
  by_cases hle : i ≤ latest
  · refine ⟨latest - i, by omega, ?_⟩
    rw [ringSlot_eq h (by omega), if_pos (by omega)]
    omega
  · refine ⟨latest + capacity - i, by omega, ?_⟩
    rw [ringSlot_eq h (by omega), if_neg (by omega)]
    omega

/-- The slot after `latest`. -/
theorem ringSlot_succ (h : latest < capacity) {age : ℕ} (hage : age + 1 < capacity) :
    ringSlot capacity ((latest + 1) % capacity) (age + 1) = ringSlot capacity latest age := by
  have hlt : (latest + 1) % capacity < capacity := Nat.mod_lt _ (by omega)
  rw [ringSlot_eq hlt hage, ringSlot_eq h (by omega)]
  rcases Nat.lt_or_ge (latest + 1) capacity with hlt' | hge
  · rw [Nat.mod_eq_of_lt hlt']
    split <;> split <;> omega
  · obtain rfl : capacity = latest + 1 := by omega
    rw [Nat.mod_self]
    split <;> split <;> omega

/-- The slot after `latest` is the one of the oldest item of a full ring. -/
theorem ringSlot_last (h : latest < capacity) :
    ringSlot capacity latest (capacity - 1) = (latest + 1) % capacity := by
  rw [ringSlot]
  congr 1
  omega

namespace RingHolds

theorem empty (h : latest < capacity) (hslots : ∀ i < capacity, slots i = none) :
    RingHolds capacity latest slots [] :=
  ⟨h, Nat.zero_le _, fun age _ => hslots _ (Nat.mod_lt _ (by omega))⟩

/-- The slot of the newest item. -/
theorem slot_latest (h : RingHolds capacity latest slots newest) : slots latest = newest.head? := by
  have hslot := h.slot 0 (by have := h.latest_lt; omega)
  rwa [ringSlot_zero h.latest_lt, ← List.head?_eq_getElem?] at hslot

/-- The slot that is written next. -/
theorem slot_next (h : RingHolds capacity latest slots newest) :
    slots ((latest + 1) % capacity) = newest[capacity - 1]? := by
  have hlt := h.latest_lt
  rw [← ringSlot_last hlt]
  exact h.slot _ (by omega)

/-- An item is written after `latest`. -/
theorem put (h : RingHolds capacity latest slots newest) (x : α) :
    RingHolds capacity ((latest + 1) % capacity) (update slots ((latest + 1) % capacity) (some x))
      ((x :: newest).take capacity) := by
  have hlt := h.latest_lt
  have hlt' : (latest + 1) % capacity < capacity := Nat.mod_lt _ (by omega)
  refine ⟨hlt', List.length_take_le _ _, fun age hage => ?_⟩
  rw [List.getElem?_take_of_lt hage]
  cases age with
  | zero =>
      rw [ringSlot_zero hlt', update_self]
      rfl
  | succ age =>
      have hne : ringSlot capacity ((latest + 1) % capacity) (age + 1) ≠ (latest + 1) % capacity := by
        intro heq
        have hpos : 0 < capacity := by omega
        have hage0 := (ringSlot_inj hlt' hage hpos).mp (heq.trans (ringSlot_zero hlt').symm)
        omega
      rw [update_of_ne hne, ringSlot_succ hlt hage, h.slot age (by omega)]
      rfl

/-- The newest item is taken out, and `latest` goes back. -/
theorem take (h : RingHolds capacity latest slots (x :: newest)) :
    RingHolds capacity (if 1 ≤ latest then latest - 1 else capacity - 1) (update slots latest none)
      newest := by
  have hlt := h.latest_lt
  have hlength : newest.length + 1 ≤ capacity := h.length_le
  set before := if 1 ≤ latest then latest - 1 else capacity - 1 with hbefore
  have hlt' : before < capacity := by split at hbefore <;> omega
  have hnext : (before + 1) % capacity = latest := by
    split at hbefore
    · rw [hbefore, Nat.sub_add_cancel ‹_›, Nat.mod_eq_of_lt hlt]
    · rw [hbefore, Nat.sub_add_cancel (by omega), Nat.mod_self]
      omega
  refine ⟨hlt', by omega, fun age hage => ?_⟩
  by_cases hlast : age + 1 < capacity
  · have hslot := h.slot (age + 1) hlast
    have hne : ringSlot capacity latest (age + 1) ≠ latest := by
      intro heq
      have hpos : 0 < capacity := by omega
      have hage0 := (ringSlot_inj hlt hlast hpos).mp (heq.trans (ringSlot_zero hlt).symm)
      omega
    rw [← hnext, ringSlot_succ hlt' hlast] at hslot hne
    rw [← hnext, update_of_ne hne]
    exact hslot
  · -- the slot that has been freed
    obtain rfl : age = capacity - 1 := by omega
    rw [ringSlot_last hlt', hnext, update_self, List.getElem?_eq_none (by omega)]

/-- The items are what is in the slots. -/
theorem mem_iff (h : RingHolds capacity latest slots newest) :
    x ∈ newest ↔ ∃ i < capacity, slots i = some x := by
  constructor
  · intro hx
    obtain ⟨age, hage, rfl⟩ := List.getElem_of_mem hx
    have hlt : age < capacity := hage.trans_le h.length_le
    refine ⟨ringSlot capacity latest age, Nat.mod_lt _ (by omega), ?_⟩
    rw [h.slot age hlt, List.getElem?_eq_getElem hage]
  · rintro ⟨i, hi, hslot⟩
    obtain ⟨age, hage, rfl⟩ := exists_ringSlot h.latest_lt hi
    rw [h.slot age hage] at hslot
    exact List.mem_of_getElem? hslot

end RingHolds

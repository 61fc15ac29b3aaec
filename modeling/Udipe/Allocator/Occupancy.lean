import Udipe.Allocator.Pages
import Udipe.Lib.Checked
import Udipe.Lib.InitialSegment

/-!
# The occupancy search, access by access

Reference: `future/allocator/pointer_cache.h`.

`future_pointer_page_occupancy` is run here with a check on each read of the page, on each unsigned
difference, and on the number of rounds; sums stay below the capacity, which is a `size_t`. The
checks never fail, whatever the page holds, and what is returned is `futurePointerPageOccupancy`,
which the pointer cache of this development calls. On a page whose futures come first it is their
number.
-/

namespace Udipe

open Checked

/-- How the search could go wrong. -/
inductive OccupancyFailure where
  /-- An entry behind the end of the page is read. -/
  | outsidePage (pos : ℕ)
  /-- An unsigned difference is negative. -/
  | wrapped
  /-- The loop has not ended. -/
  | unfinished
deriving DecidableEq, Repr

/-- The two variables of the loop. -/
structure OccupancyRange where
  lastPresent : ℕ
  firstAbsent : ℕ
deriving DecidableEq, Repr

/-- A difference of two `size_t`. -/
def sizeDifference (a b : ℕ) : Except OccupancyFailure ℕ := do
  ensure (decide (b ≤ a)) .wrapped
  pure (a - b)

section

variable {Page Storage : Type} (capacity : ℕ) (page : PointerPage Page Storage)

/-- The truth of `page->futures[pos]`. -/
def loadFuture (pos : ℕ) : Except OccupancyFailure Bool := do
  ensure (decide (pos < capacity)) (.outsidePage pos)
  pure (page.futures pos).isSome

/-- The condition of the loop. -/
def OccupancyRange.unsettled (range : OccupancyRange) : Bool :=
  range.firstAbsent != range.lastPresent + 1

/-- The body of the loop. -/
def occupancyRound (range : OccupancyRange) : Except OccupancyFailure OccupancyRange := do
  let distance ← sizeDifference range.firstAbsent range.lastPresent
  let midpoint := range.lastPresent + distance / 2
  let present ← loadFuture capacity page midpoint
  if present then pure { range with lastPresent := midpoint }
  else pure { range with firstAbsent := midpoint }

/-- The search after the first entry is known to be a future and the last one not to be one. -/
def occupancyLoop (fuel last : ℕ) : Except OccupancyFailure ℕ := do
  let range ← whileE .unfinished OccupancyRange.unsettled (occupancyRound capacity page) fuel
    { lastPresent := 0, firstAbsent := last }
  pure range.firstAbsent

/-- The part of `future_pointer_page_occupancy` that reads `capacity`. -/
def occupancyOfNonEmpty (fuel : ℕ) : Except OccupancyFailure ℕ := do
  let last ← sizeDifference capacity 1
  let full ← loadFuture capacity page last
  if full then pure capacity else occupancyLoop capacity page fuel last

/-- `future_pointer_page_occupancy`. -/
def futurePointerPageOccupancyChecked (fuel : ℕ) : Except OccupancyFailure ℕ := do
  let nonEmpty ← loadFuture capacity page 0
  if nonEmpty then occupancyOfNonEmpty capacity page fuel else pure 0

end

variable {Page Storage : Type} {capacity fuel pos : ℕ} {page : PointerPage Page Storage}

/-! ## The checks -/

theorem sizeDifference_eq {a b : ℕ} (h : b ≤ a) : sizeDifference a b = .ok (a - b) := by
  rw [sizeDifference, ensure_of_true _ (by simpa using h), ok_bind]
  rfl

theorem loadFuture_eq (h : pos < capacity) :
    loadFuture capacity page pos = .ok (page.futures pos).isSome := by
  rw [loadFuture, ensure_of_true _ (by simpa using h), ok_bind]
  rfl

/-- The loop variables are in order and inside the page. -/
structure OccupancyRange.Inside (capacity : ℕ) (range : OccupancyRange) : Prop where
  lt : range.lastPresent < range.firstAbsent
  inside : range.firstAbsent < capacity

/-- The distance that is still to be halved. -/
def OccupancyRange.distance (range : OccupancyRange) : ℕ := range.firstAbsent - range.lastPresent

/-- The number of rounds that are left. -/
def OccupancyRange.rounds (range : OccupancyRange) : ℕ := Nat.clog 2 range.distance

/-- A round passes its checks, does not change what the search finds, and leaves fewer rounds. -/
theorem occupancyRound_ends {range : OccupancyRange} (h : range.Inside capacity)
    (hunsettled : range.unsettled = true) :
    Ends (fun range' => (range'.Inside capacity ∧
        occupancySearch page.futures range'.lastPresent range'.firstAbsent
          = occupancySearch page.futures range.lastPresent range.firstAbsent) ∧
        range'.rounds < range.rounds) (fun _ => False) (occupancyRound capacity page range) := by
  obtain ⟨last, first⟩ := range
  obtain ⟨hlt, hinside⟩ := h
  dsimp only at hlt hinside
  have hgap : last + 1 < first := by
    have hne : first ≠ last + 1 := by simpa [OccupancyRange.unsettled] using hunsettled
    omega
  have hmid : last + (first - last) / 2 < first := by omega
  simp only [occupancyRound, sizeDifference_eq hlt.le, ok_bind, loadFuture_eq (hmid.trans hinside)]
  rw [occupancySearch, if_pos hgap]
  split
  · rename_i hpresent
    rw [if_pos hpresent]
    refine ends_pure ⟨⟨⟨hmid, hinside⟩, rfl⟩, Nat.clog_lt_of_half ?_ ?_⟩ <;>
    · dsimp only [OccupancyRange.distance]
      omega
  · rename_i habsent
    rw [if_neg habsent]
    refine ends_pure ⟨⟨⟨?_, hmid.trans hinside⟩, rfl⟩, Nat.clog_lt_of_half ?_ ?_⟩ <;>
    · dsimp only [OccupancyRange.distance]
      omega

theorem occupancyLoop_eq {last : ℕ} (hpos : 0 < last) (hinside : last < capacity)
    (hfuel : Nat.clog 2 capacity < fuel) :
    occupancyLoop capacity page fuel last = .ok (occupancySearch page.futures 0 last) := by
  let start : OccupancyRange := { lastPresent := 0, firstAbsent := last }
  have hrounds : start.rounds < fuel :=
    (Nat.clog_mono_right 2 (by dsimp only [OccupancyRange.distance, start]; omega)).trans_lt hfuel
  have hends : Ends (fun range => (range.Inside capacity ∧
        occupancySearch page.futures range.lastPresent range.firstAbsent
          = occupancySearch page.futures 0 last) ∧ range.unsettled = false) (fun _ => False)
      (whileE .unfinished OccupancyRange.unsettled (occupancyRound capacity page) fuel start) :=
    ends_whileE _ OccupancyRange.rounds
      (fun range h hunsettled => (occupancyRound_ends h.1 hunsettled).mono fun range' h' =>
        ⟨⟨h'.1.1, h'.1.2.trans h.2⟩, h'.2⟩)
      ⟨⟨hpos, hinside⟩, rfl⟩ hrounds
  obtain ⟨range, hloop, ⟨-, hsame⟩, hsettled⟩ := hends.exists_ok
  have hnext : range.firstAbsent = range.lastPresent + 1 := by
    simpa [OccupancyRange.unsettled] using hsettled
  rw [occupancyLoop, hloop, ok_bind, ← hsame, occupancySearch, if_neg (by omega)]
  rfl

/-- The search returns what `futurePointerPageOccupancy` is, whatever the page holds. -/
theorem futurePointerPageOccupancyChecked_eq (hcapacity : 1 ≤ capacity)
    (hfuel : Nat.clog 2 capacity < fuel) :
    futurePointerPageOccupancyChecked capacity page fuel
      = .ok (futurePointerPageOccupancy capacity page) := by
  rw [futurePointerPageOccupancyChecked, futurePointerPageOccupancy, loadFuture_eq hcapacity, ok_bind]
  by_cases hfirst : page.futures 0 = none
  · simp [hfirst, Pure.pure, Except.pure]
  have hsome : (page.futures 0).isSome = true := Option.isSome_iff_ne_none.mpr hfirst
  rw [if_pos hsome, if_neg hfirst, occupancyOfNonEmpty, sizeDifference_eq hcapacity, ok_bind,
    loadFuture_eq (Nat.sub_lt hcapacity Nat.one_pos), ok_bind]
  split
  · rfl
  · rename_i hlast
    -- the first entry is a future and the last is not, so they are two entries
    have hpos : 0 < capacity - 1 := by
      rcases Nat.eq_zero_or_pos (capacity - 1) with hzero | hpos
      · exact absurd (hzero ▸ hsome) hlast
      · exact hpos
    exact occupancyLoop_eq hpos (Nat.sub_lt hcapacity Nat.one_pos) hfuel

/-! ## What it counts -/

/-- Entry `i` of the page is a future. -/
def PointerPage.Present (page : PointerPage Page Storage) (i : ℕ) : Prop :=
  (page.futures i).isSome = true

instance (page : PointerPage Page Storage) : DecidablePred page.Present :=
  fun i => inferInstanceAs (Decidable ((page.futures i).isSome = true))

theorem futurePointerPageOccupancy_eq_count (hcapacity : 1 ≤ capacity)
    (hinitial : InitialSegment page.Present capacity) :
    futurePointerPageOccupancy capacity page = Nat.count page.Present capacity :=
  futurePointerPageOccupancy_of_lt hcapacity (fun _ hj => hinitial.iff_lt_count hj)
    (Nat.count_le page.Present)

/-- On a page whose futures come first the search ends after at most `clog 2 capacity` rounds, stays
inside the page, and returns the number of futures. -/
theorem futurePointerPageOccupancy_counts (capacity : ℕ) (page : PointerPage Page Storage)
    (hcapacity : 1 ≤ capacity)
    (hinitial : ∀ i j, i ≤ j → j < capacity → page.futures j ≠ none → page.futures i ≠ none) :
    ∀ fuel, Nat.clog 2 capacity < fuel →
      futurePointerPageOccupancyChecked capacity page fuel
        = .ok (Nat.count page.Present capacity) := by
  intro fuel hfuel
  have hsegment : InitialSegment page.Present capacity := fun i j hij hj hpresent =>
    Option.isSome_iff_ne_none.mpr (hinitial i j hij hj (Option.isSome_iff_ne_none.mp hpresent))
  rw [futurePointerPageOccupancyChecked_eq hcapacity hfuel,
    futurePointerPageOccupancy_eq_count hcapacity hsegment]

/-- Two futures in a page with room for three. -/
theorem futurePointerPageOccupancy_counts_two :
    futurePointerPageOccupancyChecked 3
      ({ previous := none
         next := none
         futures := fun i => if i < 2 then some ⟨(), i⟩ else none } : PointerPage Unit Unit) 3
      = .ok 2 :=
  futurePointerPageOccupancy_counts 3 _ (by decide)
    (fun i j hij _ hj => by
      have hj2 : j < 2 := by
        by_contra h
        exact hj (if_neg h)
      simp [hij.trans_lt hj2])
    3 (by decide)

end Udipe

import Udipe.Lib.Server
import Mathlib.Tactic.Common

/-!
# Stacks in segments

A stack with room for a number of segments of `capacity` items each. The oldest segment can be taken out. An
item that has been pushed is on top again after any calls that push and pop in a balanced way.
-/

universe u

/-- The items, the oldest first, and the number of segments that there is room for. -/
structure SegmentedStack (α : Type u) where
  items : List α
  segments : ℕ

/-- `shed` takes the oldest segment out. -/
inductive StackCall (α : Type u)
  | push (x : α)
  | pop
  | shed

inductive StackAnswer (α : Type u)
  | pushed (success : Bool)
  | popped (x : Option α)
  | shed (xs : Option (List α))

variable {α : Type u}

/-- A stack without a segment cannot be pushed on. -/
def segmentedStack (capacity : ℕ) : Server (SegmentedStack α) (StackCall α) (StackAnswer α) where
  answer s
    | .push x =>
        if s.segments = 0 then none
        else if s.items.length < capacity * s.segments then
          some (.pushed true, { s with items := s.items ++ [x] })
        else some (.pushed false, s)
    | .pop => some (.popped s.items.getLast?, { s with items := s.items.dropLast })
    | .shed =>
        if s.items = [] then some (.shed none, s)
        else some (.shed (some (s.items.take capacity)), ⟨s.items.drop capacity, s.segments - 1⟩)

/-- Every pushed item is popped. -/
inductive StackCall.Balanced : List (StackCall α) → Prop
  | nil : Balanced []
  | cons (x : α) {cs ds : List (StackCall α)} (hcs : Balanced cs) (hds : Balanced ds) :
      Balanced (.push x :: (cs ++ .pop :: ds))

/-- No push has been refused. -/
def StackAnswer.Accepted (a : StackAnswer α) : Prop := a ≠ .pushed false

namespace SegmentedStack

variable {capacity : ℕ} {s s' : SegmentedStack α} {x : α} {a : StackAnswer α}

/-- An accepted push puts the item on top. -/
theorem push_eq_some (hanswer : (segmentedStack capacity).answer s (.push x) = some (a, s'))
    (haccepted : a.Accepted) : s' = { s with items := s.items ++ [x] } := by
  simp only [segmentedStack] at hanswer
  split at hanswer
  · simp at hanswer
  · split at hanswer <;> cases hanswer
    · rfl
    · exact absurd rfl haccepted

/-- The item on top is popped. -/
theorem pop_eq_some (hanswer : (segmentedStack capacity).answer { s with items := s.items ++ [x] } .pop
    = some (a, s')) : a = .popped (some x) ∧ s' = s := by
  simp only [segmentedStack, List.getLast?_append, List.getLast?_singleton, Option.some_or,
    List.dropLast_concat, Option.some.injEq, Prod.mk.injEq] at hanswer
  exact ⟨hanswer.1.symm, hanswer.2.symm⟩

/-- Balanced calls leave the stack as it was. -/
theorem serve_balanced {cs : List (StackCall α)} (hcs : StackCall.Balanced cs) {as : List (StackAnswer α)}
    (hserve : (segmentedStack capacity).serve s cs = some (as, s'))
    (haccepted : ∀ a ∈ as, a.Accepted) : s' = s := by
  induction hcs generalizing s s' as with
  | nil =>
      cases hserve
      rfl
  | cons x _ _ ihcs ihds =>
      obtain ⟨a, t, bs, hpush, hafter, rfl⟩ := ((segmentedStack capacity).serve_cons_eq_some).mp hserve
      obtain ⟨es, t', fs, hcs, hrest, rfl⟩ := ((segmentedStack capacity).serve_append_eq_some).mp hafter
      obtain ⟨b, t'', gs, hpop, hds, rfl⟩ := ((segmentedStack capacity).serve_cons_eq_some).mp hrest
      obtain rfl := push_eq_some hpush (haccepted a (by simp))
      obtain rfl := ihcs hcs fun a ha => haccepted a (by simp [ha])
      obtain ⟨-, rfl⟩ := pop_eq_some hpop
      exact ihds hds fun a ha => haccepted a (by simp [ha])

/-- The item that has been pushed is popped after balanced calls. -/
theorem pop_after_balanced {cs : List (StackCall α)} (hcs : StackCall.Balanced cs)
    {as : List (StackAnswer α)}
    (hserve : (segmentedStack capacity).serve s (.push x :: (cs ++ [.pop])) = some (as, s'))
    (haccepted : ∀ a ∈ as, a.Accepted) : as.getLast? = some (.popped (some x)) := by
  obtain ⟨a, t, bs, hpush, hafter, rfl⟩ := ((segmentedStack capacity).serve_cons_eq_some).mp hserve
  obtain ⟨es, t', fs, hcs', hrest, rfl⟩ := ((segmentedStack capacity).serve_append_eq_some).mp hafter
  obtain ⟨b, t'', gs, hpop, hnil, rfl⟩ := ((segmentedStack capacity).serve_cons_eq_some).mp hrest
  obtain rfl := push_eq_some hpush (haccepted a (by simp))
  obtain rfl := serve_balanced hcs hcs' fun a ha => haccepted a (by simp [ha])
  obtain ⟨rfl, -⟩ := pop_eq_some hpop
  cases hnil
  simp [List.getLast?_cons]

end SegmentedStack

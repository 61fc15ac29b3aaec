import Udipe.Lib.Checked
import Udipe.Lib.DoublyLinked
import Mathlib.Logic.Function.Basic

/-!
# Freeing a linked list

`LeadsThrough next l` says that the nodes `l` are linked in this order, and that the last one leads nowhere.
`freeList` frees the nodes of a list one after the other: each is read before it is freed, and neither may
happen to a node that is not allocated.
-/

universe u

open Function Checked

variable {N : Type u}

/-- Each node of `l` leads to the one behind it. -/
def LeadsThrough (next : N → Option N) : List N → Prop
  | [] => True
  | p :: l => next p = l.head? ∧ LeadsThrough next l

namespace LeadsThrough

variable {next next' : N → Option N} {l : List N} {p : N}

/-- A list depends on the links of its nodes only. -/
theorem congr (h : LeadsThrough next l) (hnext : ∀ p ∈ l, next' p = next p) : LeadsThrough next' l := by
  induction l with
  | nil => trivial
  | cons p l ih =>
      obtain ⟨hp, hl⟩ := h
      exact ⟨(hnext p List.mem_cons_self).trans hp, ih hl fun q hq => hnext q (List.mem_cons_of_mem p hq)⟩

/-- A new first node. -/
theorem push [DecidableEq N] (h : LeadsThrough next l) (hp : p ∉ l) :
    LeadsThrough (update next p l.head?) (p :: l) := by
  refine ⟨update_self .., h.congr fun q hq => update_of_ne ?_ ..⟩
  intro heq
  exact hp (heq ▸ hq)

/-- The forward links of a doubly linked list. -/
theorem of_lists {L : Links N} (h : L.Lists l) : LeadsThrough L.next l := by
  suffices ∀ l₁ l₂, l = l₁ ++ l₂ → LeadsThrough L.next l₂ from this [] l rfl
  intro l₁ l₂ hl
  induction l₂ generalizing l₁ with
  | nil => trivial
  | cons p l₂ ih =>
      refine ⟨(hl ▸ h).next_eq, ih (l₁ ++ [p]) ?_⟩
      rw [hl, List.append_assoc, List.singleton_append]

end LeadsThrough

/-- Why the loop did not end well. -/
inductive FreeError
  /-- It would go on. -/
  | exhausted
  | notAllocated
deriving DecidableEq

variable [DecidableEq N]

/-- `q = p->next; free(p); p = q;` -/
def freeRound (next : N → Option N) (s : Option N × (N → Bool)) :
    Except FreeError (Option N × (N → Bool)) :=
  match s.1 with
  | none => .ok s
  | some p => if s.2 p then .ok (next p, update s.2 p false) else .error .notAllocated

/-- `while (p) { q = p->next; free(p); p = q; }`, of at most `rounds` tests of the condition; the nodes that
are allocated then. -/
def freeList (next : N → Option N) (rounds : ℕ) (first : Option N) (allocated : N → Bool) :
    Except FreeError (N → Bool) :=
  Prod.snd <$> whileE .exhausted (fun s => s.1.isSome) (freeRound next) rounds (first, allocated)

section

variable {next : N → Option N} {l : List N} {rounds : ℕ} {allocated : N → Bool}

@[simp] theorem freeList_none : freeList next (rounds + 1) none allocated = .ok allocated := rfl

/-- One node is freed, and the rest of the list. -/
theorem freeList_some {p : N} (hp : allocated p = true) :
    freeList next (rounds + 1) (some p) allocated
      = freeList next rounds (next p) (update allocated p false) := by
  simp only [freeList, whileE, freeRound, hp, Option.isSome_some, if_true, ok_bind]

/-- All nodes of a list are freed, each once, and no others. -/
theorem freeList_eq (hlist : LeadsThrough next l) (hnodup : l.Nodup)
    (hallocated : ∀ p ∈ l, allocated p = true) (hrounds : l.length < rounds) :
    freeList next rounds l.head? allocated = .ok fun p => if p ∈ l then false else allocated p := by
  induction l generalizing rounds allocated with
  | nil =>
      obtain ⟨n, rfl⟩ : ∃ n, rounds = n + 1 := ⟨rounds - 1, by simp at hrounds; omega⟩
      simp
  | cons p l ih =>
      obtain ⟨n, rfl⟩ : ∃ n, rounds = n + 1 := ⟨rounds - 1, by simp at hrounds; omega⟩
      obtain ⟨hp, hl⟩ := hlist
      obtain ⟨hnotMem, hnodup⟩ := List.nodup_cons.mp hnodup
      rw [List.head?_cons, freeList_some (hallocated p List.mem_cons_self), hp]
      rw [ih hl hnodup ?_ (by simpa using hrounds)]
      · congr 1
        funext q
        by_cases hq : q = p
        · subst hq
          simp [hnotMem]
        · simp [hq]
      · intro q hq
        have hne : q ≠ p := fun heq => hnotMem (heq ▸ hq)
        rw [update_of_ne hne]
        exact hallocated q (List.mem_cons_of_mem p hq)

/-- With too few rounds the loop would go on; nothing else can happen to a list. -/
theorem freeList_exhausted (hlist : LeadsThrough next l) (hnodup : l.Nodup)
    (hallocated : ∀ p ∈ l, allocated p = true) (hrounds : rounds ≤ l.length) :
    freeList next rounds l.head? allocated = .error .exhausted := by
  induction rounds generalizing l allocated with
  | zero => rfl
  | succ n ih =>
      cases l with
      | nil => simp at hrounds
      | cons p l =>
          obtain ⟨hp, hl⟩ := hlist
          obtain ⟨hnotMem, hnodup⟩ := List.nodup_cons.mp hnodup
          rw [List.head?_cons, freeList_some (hallocated p List.mem_cons_self), hp]
          refine ih hl hnodup (fun q hq => ?_) (by simpa using hrounds)
          have hne : q ≠ p := fun heq => hnotMem (heq ▸ hq)
          rw [update_of_ne hne]
          exact hallocated q (List.mem_cons_of_mem p hq)

end

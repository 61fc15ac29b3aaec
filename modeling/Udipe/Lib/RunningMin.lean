import Mathlib.Order.Bounds.Basic

/-!
# Running minimum

A loop that keeps the smaller of a candidate and what it has so far ends with the least candidate,
or with the value that it started from when there were none.
-/

universe u

variable {α : Type u} [LinearOrder α] {s t : Set α} {top m g : α}

/-- `m` is the least element of `s`, or `top` when there is none. -/
def IsLeastOr (s : Set α) (top m : α) : Prop := IsLeast s m ∨ s = ∅ ∧ m = top

theorem isLeastOr_empty (top : α) : IsLeastOr ∅ top top := .inr ⟨rfl, rfl⟩

/-- One round, in which `g` is the least new candidate. -/
theorem IsLeastOr.union (h : IsLeastOr s top m) (hg : IsLeast t g) (hle : g ≤ top) :
    IsLeastOr (s ∪ t) top (if g < m then g else m) := by
  left
  rcases h with hleast | ⟨rfl, rfl⟩
  · have hunion := hleast.union hg
    split
    · rename_i hless
      rwa [min_eq_right hless.le] at hunion
    · rename_i hge
      rwa [min_eq_left (not_lt.mp hge)] at hunion
  · rw [Set.empty_union]
    split
    · exact hg
    · rename_i hge
      rwa [hle.antisymm (not_lt.mp hge)] at hg

/-- With a member, it is the least one. -/
theorem isLeastOr_iff_of_mem (hm : m ∈ s) : IsLeastOr s top m ↔ ∀ d ∈ s, m ≤ d := by
  constructor
  · rintro (hleast | ⟨rfl, -⟩) d hd
    · exact hleast.2 hd
    · exact absurd hm (Set.notMem_empty m)
  · intro hle
    exact .inl ⟨hm, fun d hd => hle d hd⟩

/-- A minimum that left out the candidates of `t` is right when one that it had is as small as they
are. -/
theorem IsLeastOr.union_iff (h : IsLeastOr s top m) (hg : IsLeast t g) (hlt : g < top) :
    IsLeastOr (s ∪ t) top m ↔ ∃ d ∈ s, d ≤ g := by
  constructor
  · intro hunion
    rcases hunion with hleast | ⟨hempty, -⟩
    · have hle : m ≤ g := hleast.2 (.inr hg.1)
      rcases h with hold | ⟨-, rfl⟩
      · exact ⟨m, hold.1, hle⟩
      · exact absurd hlt hle.not_gt
    · exact absurd (hempty ▸ Set.mem_union_right s hg.1) (Set.notMem_empty g)
  · rintro ⟨d, hd, hle⟩
    have hold : IsLeast s m := by
      rcases h with hold | ⟨rfl, -⟩
      · exact hold
      · exact absurd hd (Set.notMem_empty d)
    refine .inl ⟨.inl hold.1, ?_⟩
    rintro d' (hd' | hd')
    · exact hold.2 hd'
    · exact ((hold.2 hd).trans hle).trans (hg.2 hd')

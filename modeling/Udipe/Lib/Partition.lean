import Mathlib.Algebra.BigOperators.Group.Finset.Basic
import Mathlib.Algebra.Order.BigOperators.Group.Finset
import Mathlib.Data.Multiset.UnionInter
import Mathlib.Order.Disjoint

/-!
# Resources divided between owners

`Partitioned owned all` says that every resource of `all` is owned once, by one owner. What is handed
around between some of the owners, and what is added to them, keeps it: only the sum over these owners
matters.
-/

universe u v

open Finset

variable {H : Type u} {R : Type v} {owned owned' : H → Multiset R} {all all' : R → Prop}

/-- Every resource that exists has one owner, who owns it once. -/
structure Partitioned (owned : H → Multiset R) (all : R → Prop) : Prop where
  nodup : ∀ S : Finset H, (∑ h ∈ S, owned h).Nodup
  all_iff : ∀ r, all r ↔ ∃ h, r ∈ owned h

namespace Partitioned

/-- No owner owns a resource twice. -/
theorem nodup_owned (hp : Partitioned owned all) (h : H) : (owned h).Nodup := by
  simpa using hp.nodup {h}

variable [DecidableEq H]

/-- Two owners share nothing. -/
theorem disjoint (hp : Partitioned owned all) {h h' : H} (hne : h ≠ h') {r : R} (hr : r ∈ owned h) :
    r ∉ owned h' := by
  have hnodup := hp.nodup {h, h'}
  rw [sum_pair hne] at hnodup
  exact Multiset.disjoint_left.mp (Multiset.nodup_add.mp hnodup).2.2 hr

/-- The owner of a resource. -/
theorem existsUnique (hp : Partitioned owned all) {r : R} (hr : all r) : ∃! h, r ∈ owned h := by
  obtain ⟨h, hmem⟩ := (hp.all_iff r).mp hr
  refine ⟨h, hmem, fun h' hmem' => ?_⟩
  by_contra hne
  exact hp.disjoint hne hmem' hmem

/-- One owner gives up all that it owns. -/
theorem discard (hp : Partitioned owned all) (h : H) (hnone : owned' h = 0)
    (hrest : ∀ h', h' ≠ h → owned' h' = owned h') (hall : ∀ r, all' r ↔ all r ∧ r ∉ owned h) :
    Partitioned owned' all' := by
  refine ⟨fun S => ?_, fun r => ?_⟩
  · refine Multiset.nodup_of_le (sum_le_sum fun h' _ => ?_) (hp.nodup S)
    rcases eq_or_ne h' h with rfl | hne
    · rw [hnone]
      exact Multiset.zero_le _
    · rw [hrest h' hne]
  · rw [hall, hp.all_iff]
    constructor
    · rintro ⟨⟨h', hr⟩, hnot⟩
      have hne : h' ≠ h := fun heq => hnot (heq ▸ hr)
      exact ⟨h', (hrest h' hne).symm ▸ hr⟩
    · rintro ⟨h', hr⟩
      have hne : h' ≠ h := by
        rintro rfl
        rw [hnone] at hr
        exact absurd hr (Multiset.notMem_zero r)
      rw [hrest h' hne] at hr
      exact ⟨⟨h', hr⟩, hp.disjoint hne hr⟩

/-- The owners in `S` exchange what they own and receive the new resources `fresh`. -/
theorem exchange (hp : Partitioned owned all) (S : Finset H) (fresh : Multiset R)
    (hrest : ∀ h ∉ S, owned' h = owned h) (hsum : ∑ h ∈ S, owned' h = fresh + ∑ h ∈ S, owned h)
    (hnodup : fresh.Nodup) (hfresh : ∀ r ∈ fresh, ¬ all r) (hall : ∀ r, all' r ↔ r ∈ fresh ∨ all r) :
    Partitioned owned' all' := by
  constructor
  · intro T
    -- the part of `S` in the sum has changed by `fresh`, the rest not at all
    have hunion : ∑ h ∈ S ∪ T, owned' h = fresh + ∑ h ∈ S ∪ T, owned h := by
      rw [← sum_sdiff (subset_union_left : S ⊆ S ∪ T), hsum,
        ← sum_sdiff (subset_union_left : S ⊆ S ∪ T),
        sum_congr rfl fun h hh => hrest h (mem_sdiff.mp hh).2]
      exact add_left_comm _ _ _
    have hle : ∑ h ∈ T, owned' h ≤ fresh + ∑ h ∈ S ∪ T, owned h :=
      hunion ▸ sum_le_sum_of_subset subset_union_right
    refine Multiset.nodup_of_le hle (Multiset.nodup_add.mpr ⟨hnodup, hp.nodup _, ?_⟩)
    refine Multiset.disjoint_left.mpr fun hr hmem =>
      hfresh _ hr ((hp.all_iff _).mpr ?_)
    obtain ⟨h, -, hh⟩ := Multiset.mem_sum.mp hmem
    exact ⟨h, hh⟩
  · intro r
    have hmem : (∃ h ∈ S, r ∈ owned' h) ↔ r ∈ fresh ∨ ∃ h ∈ S, r ∈ owned h := by
      rw [← Multiset.mem_sum, hsum, Multiset.mem_add, Multiset.mem_sum]
    rw [hall, hp.all_iff]
    constructor
    · rintro (hr | ⟨h, hr⟩)
      · obtain ⟨h, -, hh⟩ := hmem.mpr (.inl hr)
        exact ⟨h, hh⟩
      · by_cases hS : h ∈ S
        · obtain ⟨h, -, hh⟩ := hmem.mpr (.inr ⟨h, hS, hr⟩)
          exact ⟨h, hh⟩
        · exact ⟨h, hrest h hS ▸ hr⟩
    · rintro ⟨h, hr⟩
      by_cases hS : h ∈ S
      · rcases hmem.mp ⟨h, hS, hr⟩ with hr | ⟨h, -, hr⟩
        · exact .inl hr
        · exact .inr ⟨h, hr⟩
      · exact .inr ⟨h, hrest h hS ▸ hr⟩

end Partitioned

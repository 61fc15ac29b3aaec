import Mathlib.Logic.Function.Basic

/-!
# Resources with one owner each

A table says what each resource currently is, and `held` which resource each holder holds. `Owned`
says that no resource is held twice and that every resource that is held exists and fits its holder.
It is kept by the four things a program does with a resource: acquire a fresh one, hand one over,
release one, change one in place. `Covered` says that no resource is lost: each of the table is
held. The same four things keep it, provided that nothing is put where something is held.
-/

open Function

universe u v w

variable {H : Type u} {R : Type v} {D : Type w} {fits : H → D → Prop} {held : H → Option R}
  {table : R → Option D}

/-- Every resource that is held has one holder and fits it. -/
structure Owned (fits : H → D → Prop) (held : H → Option R) (table : R → Option D) : Prop where
  exclusive : ∀ h h' r, held h = some r → held h' = some r → h = h'
  valid : ∀ h r, held h = some r → ∃ d, table r = some d ∧ fits h d

namespace Owned

/-- The table entry after the resource in `r`, if any, is gone. -/
def without [DecidableEq R] (table : R → Option D) (r : Option R) : R → Option D :=
  match r with
  | some r => update table r none
  | none => table

/-- A holder that holds nothing. -/
theorem clear [DecidableEq H] (ho : Owned fits held table) (h : H) : Owned fits (update held h none)
    table := by
  have hsub : ∀ k r, update held h none k = some r → held k = some r := by
    intro k r hk
    rcases eq_or_ne k h with rfl | hne
    · simp at hk
    · rwa [update_of_ne hne] at hk
  exact ⟨fun k k' r hk hk' => ho.exclusive k k' r (hsub k r hk) (hsub k' r hk'),
    fun k r hk => ho.valid k r (hsub k r hk)⟩

/-- A fresh resource. -/
theorem acquire [DecidableEq H] [DecidableEq R] (ho : Owned fits held table) {h : H} {r : R} {d : D}
    (hfresh : table r = none) (hfits : fits h d) : Owned fits (update held h (some r))
    (update table r (some d)) := by
  have hne : ∀ k, held k ≠ some r := by
    intro k hk
    obtain ⟨d, hd, -⟩ := ho.valid k r hk
    simp [hfresh] at hd
  have hnew : ∀ q, update held h (some r) h = some q → q = r := by
    intro q hq
    simpa [eq_comm] using hq
  have hrest : ∀ k q, k ≠ h → update held h (some r) k = some q → q ≠ r ∧ held k = some q := by
    intro k q hk hq
    rw [update_of_ne hk] at hq
    exact ⟨fun hqr => hne k (hqr ▸ hq), hq⟩
  refine ⟨fun k k' q hk hk' => ?_, fun k q hk => ?_⟩
  · by_cases hkh : k = h <;> by_cases hkh' : k' = h
    · rw [hkh, hkh']
    · exact absurd (hnew q (hkh ▸ hk)) (hrest k' q hkh' hk').1
    · exact absurd (hnew q (hkh' ▸ hk')) (hrest k q hkh hk).1
    · exact ho.exclusive k k' q (hrest k q hkh hk).2 (hrest k' q hkh' hk').2
  · by_cases hkh : k = h
    · obtain rfl := hnew q (hkh ▸ hk)
      exact ⟨d, update_self .., hkh ▸ hfits⟩
    · obtain ⟨hqr, hk⟩ := hrest k q hkh hk
      rw [update_of_ne hqr]
      exact ho.valid k q hk

/-- What `src` held is now held by `dst`. -/
theorem transfer [DecidableEq H] (ho : Owned fits held table) (src dst : H)
    (hfits : ∀ r d, held src = some r → table r = some d → fits src d → fits dst d) :
    Owned fits (update (update held src none) dst (held src)) table := by
  have hrest : ∀ k r, k ≠ dst → update (update held src none) dst (held src) k = some r →
      k ≠ src ∧ held k = some r := by
    intro k r hk h
    rw [update_of_ne hk] at h
    rcases eq_or_ne k src with rfl | hks
    · simp at h
    · exact ⟨hks, by rwa [update_of_ne hks] at h⟩
  refine ⟨fun k k' q hk hk' => ?_, fun k q hk => ?_⟩
  · by_cases hkd : k = dst <;> by_cases hkd' : k' = dst
    · rw [hkd, hkd']
    · rw [hkd, update_self] at hk
      obtain ⟨hks, hk'⟩ := hrest k' q hkd' hk'
      exact absurd (ho.exclusive k' src q hk' hk) hks
    · rw [hkd', update_self] at hk'
      obtain ⟨hks, hk⟩ := hrest k q hkd hk
      exact absurd (ho.exclusive k src q hk hk') hks
    · exact ho.exclusive k k' q (hrest k q hkd hk).2 (hrest k' q hkd' hk').2
  · by_cases hkd : k = dst
    · rw [hkd, update_self] at hk
      obtain ⟨d, hd, hfit⟩ := ho.valid src q hk
      exact ⟨d, hd, hkd ▸ hfits q d hk hd hfit⟩
    · exact ho.valid k q (hrest k q hkd hk).2

/-- A resource is destroyed along with its holder's reference. -/
theorem release [DecidableEq H] [DecidableEq R] (ho : Owned fits held table) (h : H) :
    Owned fits (update held h none) (without table (held h)) := by
  refine ⟨(ho.clear h).exclusive, fun k r hk => ?_⟩
  obtain ⟨d, hd, hfit⟩ := (ho.clear h).valid k r hk
  refine ⟨d, ?_, hfit⟩
  cases hheld : held h with
  | none => exact hd
  | some q =>
      have hkh : k ≠ h := by
        rintro rfl
        simp at hk
      have hrq : r ≠ q := by
        rintro rfl
        rw [update_of_ne hkh] at hk
        exact hkh (ho.exclusive k h r hk hheld)
      rw [without, update_of_ne hrq, hd]

/-- A resource changes in place. -/
theorem modify [DecidableEq R] (ho : Owned fits held table) {r : R} {d : D}
    (hfits : ∀ h, held h = some r → fits h d) : Owned fits held (update table r (some d)) := by
  refine ⟨ho.exclusive, fun h q hq => ?_⟩
  rcases eq_or_ne q r with rfl | hne
  · exact ⟨d, update_self .., hfits h hq⟩
  · rw [update_of_ne hne]
    exact ho.valid h q hq

end Owned

/-- Every resource of the table is held. -/
def Covered (held : H → Option R) (table : R → Option D) : Prop :=
  ∀ r d, table r = some d → ∃ h, held h = some r

namespace Covered

/-- A fresh resource goes where nothing is held. -/
theorem acquire [DecidableEq H] [DecidableEq R] (hc : Covered held table) {h : H} {r : R} {d : D}
    (hfree : held h = none) : Covered (update held h (some r)) (update table r (some d)) := by
  intro q d' hq
  rcases eq_or_ne q r with rfl | hne
  · exact ⟨h, update_self ..⟩
  · rw [update_of_ne hne] at hq
    obtain ⟨k, hk⟩ := hc q d' hq
    have hkh : k ≠ h := by
      rintro rfl
      rw [hfree] at hk
      cases hk
    exact ⟨k, by rw [update_of_ne hkh, hk]⟩

/-- A resource is handed to a holder that holds nothing, or stays. -/
theorem transfer [DecidableEq H] (hc : Covered held table) {src dst : H}
    (hfree : dst = src ∨ held dst = none) :
    Covered (update (update held src none) dst (held src)) table := by
  intro r d hr
  obtain ⟨k, hk⟩ := hc r d hr
  rcases eq_or_ne k src with rfl | hks
  · exact ⟨dst, by rw [update_self, hk]⟩
  · have hkd : k ≠ dst := by
      rintro rfl
      obtain rfl | hnone := hfree
      · exact hks rfl
      · rw [hnone] at hk
        cases hk
    exact ⟨k, by rw [update_of_ne hkd, update_of_ne hks, hk]⟩

/-- A holder that holds nothing is cleared. -/
theorem clear [DecidableEq H] (hc : Covered held table) {h : H} (hfree : held h = none) :
    Covered (update held h none) table := by
  rwa [← hfree, update_eq_self]

/-- A resource is destroyed along with its holder's reference. -/
theorem release [DecidableEq H] [DecidableEq R] (hc : Covered held table) {h : H} :
    Covered (update held h none) (Owned.without table (held h)) := by
  intro r d hr
  cases hheld : held h with
  | none =>
      rw [hheld] at hr
      exact hc.clear hheld r d hr
  | some q =>
      rw [hheld, Owned.without] at hr
      have hne : r ≠ q := by
        rintro rfl
        rw [update_self] at hr
        cases hr
      rw [update_of_ne hne] at hr
      obtain ⟨k, hk⟩ := hc r d hr
      have hkh : k ≠ h := by
        rintro rfl
        exact hne (Option.some.inj (hk.symm.trans hheld))
      exact ⟨k, by rw [update_of_ne hkh, hk]⟩

/-- A resource changes in place. -/
theorem modify [DecidableEq R] (hc : Covered held table) {r : R} {d : D} {h : H}
    (hheld : held h = some r) : Covered held (update table r (some d)) := by
  intro q d' hq
  rcases eq_or_ne q r with rfl | hne
  · exact ⟨h, hheld⟩
  · exact hc q d' (by rwa [update_of_ne hne] at hq)

end Covered

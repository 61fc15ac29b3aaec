import Mathlib.Algebra.BigOperators.Finsupp.Basic
import Mathlib.Algebra.Order.Group.Multiset
import Mathlib.Data.Multiset.Bind

/-!
# Tables and the inventory of what is in them

A table gives some names a content. A resource is a group of names along with what is known about their contents,
and an inventory of a table is made of resources that share no name and leave none out. The rules below change one
resource next to any others, so that a function that only touches its own can be used in every inventory.

`holdings_update` splits an inventory between parties, of which one or two act at a time.
-/

open Function

universe u v w

/-- What resources say about a table. -/
structure ResourceKind (F : Type u) (D : Type v) (R : Type w) where
  /-- The names of a resource. -/
  footprint : R → Multiset F
  Holds : R → (F → Option D) → Prop
  isSome_of_holds : ∀ {r table f}, Holds r table → f ∈ footprint r → (table f).isSome = true
  /-- Only its own names matter to a resource. -/
  holds_congr : ∀ {r table table'}, Holds r table → (∀ f ∈ footprint r, table' f = table f) → Holds r table'

variable {F : Type u} {D : Type v} {R : Type w} {K : ResourceKind F D R} {table table' : F → Option D}
  {rs olds news : Multiset R} {r r' : R} {f : F}

/-- The names of several resources. -/
def ResourceKind.names (K : ResourceKind F D R) (rs : Multiset R) : Multiset F := rs.bind K.footprint

@[simp] theorem ResourceKind.names_zero : K.names 0 = 0 := Multiset.zero_bind _

@[simp] theorem ResourceKind.names_cons : K.names (r ::ₘ rs) = K.footprint r + K.names rs :=
  Multiset.cons_bind ..

@[simp] theorem ResourceKind.names_add : K.names (olds + rs) = K.names olds + K.names rs :=
  Multiset.add_bind ..

theorem ResourceKind.mem_names : f ∈ K.names rs ↔ ∃ r ∈ rs, f ∈ K.footprint r := Multiset.mem_bind

/-- The resources share no name, hold, and cover the table. -/
structure Inventory (K : ResourceKind F D R) (table : F → Option D) (rs : Multiset R) : Prop where
  nodup : (K.names rs).Nodup
  holds : ∀ r ∈ rs, K.Holds r table
  covers : ∀ f, (table f).isSome = true → f ∈ K.names rs

namespace Inventory

theorem empty (h : ∀ f, table f = none) : Inventory K table 0 where
  nodup := by simp
  holds := fun r hr => absurd hr (Multiset.notMem_zero r)
  covers := fun f hf => by simp [h f] at hf

theorem holds_head (h : Inventory K table (r ::ₘ rs)) : K.Holds r table :=
  h.holds r (Multiset.mem_cons_self r rs)

theorem isSome_iff (h : Inventory K table rs) : (table f).isSome = true ↔ f ∈ K.names rs := by
  refine ⟨h.covers f, fun hf => ?_⟩
  obtain ⟨r, hr, hfoot⟩ := ResourceKind.mem_names.mp hf
  exact K.isSome_of_holds (h.holds r hr) hfoot

/-- A name of one resource is a name of no other. -/
theorem notMem (h : Inventory K table (r ::ₘ rs)) (hf : f ∈ K.footprint r) (hr' : r' ∈ rs) :
    f ∉ K.footprint r' := by
  intro hf'
  have hnodup := h.nodup
  rw [ResourceKind.names_cons, Multiset.nodup_add] at hnodup
  exact Multiset.disjoint_left.mp hnodup.2.2 hf (ResourceKind.mem_names.mpr ⟨r', hr', hf'⟩)

/-- The same names, told apart in another way. -/
theorem regroup (h : Inventory K table (olds + rs)) (hnames : K.names news = K.names olds)
    (hnews : ∀ r ∈ news, K.Holds r table) : Inventory K table (news + rs) := by
  refine ⟨?_, fun r hr => ?_, fun f hf => ?_⟩
  · rw [ResourceKind.names_add, hnames, ← ResourceKind.names_add]
    exact h.nodup
  · rcases Multiset.mem_add.mp hr with hr | hr
    · exact hnews r hr
    · exact h.holds r (Multiset.mem_add.mpr (.inr hr))
  · rw [ResourceKind.names_add, hnames, ← ResourceKind.names_add]
    exact h.covers f hf

/-- The contents of some names change. -/
theorem modify (h : Inventory K table (olds + rs)) (htable : ∀ f, f ∉ K.names olds → table' f = table f)
    (hnames : K.names news = K.names olds) (hnews : ∀ r ∈ news, K.Holds r table') :
    Inventory K table' (news + rs) := by
  have hnodup := h.nodup
  rw [ResourceKind.names_add, Multiset.nodup_add] at hnodup
  refine ⟨?_, fun r hr => ?_, fun f hf => ?_⟩
  · rw [ResourceKind.names_add, hnames, ← ResourceKind.names_add]
    exact h.nodup
  · rcases Multiset.mem_add.mp hr with hr | hr
    · exact hnews r hr
    · refine K.holds_congr (h.holds r (Multiset.mem_add.mpr (.inr hr))) fun f hf => htable f ?_
      exact Multiset.disjoint_right.mp hnodup.2.2 (ResourceKind.mem_names.mpr ⟨r, hr, hf⟩)
  · rw [ResourceKind.names_add, hnames, Multiset.mem_add]
    by_cases hold : f ∈ K.names olds
    · exact .inl hold
    · rw [htable f hold] at hf
      exact Multiset.mem_add.mp (ResourceKind.names_add ▸ h.covers f hf)

/-- All contents change in a way that the resources allow. -/
theorem map (h : Inventory K table rs) {g : D → D}
    (hg : ∀ r ∈ rs, K.Holds r table → K.Holds r fun f => (table f).map g) :
    Inventory K (fun f => (table f).map g) rs :=
  ⟨h.nodup, fun r hr => hg r hr (h.holds r hr), fun f hf => h.covers f (by simpa using hf)⟩

variable [DecidableEq F]

/-- A free name is put to use. -/
theorem insert (h : Inventory K table rs) {d : D} (hfree : table f = none) (hr : K.footprint r = {f})
    (hd : K.Holds r (update table f (some d))) : Inventory K (update table f (some d)) (r ::ₘ rs) := by
  have hnew : f ∉ K.names rs := by
    rw [← h.isSome_iff, hfree]
    exact Bool.false_ne_true
  refine ⟨?_, fun q hq => ?_, fun q hq => ?_⟩
  · rw [ResourceKind.names_cons, hr, Multiset.singleton_add]
    exact Multiset.nodup_cons.mpr ⟨hnew, h.nodup⟩
  · rcases Multiset.mem_cons.mp hq with rfl | hq
    · exact hd
    · refine K.holds_congr (h.holds q hq) fun f' hf' => update_of_ne ?_ ..
      rintro rfl
      exact hnew (ResourceKind.mem_names.mpr ⟨q, hq, hf'⟩)
  · rw [ResourceKind.names_cons, hr, Multiset.singleton_add, Multiset.mem_cons]
    rcases eq_or_ne q f with rfl | hne
    · exact .inl rfl
    · rw [update_of_ne hne] at hq
      exact .inr (h.covers q hq)

/-- A name is given up. -/
theorem erase (h : Inventory K table (r ::ₘ rs)) (hr : K.footprint r = {f}) :
    Inventory K (update table f none) rs := by
  have hnodup := h.nodup
  rw [ResourceKind.names_cons, hr, Multiset.singleton_add, Multiset.nodup_cons] at hnodup
  refine ⟨hnodup.2, fun q hq => ?_, fun q hq => ?_⟩
  · refine K.holds_congr (h.holds q (Multiset.mem_cons_of_mem hq)) fun f' hf' => update_of_ne ?_ ..
    rintro rfl
    exact hnodup.1 (ResourceKind.mem_names.mpr ⟨q, hq, hf'⟩)
  · rcases eq_or_ne q f with rfl | hne
    · rw [update_self] at hq
      exact absurd hq Bool.false_ne_true
    · rw [update_of_ne hne] at hq
      have hmem := h.covers q hq
      rw [ResourceKind.names_cons, hr, Multiset.singleton_add, Multiset.mem_cons] at hmem
      exact hmem.resolve_left hne

end Inventory

/-! ## The holdings of several parties -/

section

variable {O : Type u} {M : Type v} [AddCommMonoid M]

/-- All that the parties hold. -/
noncomputable def holdings (own : O →₀ M) : M := own.sum fun _ m => m

theorem holdings_zero : holdings (0 : O →₀ M) = 0 := Finsupp.sum_zero_index

theorem holdings_eq_erase (own : O →₀ M) (o : O) : holdings own = own o + holdings (own.erase o) :=
  (Finsupp.add_sum_erase' own o (fun _ m => m) fun _ => rfl).symm

/-- What one party holds, and a rest that does not depend on it. -/
theorem holdings_update (own : O →₀ M) (o : O) :
    ∃ rest, holdings own = own o + rest ∧ ∀ m, holdings (own.update o m) = m + rest := by
  classical
  refine ⟨holdings (own.erase o), holdings_eq_erase own o, fun m => ?_⟩
  rw [holdings_eq_erase _ o, Finsupp.erase_update_eq_erase, Finsupp.update_apply, if_pos rfl]

/-- What two parties hold, and a rest that does not depend on it. -/
theorem holdings_update₂ (own : O →₀ M) {o o' : O} (hne : o ≠ o') :
    ∃ rest, holdings own = own o + own o' + rest ∧
      ∀ m m', holdings ((own.update o m).update o' m') = m + m' + rest := by
  classical
  refine ⟨holdings ((own.erase o).erase o'), ?_, fun m m' => ?_⟩
  · rw [holdings_eq_erase own o, holdings_eq_erase (own.erase o) o', Finsupp.erase_ne hne.symm, add_assoc]
  · have hrest : (((own.update o m).update o' m').erase o).erase o' = (own.erase o).erase o' := by
      ext q
      by_cases hq' : q = o' <;> by_cases hq : q = o <;> simp [Finsupp.erase_apply, Finsupp.update_apply, hq, hq']
    rw [holdings_eq_erase _ o, holdings_eq_erase (Finsupp.erase o _) o', hrest, ← add_assoc,
      Finsupp.erase_ne hne.symm]
    simp [Finsupp.update_apply, hne]

theorem mem_holdings {own : O →₀ Multiset R} {r : R} : r ∈ holdings own ↔ ∃ o, r ∈ own o := by
  constructor
  · intro hr
    obtain ⟨o, -, ho⟩ := Multiset.mem_sum.mp hr
    exact ⟨o, ho⟩
  · rintro ⟨o, ho⟩
    rw [holdings_eq_erase own o]
    exact Multiset.mem_add.mpr (.inl ho)

/-- What one party has, no other has. -/
theorem Inventory.owner_unique {own : O →₀ Multiset R} (h : Inventory K table (holdings own)) {o o' : O}
    (ho : f ∈ K.names (own o)) (ho' : f ∈ K.names (own o')) : o = o' := by
  by_contra hne
  obtain ⟨rest, hsplit, -⟩ := holdings_update₂ own hne
  have hnodup := h.nodup
  rw [hsplit, ResourceKind.names_add, ResourceKind.names_add, Multiset.nodup_add, Multiset.nodup_add] at hnodup
  exact Multiset.disjoint_left.mp hnodup.1.2.2 ho ho'

end

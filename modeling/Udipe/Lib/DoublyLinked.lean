import Mathlib.Data.List.Nodup
import Mathlib.Logic.Relation

/-!
# Doubly linked lists

`Links` are the two pointers of every node of a heap, and `L.Lists l` says that the nodes `l` are linked to
each other in this order and to nothing else. The rules below say which writes insert a node, remove one
and leave a list alone, for any order of the writes.
-/

universe u

/-- The pointers of the nodes. -/
structure Links (N : Type u) where
  next : N → Option N
  previous : N → Option N

namespace Links

variable {N : Type u} {L L' : Links N} {l l₁ l₂ : List N} {p q : N}

/-- The nodes of `l` are linked in this order. -/
structure Lists (L : Links N) (l : List N) : Prop where
  nodup : l.Nodup
  links : ∀ l₁ p l₂, l = l₁ ++ p :: l₂ → L.previous p = l₁.getLast? ∧ L.next p = l₂.head?

@[simp] theorem lists_nil (L : Links N) : L.Lists [] :=
  ⟨List.nodup_nil, fun l₁ p l₂ h => by simp at h⟩

/-- A single node that points nowhere. -/
theorem lists_singleton (hnext : L.next p = none) (hprevious : L.previous p = none) :
    L.Lists [p] := by
  refine ⟨List.nodup_singleton p, fun l₁ q l₂ h => ?_⟩
  obtain ⟨rfl, rfl, rfl⟩ : l₁ = [] ∧ q = p ∧ l₂ = [] := by
    cases l₁ with
    | nil => simpa [eq_comm] using h
    | cons a l₁ => simp at h
  exact ⟨hprevious, hnext⟩

namespace Lists

/-- The pointers at one place in the list. -/
theorem previous_eq (h : L.Lists (l₁ ++ p :: l₂)) : L.previous p = l₁.getLast? := (h.links l₁ p l₂ rfl).1

theorem next_eq (h : L.Lists (l₁ ++ p :: l₂)) : L.next p = l₂.head? := (h.links l₁ p l₂ rfl).2

/-- A list depends on the pointers of its nodes only. -/
theorem congr (h : L.Lists l) (hnext : ∀ p ∈ l, L'.next p = L.next p)
    (hprevious : ∀ p ∈ l, L'.previous p = L.previous p) : L'.Lists l := by
  refine ⟨h.nodup, fun l₁ p l₂ hl => ?_⟩
  have hp : p ∈ l := by simp [hl]
  rw [hnext p hp, hprevious p hp]
  exact h.links l₁ p l₂ hl

/-- A node behind the place that changes: only the first one there gets another predecessor, the end
of `k`. -/
theorem links_behind {k m c b : List N} (h : L.Lists (m ++ (c ++ q :: b)))
    (hnodup : (l₁ ++ (c ++ q :: b)).Nodup)
    (hhead : ∀ r ∈ (c ++ q :: b).head?, L'.previous r = k.getLast?)
    (hnext : q ∉ l₁.getLast? → L'.next q = L.next q)
    (hprevious : q ∉ (c ++ q :: b).head? → L'.previous q = L.previous q) :
    L'.previous q = (k ++ c).getLast? ∧ L'.next q = b.head? := by
  have hlinks := h.links (m ++ c) q b (by simp)
  have hlast : q ∉ l₁.getLast? := fun hmem =>
    List.disjoint_of_nodup_append hnodup (List.mem_of_mem_getLast? hmem) (by simp)
  refine ⟨?_, (hnext hlast).trans hlinks.2⟩
  cases c with
  | nil => simpa using hhead q (by simp)
  | cons e c =>
      have hqe : q ≠ e := fun heq => by simp [List.nodup_append, heq] at hnodup
      rw [hprevious (by simpa [eq_comm] using hqe), hlinks.1]
      simp [List.getLast?_append, List.getLast?_cons]

/-- A node before it: only the last one there gets another successor, the head of `k`. -/
theorem links_before {k m a c : List N} (h : L.Lists (a ++ q :: c ++ m))
    (hnodup : (a ++ q :: c ++ l₂).Nodup)
    (hlast : ∀ r ∈ (a ++ q :: c).getLast?, L'.next r = k.head?)
    (hnext : q ∉ (a ++ q :: c).getLast? → L'.next q = L.next q)
    (hprevious : q ∉ l₂.head? → L'.previous q = L.previous q) :
    L'.previous q = a.getLast? ∧ L'.next q = (c ++ k).head? := by
  have hlinks := h.links a q (c ++ m) (by simp)
  have hhead : q ∉ l₂.head? := fun hmem =>
    List.disjoint_of_nodup_append hnodup (by simp) (List.mem_of_mem_head? hmem)
  refine ⟨(hprevious hhead).trans hlinks.1, ?_⟩
  cases c with
  | nil => simpa using hlast q (by simp)
  | cons e c =>
      have hqlast : q ∉ (a ++ q :: e :: c).getLast? := fun hmem => by
        have hin : q ∈ e :: c := List.mem_of_mem_getLast? (by
          simpa [List.getLast?_append, List.getLast?_cons] using hmem)
        rw [List.nodup_append, List.nodup_append, List.nodup_cons] at hnodup
        exact hnodup.1.2.1.1 hin
      rw [hnext hqlast, hlinks.2]
      simp

/-- Writing a node between `l₁` and `l₂`. -/
theorem insert (h : L.Lists (l₁ ++ l₂)) (hp : p ∉ l₁ ++ l₂)
    (hprevious : L'.previous p = l₁.getLast?) (hnext : L'.next p = l₂.head?)
    (hlast : ∀ q ∈ l₁.getLast?, L'.next q = some p) (hhead : ∀ q ∈ l₂.head?, L'.previous q = some p)
    (hnexts : ∀ q ∈ l₁ ++ l₂, q ∉ l₁.getLast? → L'.next q = L.next q)
    (hpreviouses : ∀ q ∈ l₁ ++ l₂, q ∉ l₂.head? → L'.previous q = L.previous q) :
    L'.Lists (l₁ ++ p :: l₂) := by
  have hnodup := h.nodup
  refine ⟨List.nodup_middle.mpr (List.nodup_cons.mpr ⟨hp, hnodup⟩), fun a q b hsplit => ?_⟩
  rcases List.append_eq_append_iff.mp hsplit with ⟨c, rfl, hc⟩ | ⟨c, rfl, hc⟩
  · -- `q` is `p` or a node of `l₂`
    cases c with
    | nil =>
        obtain ⟨rfl, rfl⟩ : p = q ∧ l₂ = b := by simpa using hc
        simpa using ⟨hprevious, hnext⟩
    | cons d c =>
        obtain ⟨rfl, rfl⟩ : p = d ∧ l₂ = c ++ q :: b := by simpa using hc
        have hq : q ∈ l₁ ++ (c ++ q :: b) := by simp
        rw [List.append_cons]
        refine h.links_behind hnodup (fun r hr => ?_) (hnexts q hq) (hpreviouses q hq)
        simpa using hhead r hr
  · -- `q` is `p` or a node of `l₁`
    cases c with
    | nil =>
        obtain ⟨rfl, rfl⟩ : q = p ∧ b = l₂ := by simpa using hc
        rw [List.append_nil] at hprevious
        exact ⟨hprevious, hnext⟩
    | cons d c =>
        obtain ⟨rfl, rfl⟩ : q = d ∧ b = c ++ p :: l₂ := by simpa using hc
        have hq : q ∈ a ++ q :: c ++ l₂ := by simp
        refine h.links_before hnodup (fun r hr => ?_) (hnexts q hq) (hpreviouses q hq)
        simpa using hlast r hr

/-- Taking out the node between `l₁` and `l₂`. -/
theorem remove (h : L.Lists (l₁ ++ p :: l₂))
    (hlast : ∀ q ∈ l₁.getLast?, L'.next q = l₂.head?)
    (hhead : ∀ q ∈ l₂.head?, L'.previous q = l₁.getLast?)
    (hnexts : ∀ q ∈ l₁ ++ l₂, q ∉ l₁.getLast? → L'.next q = L.next q)
    (hpreviouses : ∀ q ∈ l₁ ++ l₂, q ∉ l₂.head? → L'.previous q = L.previous q) :
    L'.Lists (l₁ ++ l₂) := by
  have hnodup : (l₁ ++ l₂).Nodup := (List.nodup_cons.mp (List.nodup_middle.mp h.nodup)).2
  refine ⟨hnodup, fun a q b hsplit => ?_⟩
  have hq : q ∈ l₁ ++ l₂ := by simp [hsplit]
  have hmiddle : ∀ {c : List N}, l₂ = c ++ q :: b → a = l₁ ++ c →
      L'.previous q = a.getLast? ∧ L'.next q = b.head? := by
    rintro c rfl rfl
    rw [List.append_cons] at h
    exact h.links_behind hnodup hhead (hnexts q hq) (hpreviouses q hq)
  rcases List.append_eq_append_iff.mp hsplit.symm with ⟨c, rfl, hc⟩ | ⟨c, rfl, hc⟩
  · cases c with
    | nil => exact hmiddle (c := []) (by simpa using hc.symm) (by simp)
    | cons d c =>
        obtain ⟨rfl, rfl⟩ : q = d ∧ b = c ++ l₂ := by simpa using hc
        exact h.links_before hnodup hlast (hnexts q hq) (hpreviouses q hq)
  · exact hmiddle hc rfl

/-! ## What the order of the nodes says about the pointers -/

/-- A successor is in the list, one place further on. -/
theorem split_of_next (h : L.Lists l) (hp : p ∈ l) (hq : L.next p = some q) :
    ∃ l₁ l₂, l = l₁ ++ p :: q :: l₂ := by
  obtain ⟨l₁, l₂, rfl⟩ := List.append_of_mem hp
  rw [h.next_eq] at hq
  obtain ⟨l₂, rfl⟩ : ∃ t, l₂ = q :: t := by
    cases l₂ with
    | nil => simp at hq
    | cons a t => exact ⟨t, by simpa using hq⟩
  exact ⟨l₁, l₂, rfl⟩

/-- A predecessor is in the list, one place before. -/
theorem split_of_previous (h : L.Lists l) (hq : q ∈ l) (hp : L.previous q = some p) :
    ∃ l₁ l₂, l = l₁ ++ p :: q :: l₂ := by
  obtain ⟨l₁, l₂, rfl⟩ := List.append_of_mem hq
  rw [h.previous_eq, List.getLast?_eq_some_iff] at hp
  obtain ⟨l₁, rfl⟩ := hp
  exact ⟨l₁, l₂, by simp⟩

/-- The two pointers are inverse to each other. -/
theorem next_eq_some_iff (h : L.Lists l) (hp : p ∈ l) (hq : q ∈ l) :
    L.next p = some q ↔ L.previous q = some p := by
  constructor
  · intro hnext
    obtain ⟨l₁, l₂, rfl⟩ := h.split_of_next hp hnext
    rw [(h.links (l₁ ++ [p]) q l₂ (by simp)).1]
    simp
  · intro hprevious
    obtain ⟨l₁, l₂, rfl⟩ := h.split_of_previous hq hprevious
    rw [h.next_eq]
    rfl

/-- Following `next` leads to a later node of the list. -/
theorem later_of_transGen (h : L.Lists l) (hp : p ∈ l)
    (hq : Relation.TransGen (fun a b => L.next a = some b) p q) :
    ∃ l₁ l₂, l = l₁ ++ p :: l₂ ∧ q ∈ l₂ := by
  induction hq with
  | single hnext =>
      obtain ⟨l₁, l₂, rfl⟩ := h.split_of_next hp hnext
      exact ⟨l₁, _, rfl, by simp⟩
  | @tail q r _ hnext ih =>
      obtain ⟨l₁, l₂, rfl, hmem⟩ := ih
      obtain ⟨a, b, rfl⟩ := List.append_of_mem hmem
      refine ⟨l₁, _, rfl, ?_⟩
      have hlinks := h.links (l₁ ++ p :: a) q b (by simp)
      rw [hlinks.2] at hnext
      simp [List.mem_of_mem_head? hnext]

/-- No node is reached from itself. -/
theorem acyclic (h : L.Lists l) (hp : p ∈ l) :
    ¬ Relation.TransGen (fun a b => L.next a = some b) p p := by
  intro hcycle
  obtain ⟨l₁, l₂, rfl, hmem⟩ := h.later_of_transGen hp hcycle
  have hnodup := (List.nodup_append.mp h.nodup).2.1
  exact (List.nodup_cons.mp hnodup).1 hmem

end Lists

end Links

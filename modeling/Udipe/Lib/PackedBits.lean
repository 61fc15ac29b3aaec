import Mathlib.Data.BitVec
import Mathlib.Data.List.Range

/-!
# Bits packed into words

A list of words of `w` bits is read as one sequence of bits: bit `i` is bit `i % w` of word `i / w`. Bits past
the last word are clear. `bitAt_set` is the effect of a store, `bits_split` cuts the sequence at a word. A
window is a word that holds some consecutive bits of the sequence; it may straddle two of its words.
-/

universe u

namespace PackedBits

variable {w : ℕ}

/-- Bit `i` of the sequence. -/
def bitAt (words : List (BitVec w)) (i : ℕ) : Bool := (words.getD (i / w) 0).getLsbD (i % w)

/-- The first `n` bits of the sequence. -/
def bits (words : List (BitVec w)) (n : ℕ) : List Bool := (List.range n).map (bitAt words)

variable {words : List (BitVec w)} {i k n : ℕ}

@[simp] theorem length_bits : (bits words n).length = n := by simp [bits]

@[simp] theorem getElem_bits (h : i < (bits words n).length) : (bits words n)[i] = bitAt words i := by
  simp [bits]

theorem getD_set_self (h : k < words.length) (word : BitVec w) : (words.set k word).getD k 0 = word := by
  simp [List.getD, h]

theorem getD_set_ne {j : ℕ} (h : j ≠ k) (word : BitVec w) :
    (words.set k word).getD j 0 = words.getD j 0 := by
  simp [List.getD, List.getElem?_set_ne h.symm]

/-- Bits past the last word are clear. -/
theorem bitAt_of_ge (hw : 0 < w) (h : words.length * w ≤ i) : bitAt words i = false := by
  have hword : words.length ≤ i / w := (Nat.le_div_iff_mul_le hw).mpr h
  rw [bitAt, List.getD, List.getElem?_eq_none hword]
  exact BitVec.getLsbD_zero

/-- A store changes the bits of its word. -/
theorem bitAt_set (h : k < words.length) (word : BitVec w) (i : ℕ) :
    bitAt (words.set k word) i = if i / w = k then word.getLsbD (i % w) else bitAt words i := by
  unfold bitAt
  split
  · rename_i hword
    rw [hword, getD_set_self h]
  · rename_i hword
    rw [getD_set_ne hword]

/-- Bit `j` of word `k`. -/
theorem bitAt_word {j : ℕ} (hj : j < w) : bitAt words (k * w + j) = (words.getD k 0).getLsbD j := by
  have hdiv : (k * w + j) / w = k := by
    rw [Nat.mul_comm, Nat.mul_add_div (by omega), Nat.div_eq_of_lt hj, Nat.add_zero]
  rw [bitAt, hdiv, Nat.mul_add_mod_of_lt hj]

/-- A property of the bits of word `k`. -/
theorem forall_word_iff (words : List (BitVec w)) (k : ℕ) (p : ℕ → Bool → Prop) :
    (∀ j < w, p (k * w + j) ((words.getD k 0).getLsbD j)) ↔
      ∀ i, k * w ≤ i → i < (k + 1) * w → p i (bitAt words i) := by
  constructor
  · intro h i hle hlt
    obtain ⟨j, rfl⟩ := Nat.exists_eq_add_of_le hle
    have hj : j < w := by
      rw [Nat.succ_mul] at hlt
      omega
    rw [bitAt_word hj]
    exact h j hj
  · intro h j hj
    rw [← bitAt_word hj]
    exact h _ (Nat.le_add_right ..) (by rw [Nat.succ_mul]; omega)

/-- The bits up to somewhere in word `k` are those of the words before it and its own first ones. -/
theorem bits_split {r : ℕ} (hr : r ≤ w) :
    bits words (k * w + r) = bits words (k * w) ++ (List.range r).map (words.getD k 0).getLsbD := by
  rw [bits, List.range_add, List.map_append, List.map_map, bits]
  congr 1
  refine List.map_congr_left fun j hj => ?_
  exact bitAt_word ((List.mem_range.mp hj).trans_le hr)

/-- Two sequences of bits that agree everywhere are the same list. -/
theorem bits_eq_iff {list : List Bool} :
    bits words list.length = list ↔ ∀ i (h : i < list.length), bitAt words i = list[i] := by
  constructor
  · intro h i hi
    rw [← getElem_bits (by simpa using hi)]
    exact List.getElem_of_eq h _
  · intro h
    refine List.ext_getElem (by simp) fun i hi hi' => ?_
    rw [getElem_bits, h i hi']

/-! ## Windows -/

/-- Bit `i + j`, where `j` may lead to the next word. -/
theorem bitAt_add {j : ℕ} (hj : j < w) (i : ℕ) : bitAt words (i + j) =
    if i % w + j < w then (words.getD (i / w) 0).getLsbD (i % w + j)
    else (words.getD (i / w + 1) 0).getLsbD (i % w + j - w) := by
  have hmod : i % w < w := Nat.mod_lt _ (by omega)
  have hsplit : i + j = i / w * w + (i % w + j) := by
    rw [← Nat.add_assoc, Nat.mul_comm, Nat.div_add_mod]
  split
  · rename_i hsame
    rw [hsplit, bitAt_word hsame]
  · rename_i hnext
    have hnext' : i / w * w + (i % w + j) = (i / w + 1) * w + (i % w + j - w) := by
      rw [Nat.succ_mul]
      omega
    rw [hsplit, hnext', bitAt_word (by omega)]

/-- The `width` bits from `start` on, and no other. -/
def IsWindow (words : List (BitVec w)) (start width : ℕ) (window : BitVec w) : Prop :=
  ∀ j < w, window.getLsbD j = (decide (j < width) && bitAt words (start + j))

/-- Consecutive windows from `start` on. -/
def Windows (words : List (BitVec w)) : ℕ → List ℕ → List (BitVec w) → Prop
  | _, [], [] => True
  | start, width :: widths, window :: windows =>
      IsWindow words start width window ∧ Windows words (start + width) widths windows
  | _, _, _ => False

theorem Windows.append {start : ℕ} {widths widths' : List ℕ} {windows windows' : List (BitVec w)}
    (h : Windows words start widths windows)
    (h' : Windows words (start + widths.sum) widths' windows') :
    Windows words start (widths ++ widths') (windows ++ windows') := by
  induction widths generalizing start windows with
  | nil =>
      cases windows with
      | nil => exact h'
      | cons window windows => exact h.elim
  | cons width widths ih =>
      cases windows with
      | nil => exact h.elim
      | cons window windows =>
          rw [List.sum_cons, ← Nat.add_assoc] at h'
          exact ⟨h.1, ih h.2 h'⟩

theorem Windows.single {start width : ℕ} {window : BitVec w} (h : IsWindow words start width window) :
    Windows words start [width] [window] := ⟨h, trivial⟩

/-- Windows of one width are determined by the bits. -/
theorem Windows.eq_map_range {width : ℕ} {windows : List (BitVec w)} {window : ℕ → BitVec w}
    (h : Windows words 0 (List.replicate n width) windows)
    (hwindow : ∀ k < n, IsWindow words (k * width) width (window k)) :
    windows = (List.range n).map window := by
  suffices hfrom : ∀ start, Windows words (start * width) (List.replicate n width) windows →
      (∀ k, start ≤ k → k < start + n → IsWindow words (k * width) width (window k)) →
      windows = (List.range' start n).map window by
    rw [List.range_eq_range']
    refine hfrom 0 (by rwa [Nat.zero_mul]) fun k _ hk => hwindow k (by omega)
  clear h hwindow
  induction n generalizing windows with
  | zero =>
      intro start h _
      cases windows with
      | nil => rfl
      | cons window windows => exact h.elim
  | succ n ih =>
      intro start h hwindow
      cases windows with
      | nil => exact h.elim
      | cons first windows =>
          have hfirst : first = window start := BitVec.eq_of_getLsbD_eq fun j hj =>
            (h.1 j hj).trans (hwindow start le_rfl (by omega) j hj).symm
          rw [List.range'_succ, List.map_cons, ← hfirst]
          congr 1
          refine ih (start + 1) ?_ fun k hk hlt => hwindow k (by omega) (by omega)
          rw [Nat.succ_mul]
          exact h.2

end PackedBits

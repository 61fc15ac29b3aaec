import Mathlib.Data.List.Range
import Mathlib.Logic.Function.Iterate

/-!
# Loops

A loop `for (i = start; i < start + n; ++i)` is a fold over `List.range' start n`.
`forRange_induction` is its invariant rule.

A loop `while (cond(state))` runs for as many rounds as its fuel allows. It ends in the first
iterate of the body that does not satisfy the condition, if there is one (`exists_whileLoop_iff`).
-/

universe u

variable {σ : Type u}

/-- `for (i = start; i < start + n; ++i) state = body(state, i)`. -/
def forRange (start n : ℕ) (init : σ) (body : σ → ℕ → σ) : σ :=
  (List.range' start n).foldl body init

@[simp] theorem forRange_zero (start : ℕ) (init : σ) (body : σ → ℕ → σ) :
    forRange start 0 init body = init := rfl

theorem forRange_succ (start n : ℕ) (init : σ) (body : σ → ℕ → σ) :
    forRange start (n + 1) init body = body (forRange start n init body) (start + n) := by
  simp [forRange, List.range'_concat]

/-- What holds before the loop with `start` and is carried from `i` to `i + 1` by the body holds
after the loop with `start + n`. -/
theorem forRange_induction (start n : ℕ) (init : σ) (body : σ → ℕ → σ) (I : ℕ → σ → Prop)
    (hinit : I start init)
    (hbody : ∀ i s, start ≤ i → i < start + n → I i s → I (i + 1) (body s i)) :
    I (start + n) (forRange start n init body) := by
  induction n with
  | zero => exact hinit
  | succ n ih =>
      rw [forRange_succ, ← Nat.add_assoc]
      refine hbody _ _ (Nat.le_add_right ..) (by omega) (ih fun i s hi hlt => ?_)
      exact hbody i s hi (by omega)

/-- A counting loop whose body can end the process. -/
def forRangeM (start n : ℕ) (init : σ) (body : σ → ℕ → Option σ) : Option σ :=
  (List.range' start n).foldlM body init

@[simp] theorem forRangeM_zero (start : ℕ) (init : σ) (body : σ → ℕ → Option σ) :
    forRangeM start 0 init body = some init := rfl

theorem forRangeM_succ (start n : ℕ) (init : σ) (body : σ → ℕ → Option σ) :
    forRangeM start (n + 1) init body = (forRangeM start n init body).bind fun s =>
      body s (start + n) := by
  simp [forRangeM, List.range'_concat]

/-- The invariant rule, where the invariant also keeps the body from ending the process. -/
theorem forRangeM_induction (start n : ℕ) (init : σ) (body : σ → ℕ → Option σ) (I : ℕ → σ → Prop)
    (hinit : I start init)
    (hbody : ∀ i s, start ≤ i → i < start + n → I i s → ∃ s', body s i = some s' ∧ I (i + 1) s') :
    ∃ s, forRangeM start n init body = some s ∧ I (start + n) s := by
  induction n with
  | zero => exact ⟨init, rfl, hinit⟩
  | succ n ih =>
      obtain ⟨s, hs, hI⟩ := ih fun i s hi hlt => hbody i s hi (by omega)
      obtain ⟨s', hs', hI'⟩ := hbody (start + n) s (Nat.le_add_right ..) (by omega) hI
      exact ⟨s', by rw [forRangeM_succ, hs, Option.bind_some, hs'], hI'⟩

/-- The invariant rule for a loop that did not end the process. -/
theorem forRangeM_invariant {start n : ℕ} {init s : σ} {body : σ → ℕ → Option σ} (I : ℕ → σ → Prop)
    (h : forRangeM start n init body = some s) (hinit : I start init)
    (hbody : ∀ i s s', start ≤ i → i < start + n → body s i = some s' → I i s → I (i + 1) s') :
    I (start + n) s := by
  induction n generalizing s with
  | zero =>
      obtain rfl := Option.some.inj h
      exact hinit
  | succ n ih =>
      rw [forRangeM_succ, Option.bind_eq_some_iff] at h
      obtain ⟨t, ht, hs⟩ := h
      refine hbody (start + n) t s (Nat.le_add_right ..) (by omega) hs (ih ht fun i s s' hi hlt => ?_)
      exact hbody i s s' hi (by omega)

/-! ## While loops -/

/-- `while (cond(state)) state = body(state)`; `none` when `fuel` tests of the condition are not
enough. -/
def whileLoop (cond : σ → Bool) (body : σ → σ) : ℕ → σ → Option σ
  | 0, _ => none
  | fuel + 1, s => if cond s then whileLoop cond body fuel (body s) else some s

variable {cond : σ → Bool} {body : σ → σ} {fuel k : ℕ} {s t : σ}

/-- The loop ends in an iterate of the body that does not satisfy the condition. -/
theorem whileLoop_eq_some (h : whileLoop cond body fuel s = some t) :
    cond t = false ∧ ∃ k, t = body^[k] s := by
  induction fuel generalizing s with
  | zero => cases h
  | succ fuel ih =>
      rw [whileLoop] at h
      split at h
      · obtain ⟨hdone, k, hk⟩ := ih h
        exact ⟨hdone, k + 1, hk⟩
      · rename_i hdone
        obtain rfl := Option.some.inj h
        exact ⟨Bool.eq_false_iff.mpr hdone, 0, rfl⟩

/-- It ends as soon as there is such an iterate. -/
theorem exists_whileLoop_eq_some (h : cond (body^[k] s) = false) :
    ∃ t, whileLoop cond body (k + 1) s = some t := by
  induction k generalizing s with
  | zero => exact ⟨s, if_neg (Bool.eq_false_iff.mp h)⟩
  | succ k ih =>
      rw [whileLoop]
      split
      · exact ih h
      · exact ⟨s, rfl⟩

theorem exists_whileLoop_iff :
    (∃ fuel t, whileLoop cond body fuel s = some t) ↔ ∃ k, cond (body^[k] s) = false := by
  constructor
  · rintro ⟨fuel, t, h⟩
    obtain ⟨hdone, k, rfl⟩ := whileLoop_eq_some h
    exact ⟨k, hdone⟩
  · rintro ⟨k, h⟩
    exact ⟨k + 1, exists_whileLoop_eq_some h⟩

import Mathlib.Algebra.Order.Ring.Int
import Mathlib.Tactic.Ring

/-!
# Labelled machines, their runs and invariants over runs

A `Machine` computes the successor of a state under an event, or refuses the event. A run feeds it a
list of events. Three rules carry facts about one step to whole runs:

* `invariant_of_run` for a property every step keeps;
* `invariant_of_along` for a property kept by the steps that meet a condition;
* `tally_of_run` for a quantity that changes by a known amount at each step.
-/

universe u v

/-- A deterministic machine: `step s e` is the state after event `e`, `none` if `e` cannot happen. -/
structure Machine (σ : Type u) (ε : Type v) where
  step : σ → ε → Option σ

namespace Machine

/-- A run on fixed inputs numbers its parties, `0 : Fin 1`. Found here, the proof that such a type has a
numeral needs no auxiliary lemma in every run. -/
instance neZero_one : NeZero 1 := ⟨Nat.succ_ne_zero 0⟩

instance neZero_two : NeZero 2 := ⟨Nat.succ_ne_zero 1⟩

instance neZero_three : NeZero 3 := ⟨Nat.succ_ne_zero 2⟩

variable {σ : Type u} {ε : Type v} (M : Machine σ ε)

/-- The state after a list of events. -/
def run : σ → List ε → Option σ
  | s, [] => some s
  | s, e :: es => (M.step s e).bind (run · es)

/-- Every step of the run satisfies `C`, given the state before, the event and the state after. -/
def Along (C : σ → ε → σ → Prop) : σ → List ε → Prop
  | _, [] => True
  | s, e :: es => ∀ s', M.step s e = some s' → C s e s' ∧ Along C s' es

instance decidableAlong (C : σ → ε → σ → Prop) [∀ s e s', Decidable (C s e s')] :
    ∀ (s : σ) (es : List ε), Decidable (M.Along C s es)
  | _, [] => isTrue trivial
  | s, e :: es =>
    match h : M.step s e with
    | none => isTrue fun s' hs => absurd (h.symm.trans hs) (by simp)
    | some t =>
      have := decidableAlong C t es
      decidable_of_iff (C s e t ∧ M.Along C t es)
        ⟨fun hC s' hs => Option.some.inj (h.symm.trans hs) ▸ hC, fun hC => hC t h⟩

/-- The sum of a weight over the steps of a run. -/
def tally (w : σ → ε → σ → ℤ) : σ → List ε → ℤ
  | _, [] => 0
  | s, e :: es =>
    match M.step s e with
    | some s' => w s e s' + tally w s' es
    | none => 0

/-- `s` is reached from `s₀` by some run. -/
def Reachable (s₀ s : σ) : Prop := ∃ es, M.run s₀ es = some s

@[simp] theorem run_nil (s : σ) : M.run s [] = some s := rfl

theorem run_cons (s : σ) (e : ε) (es : List ε) :
    M.run s (e :: es) = (M.step s e).bind (M.run · es) := rfl

/-- A nonempty run is a step followed by a run. -/
theorem run_cons_eq_some {s s' : σ} {e : ε} {es : List ε} :
    M.run s (e :: es) = some s' ↔ ∃ t, M.step s e = some t ∧ M.run t es = some s' := by
  simp [run_cons, Option.bind_eq_some_iff]

theorem run_append (s : σ) (es fs : List ε) :
    M.run s (es ++ fs) = (M.run s es).bind (M.run · fs) := by
  induction es generalizing s with
  | nil => rfl
  | cons e es ih =>
      rw [List.cons_append, run_cons, run_cons, Option.bind_assoc]
      congr 1
      funext t
      exact ih t

/-- A run that ends with one more step. -/
theorem run_concat_eq_some {s s' : σ} {es : List ε} {e : ε} :
    M.run s (es ++ [e]) = some s' ↔ ∃ t, M.run s es = some t ∧ M.step t e = some s' := by
  simp [run_append, Option.bind_eq_some_iff, run_cons_eq_some]

theorem Reachable.refl (s : σ) : M.Reachable s s := ⟨[], rfl⟩

variable {M}

theorem Reachable.step {s₀ s s' : σ} {e : ε} (h : M.Reachable s₀ s) (hs : M.step s e = some s') :
    M.Reachable s₀ s' := by
  obtain ⟨es, hes⟩ := h
  exact ⟨es ++ [e], M.run_concat_eq_some.mpr ⟨s, hes, hs⟩⟩

theorem Along.mono {C D : σ → ε → σ → Prop} (hCD : ∀ s e s', C s e s' → D s e s') :
    ∀ {s : σ} {es : List ε}, M.Along C s es → M.Along D s es
  | _, [], _ => trivial
  | _, _ :: _, h => fun s' hs => ⟨hCD _ _ _ (h s' hs).1, Along.mono hCD (h s' hs).2⟩

theorem Along.and {C D : σ → ε → σ → Prop} : ∀ {s : σ} {es : List ε}, M.Along C s es →
    M.Along D s es → M.Along (fun s e s' => C s e s' ∧ D s e s') s es
  | _, [], _, _ => trivial
  | _, _ :: _, hC, hD => fun s' hs =>
      ⟨⟨(hC s' hs).1, (hD s' hs).1⟩, (hC s' hs).2.and (hD s' hs).2⟩

/-- The first part of a run. -/
theorem Along.append_left {C : σ → ε → σ → Prop} : ∀ {s : σ} {es fs : List ε},
    M.Along C s (es ++ fs) → M.Along C s es
  | _, [], _, _ => trivial
  | _, _ :: _, _, h => fun t ht => ⟨(h t ht).1, (h t ht).2.append_left⟩

/-- The rest of a run. -/
theorem Along.append_right {C : σ → ε → σ → Prop} {s s' : σ} {es fs : List ε}
    (h : M.Along C s (es ++ fs)) (hrun : M.run s es = some s') : M.Along C s' fs := by
  induction es generalizing s with
  | nil =>
      obtain rfl : s = s' := by simpa using hrun
      exact h
  | cons e es ih =>
      obtain ⟨t, ht, hrun'⟩ := M.run_cons_eq_some.mp hrun
      exact ih (h t ht).2 hrun'

/-- A condition on the events only. -/
theorem along_of_forall_mem {C : ε → Prop} : ∀ {s : σ} {es : List ε}, (∀ e ∈ es, C e) →
    M.Along (fun _ e _ => C e) s es
  | _, [], _ => trivial
  | _, e :: es, h => fun _ _ =>
      ⟨h e (by simp), along_of_forall_mem fun e' he' => h e' (by simp [he'])⟩

theorem along_true : ∀ (s : σ) (es : List ε), M.Along (fun _ _ _ => True) s es
  | _, [] => trivial
  | _, _ :: es => fun s' _ => ⟨trivial, along_true s' es⟩

/-- A property kept by every step that meets `C` holds after every run whose steps all meet `C`. -/
theorem invariant_of_along {C : σ → ε → σ → Prop} {I : σ → Prop}
    (hstep : ∀ s e s', I s → C s e s' → M.step s e = some s' → I s') {s s' : σ} {es : List ε}
    (h0 : I s) (hC : M.Along C s es) (hrun : M.run s es = some s') : I s' := by
  induction es generalizing s with
  | nil =>
      obtain rfl : s = s' := by simpa using hrun
      exact h0
  | cons e es ih =>
      obtain ⟨t, ht, hrun'⟩ := M.run_cons_eq_some.mp hrun
      obtain ⟨hCt, hCs⟩ := hC t ht
      exact ih (hstep s e t h0 hCt ht) hCs hrun'

/-- A property kept by every step holds after every run. -/
theorem invariant_of_run {I : σ → Prop} (hstep : ∀ s e s', I s → M.step s e = some s' → I s')
    {s s' : σ} {es : List ε} (h0 : I s) (hrun : M.run s es = some s') : I s' :=
  invariant_of_along (C := fun _ _ _ => True) (fun s e s' hI _ h => hstep s e s' hI h) h0
    (along_true s es) hrun

/-- The invariant rule over reachable states. -/
theorem Reachable.invariant {I : σ → Prop} (hstep : ∀ s e s', I s → M.step s e = some s' → I s')
    {s s' : σ} (h0 : I s) (h : M.Reachable s s') : I s' := by
  obtain ⟨es, hes⟩ := h
  exact invariant_of_run hstep h0 hes

/-- If every step from an invariant state satisfies `D`, so does every step of a run. -/
theorem along_of_invariant {C D : σ → ε → σ → Prop} {I : σ → Prop}
    (hstep : ∀ s e s', I s → C s e s' → M.step s e = some s' → I s')
    (hD : ∀ s e s', I s → C s e s' → M.step s e = some s' → D s e s') :
    ∀ {s : σ} {es : List ε}, I s → M.Along C s es → M.Along D s es
  | _, [], _, _ => trivial
  | _, _ :: _, h0, hC => fun t ht =>
      ⟨hD _ _ _ h0 (hC t ht).1 ht,
        along_of_invariant hstep hD (hstep _ _ _ h0 (hC t ht).1 ht) (hC t ht).2⟩

/-- A variant that every step makes smaller bounds the length of a run. -/
theorem length_add_le_of_variant {C : σ → ε → σ → Prop} {I : σ → Prop} {v : σ → ℕ}
    (hI : ∀ s e s', I s → C s e s' → M.step s e = some s' → I s')
    (hv : ∀ s e s', I s → C s e s' → M.step s e = some s' → v s' < v s) {s s' : σ} {es : List ε}
    (h0 : I s) (hC : M.Along C s es) (hrun : M.run s es = some s') : es.length + v s' ≤ v s := by
  induction es generalizing s with
  | nil =>
      obtain rfl : s = s' := by simpa using hrun
      simp
  | cons e es ih =>
      obtain ⟨t, ht, hrun'⟩ := M.run_cons_eq_some.mp hrun
      obtain ⟨hCt, hCs⟩ := hC t ht
      have hrest := ih (hI s e t h0 hCt ht) hCs hrun'
      have hless := hv s e t h0 hCt ht
      rw [List.length_cons]
      omega

@[simp] theorem tally_nil (w : σ → ε → σ → ℤ) (s : σ) : M.tally w s [] = 0 := rfl

theorem tally_cons_of_eq {w : σ → ε → σ → ℤ} {s t : σ} {e : ε} (es : List ε)
    (h : M.step s e = some t) : M.tally w s (e :: es) = w s e t + M.tally w t es := by
  rw [tally, h]

/-- A quantity that every step meeting `C` changes by the weight `w` changes over a run by the
tally of `w`. -/
theorem tally_of_run {C : σ → ε → σ → Prop} {I : σ → Prop} {φ : σ → ℤ} {w : σ → ε → σ → ℤ}
    (hI : ∀ s e s', I s → C s e s' → M.step s e = some s' → I s')
    (hφ : ∀ s e s', I s → C s e s' → M.step s e = some s' → φ s' = φ s + w s e s')
    {s s' : σ} {es : List ε} (h0 : I s) (hC : M.Along C s es) (hrun : M.run s es = some s') :
    φ s' = φ s + M.tally w s es := by
  induction es generalizing s with
  | nil =>
      obtain rfl : s = s' := by simpa using hrun
      simp
  | cons e es ih =>
      obtain ⟨t, ht, hrun'⟩ := M.run_cons_eq_some.mp hrun
      obtain ⟨hCt, hCs⟩ := hC t ht
      rw [ih (hI s e t h0 hCt ht) hCs hrun', hφ s e t h0 hCt ht, tally_cons_of_eq es ht,
        add_assoc]

theorem tally_sub (v w : σ → ε → σ → ℤ) : ∀ (s : σ) (es : List ε),
    M.tally (fun s e s' => v s e s' - w s e s') s es = M.tally v s es - M.tally w s es
  | _, [] => by simp
  | s, e :: es => by
      cases hs : M.step s e with
      | none => simp [tally, hs]
      | some t =>
          rw [tally_cons_of_eq es hs, tally_cons_of_eq es hs, tally_cons_of_eq es hs,
            tally_sub v w t es]
          ring

theorem tally_nonneg {w : σ → ε → σ → ℤ} (hw : ∀ s e s', 0 ≤ w s e s') :
    ∀ (s : σ) (es : List ε), 0 ≤ M.tally w s es
  | _, [] => le_refl _
  | s, e :: es => by
      cases hs : M.step s e with
      | none => simp [tally, hs]
      | some t =>
          rw [tally_cons_of_eq es hs]
          exact add_nonneg (hw _ _ _) (tally_nonneg hw t es)

/-- No step counted means that no step meets the condition. -/
theorem tally_indicator_eq_zero (D : σ → ε → σ → Prop) [∀ s e s', Decidable (D s e s')] :
    ∀ (s : σ) (es : List ε), M.tally (fun s e s' => if D s e s' then 1 else 0) s es = 0 ↔
      M.Along (fun s e s' => ¬ D s e s') s es
  | _, [] => by simp [Along]
  | s, e :: es => by
      cases hs : M.step s e with
      | none => simp [tally, Along, hs]
      | some t =>
          have hrest := tally_indicator_eq_zero D t es
          have hpos : 0 ≤ M.tally (fun s e s' => if D s e s' then (1 : ℤ) else 0) t es :=
            tally_nonneg (fun s e s' => by split <;> simp) t es
          rw [tally_cons_of_eq es hs]
          simp only [Along, hs, Option.some.injEq, forall_eq', ← hrest]
          by_cases hD : D s e t
          · simp only [hD, if_true, not_true_eq_false, false_and, iff_false]
            omega
          · simp [hD]

end Machine

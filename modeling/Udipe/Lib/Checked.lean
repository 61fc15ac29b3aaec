import Mathlib.Data.List.Range
import Mathlib.Logic.Basic

/-!
# Computations that stop at a failed check

`Except ε` models code that ends the process when a check fails. `ensure` is a check that is always
there, `assertion` one that is compiled in only when `enabled` says so. The lemmas below take a
sequence of such steps apart, both when it succeeds and when it stops. `Ends P F` is the judgement
about a whole computation: its result satisfies `P` if it has one, and its failure `F` otherwise.
-/

namespace Checked

universe u v

variable {ε : Type u} {α β : Type v}

/-- A check that stops with `e` when `cond` is false. -/
def ensure (cond : Bool) (e : ε) : Except ε Unit :=
  if cond then .ok () else .error e

/-- A check that is compiled in only when `enabled`. -/
def assertion (enabled cond : Bool) (e : ε) : Except ε Unit :=
  ensure (!enabled || cond) e

/-- A computation that stops with `e` when there is no value. -/
def ofOption (e : ε) : Option α → Except ε α
  | some a => .ok a
  | none => .error e

/-- Why the computation stopped. -/
def failure? : Except ε α → Option ε
  | .ok _ => none
  | .error e => some e

theorem failure?_eq_some {x : Except ε α} {e : ε} : failure? x = some e ↔ x = .error e := by
  cases x <;> simp [failure?]

@[simp] theorem ofOption_some (e : ε) (a : α) : ofOption e (some a) = .ok a := rfl

@[simp] theorem ofOption_none (e : ε) : ofOption e (none : Option α) = .error e := rfl

theorem ok_bind (a : α) (f : α → Except ε β) : ((.ok a : Except ε α) >>= f) = f a := rfl

theorem mapError_of_eq_ok {δ : Type u} {x : Except ε α} {a : α} (f : ε → δ) (h : x = .ok a) :
    x.mapError f = .ok a := by
  rw [h]
  rfl

theorem ensure_of_true {cond : Bool} (e : ε) (h : cond = true) : ensure cond e = .ok () := by
  simp [ensure, h]

theorem assertion_of_true (enabled : Bool) {cond : Bool} (e : ε) (h : cond = true) :
    assertion enabled cond e = .ok () := by
  simp [assertion, ensure, h]

/-- A check that is not compiled in. -/
theorem assertion_disabled (cond : Bool) (e : ε) : assertion false cond e = .ok () := rfl

theorem bind_eq_ok {x : Except ε α} {f : α → Except ε β} {b : β} :
    (x >>= f) = .ok b ↔ ∃ a, x = .ok a ∧ f a = .ok b := by
  cases x <;> simp [Bind.bind, Except.bind]

theorem bind_eq_error {x : Except ε α} {f : α → Except ε β} {e : ε} :
    (x >>= f) = .error e ↔ x = .error e ∨ ∃ a, x = .ok a ∧ f a = .error e := by
  cases x <;> simp [Bind.bind, Except.bind]

theorem map_eq_ok {x : Except ε α} {f : α → β} {b : β} :
    f <$> x = .ok b ↔ ∃ a, x = .ok a ∧ f a = b := by
  cases x <;> simp [Functor.map, Except.map]

theorem pure_eq_ok {a b : α} : (pure a : Except ε α) = .ok b ↔ a = b := by
  simp [Pure.pure, Except.pure]

theorem pure_ne_error {a : α} {e : ε} : (pure a : Except ε α) ≠ .error e := by
  simp [Pure.pure, Except.pure]

theorem ensure_eq_ok {cond : Bool} {e : ε} {u : Unit} : ensure cond e = .ok u ↔ cond = true := by
  cases cond <;> simp [ensure]

theorem ensure_eq_error {cond : Bool} {e e' : ε} :
    ensure cond e = .error e' ↔ cond = false ∧ e = e' := by
  cases cond <;> simp [ensure]

theorem assertion_eq_ok {enabled cond : Bool} {e : ε} {u : Unit} :
    assertion enabled cond e = .ok u ↔ (enabled = true → cond = true) := by
  cases enabled <;> simp [assertion, ensure_eq_ok]

theorem assertion_eq_error {enabled cond : Bool} {e e' : ε} :
    assertion enabled cond e = .error e' ↔ enabled = true ∧ cond = false ∧ e = e' := by
  cases enabled <;> simp [assertion, ensure_eq_error]

/-! ## Which failures are possible -/

/-- Every failure of the computation satisfies `F`. -/
def FailsWith (F : ε → Prop) (x : Except ε α) : Prop :=
  ∀ e, x = .error e → F e

variable {F : ε → Prop}

@[simp] theorem failsWith_pure (a : α) : FailsWith F (pure a : Except ε α) :=
  fun _ h => absurd h pure_ne_error

@[simp] theorem failsWith_ok (a : α) : FailsWith F (.ok a : Except ε α) :=
  fun _ h => absurd h (by simp)

@[simp] theorem failsWith_error {e : ε} : FailsWith F (.error e : Except ε α) ↔ F e :=
  ⟨fun h => h e rfl, fun h _ he => by cases he; exact h⟩

@[simp] theorem failsWith_bind {x : Except ε α} {f : α → Except ε β} :
    FailsWith F (x >>= f) ↔ FailsWith F x ∧ ∀ a, x = .ok a → FailsWith F (f a) := by
  constructor
  · intro h
    exact ⟨fun e he => h e (bind_eq_error.mpr (.inl he)),
      fun a ha e he => h e (bind_eq_error.mpr (.inr ⟨a, ha, he⟩))⟩
  · rintro ⟨hx, hf⟩ e he
    obtain he | ⟨a, ha, he⟩ := bind_eq_error.mp he
    · exact hx e he
    · exact hf a ha e he

@[simp] theorem failsWith_map {x : Except ε α} {f : α → β} :
    FailsWith F (f <$> x) ↔ FailsWith F x := by
  cases x <;> simp [FailsWith, Functor.map, Except.map]

@[simp] theorem failsWith_ensure {cond : Bool} {e : ε} :
    FailsWith F (ensure cond e) ↔ (cond = false → F e) := by
  cases cond <;> simp [ensure]

@[simp] theorem failsWith_assertion {enabled cond : Bool} {e : ε} :
    FailsWith F (assertion enabled cond e) ↔ (enabled = true → cond = false → F e) := by
  cases enabled <;> simp [assertion]

@[simp] theorem failsWith_ite {p : Prop} [Decidable p] {x y : Except ε α} :
    FailsWith F (if p then x else y) ↔ (p → FailsWith F x) ∧ (¬ p → FailsWith F y) := by
  split <;> simp_all

/-! ## How a computation ends -/

/-- The result satisfies `P`, or the failure satisfies `F`. -/
def Ends (P : α → Prop) (F : ε → Prop) : Except ε α → Prop
  | .ok a => P a
  | .error e => F e

variable {P : α → Prop} {Q : β → Prop}

theorem ends_pure {a : α} (h : P a) : Ends P F (pure a : Except ε α) := h

theorem ends_bind {x : Except ε α} {f : α → Except ε β} (hx : Ends P F x)
    (hf : ∀ a, P a → Ends Q F (f a)) : Ends Q F (x >>= f) := by
  cases x with
  | ok a => exact hf a hx
  | error e => exact hx

theorem ends_map {x : Except ε α} {f : α → β} (h : Ends (fun a => Q (f a)) F x) :
    Ends Q F (f <$> x) := by
  cases x with
  | ok a => exact h
  | error e => exact h

theorem ends_ensure {cond : Bool} {e : ε} (h : cond = false → F e) :
    Ends (fun _ => cond = true) F (ensure cond e) := by
  cases cond with
  | false => exact h rfl
  | true => exact rfl

theorem ends_assertion {enabled cond : Bool} {e : ε} (h : F e) :
    Ends (fun _ => True) F (assertion enabled cond e) := by
  unfold assertion ensure
  split
  · exact trivial
  · exact h

theorem Ends.mono {P' : α → Prop} {x : Except ε α} (h : Ends P F x) (hP : ∀ a, P a → P' a) :
    Ends P' F x := by
  cases x with
  | ok a => exact hP a h
  | error e => exact h

theorem Ends.of_error {x : Except ε α} {e : ε} (h : Ends P F x) (hx : x = .error e) : F e := by
  subst hx
  exact h

/-- `for (i = start; i < start + n; ++i)`, with a body that can fail. -/
def forRangeE (start n : ℕ) (init : α) (body : α → ℕ → Except ε α) : Except ε α :=
  (List.range' start n).foldlM body init

/-- The loop computes what a body without checks would, and keeps an invariant. -/
theorem ends_forRangeE (start n : ℕ) (init : α) (body : α → ℕ → Except ε α) (plain : α → ℕ → α)
    (I : α → Prop) (hinit : I init)
    (hbody : ∀ i s, start ≤ i → i < start + n → I s →
      Ends (fun s' => s' = plain s i ∧ I s') F (body s i)) :
    Ends (fun s => s = (List.range' start n).foldl plain init ∧ I s) F
      (forRangeE start n init body) := by
  have hgeneral : ∀ (is : List ℕ) (s : α), (∀ i ∈ is, start ≤ i ∧ i < start + n) → I s →
      Ends (fun s' => s' = is.foldl plain s ∧ I s') F (is.foldlM body s) := by
    intro is
    induction is with
    | nil =>
        intro s _ hs
        exact ends_pure ⟨rfl, hs⟩
    | cons i is ih =>
        intro s his hs
        rw [List.foldlM_cons, List.foldl_cons]
        obtain ⟨hlow, hhigh⟩ := his i List.mem_cons_self
        refine ends_bind (hbody i s hlow hhigh hs) ?_
        rintro _ ⟨rfl, hs'⟩
        exact ih _ (fun j hj => his j (List.mem_cons_of_mem i hj)) hs'
  exact hgeneral _ init (fun i hi => List.mem_range'_1.mp hi) hinit

/-- The invariant rule of the loop. -/
theorem ends_forRangeE_induction (start n : ℕ) (init : α) (body : α → ℕ → Except ε α)
    (I : ℕ → α → Prop) (hinit : I start init)
    (hbody : ∀ i s, start ≤ i → i < start + n → I i s → Ends (I (i + 1)) F (body s i)) :
    Ends (I (start + n)) F (forRangeE start n init body) := by
  induction n generalizing start init with
  | zero => exact ends_pure hinit
  | succ n ih =>
      rw [forRangeE, List.range'_succ, List.foldlM_cons]
      refine ends_bind (hbody start init le_rfl (by omega) hinit) fun s hs => ?_
      rw [← Nat.add_assoc, Nat.add_right_comm]
      exact ih (start + 1) s hs fun i s hi hlt => hbody i s (by omega) (by omega)

theorem failsWith_forRangeE {start n : ℕ} {init : α} {body : α → ℕ → Except ε α}
    (hbody : ∀ s i, FailsWith F (body s i)) : FailsWith F (forRangeE start n init body) := by
  have hends : ∀ (i : ℕ) (s : α), Ends (fun _ => True) F (body s i) := fun i s => by
    cases h : body s i with
    | ok a => exact trivial
    | error e => exact hbody s i e h
  exact fun e he => (ends_forRangeE_induction start n init body (fun _ _ => True) trivial
    fun i s _ _ _ => hends i s).of_error he

/-- A loop that only checks returns when every check passes. -/
theorem forRangeE_checks {body : ℕ → Except ε Unit} {n : ℕ} :
    forRangeE 0 n () (fun _ i => body i) = .ok () ↔ ∀ i < n, body i = .ok () := by
  rw [forRangeE, ← List.range_eq_range']
  induction n with
  | zero => simp [pure_eq_ok]
  | succ n ih =>
      rw [List.range_succ, List.foldlM_append, bind_eq_ok]
      simp only [List.foldlM_cons, List.foldlM_nil, bind_pure, ih]
      constructor
      · rintro ⟨-, hfirst, hlast⟩ i hi
        rcases Nat.lt_succ_iff_lt_or_eq.mp hi with hlt | rfl
        · exact hfirst i hlt
        · exact hlast
      · intro h
        exact ⟨(), fun i hi => h i (by omega), h n (Nat.lt_succ_self n)⟩

/-- `while (cond(state)) state = body(state)`, with a body that can fail; it stops with `exhausted` when
`fuel` tests of the condition are not enough. -/
def whileE (exhausted : ε) (cond : α → Bool) (body : α → Except ε α) : ℕ → α → Except ε α
  | 0, _ => .error exhausted
  | fuel + 1, s => if cond s then body s >>= whileE exhausted cond body fuel else pure s

/-- The invariant rule of this loop. A variant that goes down in each round bounds the fuel it needs. -/
theorem ends_whileE {exhausted : ε} {cond : α → Bool} {body : α → Except ε α} (I : α → Prop)
    (variant : α → ℕ)
    (hbody : ∀ s, I s → cond s = true → Ends (fun s' => I s' ∧ variant s' < variant s) F (body s)) :
    ∀ {fuel : ℕ} {s : α}, I s → variant s < fuel →
      Ends (fun s' => I s' ∧ cond s' = false) F (whileE exhausted cond body fuel s)
  | 0, _, _, hfuel => absurd hfuel (Nat.not_lt_zero _)
  | fuel + 1, s, hs, hfuel => by
      rw [whileE]
      split
      · rename_i hcond
        refine ends_bind (hbody s hs hcond) fun s' hs' => ?_
        exact ends_whileE I variant hbody hs'.1 (by omega)
      · rename_i hdone
        exact ends_pure ⟨hs, Bool.eq_false_iff.mpr hdone⟩

/-- A computation that cannot fail returns. -/
theorem Ends.exists_ok {x : Except ε α} (h : Ends P (fun _ => False) x) : ∃ a, x = .ok a ∧ P a := by
  cases x with
  | ok a => exact ⟨a, rfl, h⟩
  | error e => exact h.elim

end Checked

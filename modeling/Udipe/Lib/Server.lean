import Mathlib.Data.Option.Basic

/-!
# Objects that answer calls

A `Server` answers a call and moves to another state, or cannot answer it. `serve` feeds it a list of calls.
Two servers with a bisimulation between their states answer every list of calls in the same way.
-/

universe u v w x

/-- A deterministic object: `answer s c` is the answer to call `c` in state `s` and the state after it. -/
structure Server (σ : Type u) (C : Type v) (A : Type w) where
  answer : σ → C → Option (A × σ)

namespace Server

variable {σ : Type u} {C : Type v} {A : Type w} {τ : Type x}

section

variable (V : Server σ C A)

/-- The answers to a list of calls, and the state after them. -/
def serve : σ → List C → Option (List A × σ)
  | s, [] => some ([], s)
  | s, c :: cs => (V.answer s c).bind fun r => (serve r.2 cs).map fun rs => (r.1 :: rs.1, rs.2)

@[simp] theorem serve_nil (s : σ) : V.serve s [] = some ([], s) := rfl

theorem serve_cons (s : σ) (c : C) (cs : List C) :
    V.serve s (c :: cs)
      = (V.answer s c).bind fun r => (V.serve r.2 cs).map fun rs => (r.1 :: rs.1, rs.2) := rfl

/-- A call and then others. -/
theorem serve_cons_eq_some {s s' : σ} {c : C} {cs : List C} {as : List A} :
    V.serve s (c :: cs) = some (as, s') ↔
      ∃ a t bs, V.answer s c = some (a, t) ∧ V.serve t cs = some (bs, s') ∧ as = a :: bs := by
  simp only [serve_cons, Option.bind_eq_some_iff, Option.map_eq_some_iff, Prod.exists, Prod.mk.injEq]
  constructor
  · rintro ⟨a, t, hanswer, bs, s'', hserve, rfl, rfl⟩
    exact ⟨a, t, bs, hanswer, hserve, rfl⟩
  · rintro ⟨a, t, bs, hanswer, hserve, rfl⟩
    exact ⟨a, t, hanswer, bs, s', hserve, rfl, rfl⟩

/-- Calls in two parts. -/
theorem serve_append_eq_some {s s' : σ} {cs ds : List C} {as : List A} :
    V.serve s (cs ++ ds) = some (as, s') ↔
      ∃ bs t bs', V.serve s cs = some (bs, t) ∧ V.serve t ds = some (bs', s') ∧ as = bs ++ bs' := by
  induction cs generalizing s as with
  | nil =>
      constructor
      · exact fun hserve => ⟨[], s, as, rfl, hserve, rfl⟩
      · rintro ⟨_, _, bs', hnil, hserve, rfl⟩
        cases hnil
        exact hserve
  | cons c cs ih =>
      rw [List.cons_append, serve_cons_eq_some]
      constructor
      · rintro ⟨a, u, es, hanswer, hserve, rfl⟩
        obtain ⟨bs, t, bs', hcs, hds, rfl⟩ := ih.mp hserve
        exact ⟨a :: bs, t, bs', (V.serve_cons_eq_some).mpr ⟨a, u, bs, hanswer, hcs, rfl⟩, hds, rfl⟩
      · rintro ⟨bs, t, bs', hcs, hds, rfl⟩
        obtain ⟨a, u, es, hanswer, hserve, rfl⟩ := (V.serve_cons_eq_some).mp hcs
        exact ⟨a, u, es ++ bs', hanswer, ih.mpr ⟨es, t, bs', hserve, hds, rfl⟩, rfl⟩

end

/-- The same object with its answers in another form. -/
def map {B : Type x} (V : Server σ C A) (f : A → B) : Server σ C B where
  answer s c := (V.answer s c).map fun r => (f r.1, r.2)

theorem serve_map {B : Type x} (V : Server σ C A) (f : A → B) (s : σ) (cs : List C) :
    (V.map f).serve s cs = (V.serve s cs).map fun r => (r.1.map f, r.2) := by
  induction cs generalizing s with
  | nil => rfl
  | cons c cs ih =>
      have hanswer : (V.map f).answer s c = (V.answer s c).map fun r => (f r.1, r.2) := rfl
      rw [serve_cons, serve_cons, hanswer]
      cases V.answer s c with
      | none => rfl
      | some r =>
          simp only [Option.map_some, Option.bind_some, ih]
          cases V.serve r.2 cs <;> rfl

section

variable {α : Type u} {β : Type v} {γ : Type w} {δ : Type x} {R : α → β → Prop} {S : γ → δ → Prop}

theorem rel_bind {o : Option α} {o' : Option β} {f : α → Option γ} {g : β → Option δ}
    (h : Option.Rel R o o') (hfg : ∀ a b, R a b → Option.Rel S (f a) (g b)) :
    Option.Rel S (o.bind f) (o'.bind g) := by
  cases h with
  | none => exact .none
  | some hR => exact hfg _ _ hR

theorem rel_map {o : Option α} {o' : Option β} {f : α → γ} {g : β → δ} (h : Option.Rel R o o')
    (hfg : ∀ a b, R a b → S (f a) (g b)) : Option.Rel S (o.map f) (o'.map g) := by
  cases h with
  | none => exact .none
  | some hR => exact .some (hfg _ _ hR)

end

/-- The same answer, and related states after it. -/
def Agrees {A : Type w} (R : σ → τ → Prop) (x : A × σ) (y : A × τ) : Prop :=
  x.1 = y.1 ∧ R x.2 y.2

/-- Related states answer every call in the same way and stay related. -/
def Bisimilar (V : Server σ C A) (W : Server τ C A) (R : σ → τ → Prop) : Prop :=
  ∀ s t c, R s t → Option.Rel (Agrees R) (V.answer s c) (W.answer t c)

/-- The answers to a list of calls are the same. -/
theorem Bisimilar.serve {V : Server σ C A} {W : Server τ C A} {R : σ → τ → Prop} (h : V.Bisimilar W R)
    {s : σ} {t : τ} (hst : R s t) (cs : List C) :
    Option.Rel (Agrees R) (V.serve s cs) (W.serve t cs) := by
  induction cs generalizing s t with
  | nil => exact .some ⟨rfl, hst⟩
  | cons c cs ih =>
      rw [V.serve_cons, W.serve_cons]
      refine rel_bind (h s t c hst) fun x y hxy => ?_
      refine rel_map (ih hxy.2) fun p q hpq => ?_
      exact ⟨congrArg₂ List.cons hxy.1 hpq.1, hpq.2⟩

/-- What a server answers, a bisimilar one answers. -/
theorem Bisimilar.serve_eq_some {V : Server σ C A} {W : Server τ C A} {R : σ → τ → Prop}
    (h : V.Bisimilar W R) {s s' : σ} {t : τ} (hst : R s t) {cs : List C} {as : List A}
    (hserve : V.serve s cs = some (as, s')) : ∃ t', W.serve t cs = some (as, t') ∧ R s' t' := by
  have hrel := h.serve hst cs
  rw [hserve] at hrel
  cases hW : W.serve t cs with
  | none => rw [hW] at hrel; cases hrel
  | some y =>
      rw [hW] at hrel
      obtain ⟨heq, hR⟩ : Agrees R (as, s') y := by cases hrel; assumption
      exact ⟨y.2, congrArg some (Prod.ext heq.symm rfl), hR⟩

/-- The other way around. -/
theorem Bisimilar.serve_of_eq_some {V : Server σ C A} {W : Server τ C A} {R : σ → τ → Prop}
    (h : V.Bisimilar W R) {s : σ} {t t' : τ} (hst : R s t) {cs : List C} {as : List A}
    (hserve : W.serve t cs = some (as, t')) : ∃ s', V.serve s cs = some (as, s') ∧ R s' t' := by
  have hrel := h.serve hst cs
  rw [hserve] at hrel
  cases hV : V.serve s cs with
  | none => rw [hV] at hrel; cases hrel
  | some x =>
      rw [hV] at hrel
      obtain ⟨heq, hR⟩ : Agrees R x (as, t') := by cases hrel; assumption
      exact ⟨x.2, congrArg some (Prod.ext heq rfl), hR⟩

end Server

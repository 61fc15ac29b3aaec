import Udipe.Lib.Checked

/-!
# Computations that change a state and can stop

Rules for `Ends` on `StateT σ (Except ε)`: a call in the middle of a computation is used through what is known
about its result and about the state that it leaves.
-/

namespace Checked

universe u v

variable {ε : Type u} {σ α β : Type v} {s : σ} {P : α × σ → Prop} {Q : β × σ → Prop} {F G : ε → Prop}

theorem ends_stateBind {x : StateT σ (Except ε) α} {f : α → StateT σ (Except ε) β} (hx : Ends P F (x s))
    (hf : ∀ a t, P (a, t) → Ends Q F (f a t)) : Ends Q F ((x >>= f) s) :=
  ends_bind (P := P) hx fun r hr => hf r.1 r.2 hr

theorem ends_statePure {a : α} (h : P (a, s)) : Ends P F ((pure a : StateT σ (Except ε) α) s) := h

/-- More failures are allowed. -/
theorem Ends.of_imp {γ : Type v} {P : γ → Prop} {x : Except ε γ} (h : Ends P F x) (hF : ∀ e, F e → G e) :
    Ends P G x := by
  cases x with
  | ok a => exact h
  | error e => exact hF e h

end Checked

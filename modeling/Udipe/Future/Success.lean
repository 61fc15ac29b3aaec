import Udipe.Future.Race

/-!
# The success flag of a custom future

Reference: `future.c` (`udipe_custom_try_set_result`), `future/wait.c` (`future_wait_join`).

`udipe_custom_try_set_result` stores the successful outcome whatever its argument `successful` says.
`World` is a join together with the custom futures that it depends on, each with its own worker and
clients. A step of a custom future changes the status word that the join reads; a step of the join
that detaches a custom future decrements its `downstream_count`.
-/

namespace Udipe

open Function

/-- A join and the custom futures it depends on. -/
structure World (Tid P : Type) (n : ℕ) where
  join : State Tid P n
  custom : Fin n → State Tid P 0

/-- One step of one party. -/
inductive WorldEvent (Tid P : Type) (n : ℕ) where
  | join (e : Event Tid P n)
  | custom (i : Fin n) (e : Event Tid P 0)

variable {Tid P : Type} {n : ℕ} {b : Build}

/-- The event happens inside the future, or to a downstream future that is not the join. -/
def Event.internal (s : State Tid P n) : Event Tid P n → Bool
  | .upstreamChanges _ _ => false
  | .downstreamDetaches => decide (2 ≤ s.shared.downstreams)
  | _ => true

/-- The process has ended. -/
def World.ended (w : World Tid P n) : Prop :=
  w.join.shared.aborted.isSome = true ∨ ∃ i, (w.custom i).shared.aborted.isSome = true

instance (w : World Tid P n) : Decidable w.ended :=
  inferInstanceAs (Decidable (_ ∨ _))

section

variable [DecidableEq Tid] [Fintype Tid]

/-- The custom futures after a step of the join. -/
def World.detached (b : Build) (w : World Tid P n) (join : State Tid P n) (i : Fin n) :
    State Tid P 0 :=
  if join.shared.detached i = w.join.shared.detached i then w.custom i
  else (step b (w.custom i) .downstreamDetaches).getD (w.custom i)

/-- One step of one party. -/
def worldStep (b : Build) (w : World Tid P n) (e : WorldEvent Tid P n) : Option (World Tid P n) :=
  if w.ended then none else
  match e with
  | .join e =>
      if e.internal w.join then
        (step b w.join e).map fun join => { join := join, custom := w.detached b join }
      else none
  | .custom i e =>
      if e.internal (w.custom i) then
        (step b (w.custom i) e).map fun custom =>
          { join := { w.join with shared := { w.join.shared with
              upstream := update w.join.shared.upstream i custom.shared.word } }
            custom := update w.custom i custom }
      else none

/-- The machine of a join and its custom futures. -/
def world (b : Build) : Machine (World Tid P n) (WorldEvent Tid P n) where
  step := worldStep b

end

/-- A join over custom futures, before any call. -/
def World.start (status : FutureStatus) (payload : P) (statuses : Fin n → FutureStatus) :
    World Tid P n where
  join := State.start status payload statuses
  custom := fun i => State.start (statuses i) payload Fin.elim0

/-- `udipe_custom_try_set_result(future, successful, _)` returned true, and the future is not liberated
yet. -/
def State.CompletedWith (s : State Tid P n) (successful : Bool) : Prop :=
  s.shared.liberated = false ∧ s.worker = .done (some true) ∧
    ∃ payload, s.given = some (successful, payload)

variable [DecidableEq Tid] [Fintype Tid] {w w' : World Tid P n} {e : WorldEvent Tid P n}

/-- Each custom future of a world moves as its own machine does, or not at all. -/
theorem worldStep_custom (h : (world b).step w e = some w') (i : Fin n) :
    w'.custom i = w.custom i ∨ ∃ e, step b (w.custom i) e = some (w'.custom i) := by
  simp only [world, worldStep] at h
  split at h
  · simp at h
  cases e with
  | join e =>
      simp only [Option.ite_none_right_eq_some, Option.map_eq_some_iff] at h
      obtain ⟨-, join, -, rfl⟩ := h
      simp only [World.detached]
      split
      · exact .inl rfl
      · cases hs : step b (w.custom i) .downstreamDetaches with
        | none => exact .inl rfl
        | some s => exact .inr ⟨_, hs⟩
  | custom j e =>
      simp only [Option.ite_none_right_eq_some, Option.map_eq_some_iff] at h
      obtain ⟨-, s, hs, rfl⟩ := h
      rcases eq_or_ne i j with rfl | hij
      · exact .inr ⟨e, by simpa using hs⟩
      · exact .inl (update_of_ne hij _ _)

/-- Each custom future of a world is in a state that its own machine reaches. -/
theorem world_custom_reachable {w₀ : World Tid P n} {es : List (WorldEvent Tid P n)}
    (hrun : (world b).run w₀ es = some w) (i : Fin n) :
    (future b).Reachable (w₀.custom i) (w.custom i) := by
  refine Machine.invariant_of_run (M := world b)
    (I := fun w => (future b).Reachable (w₀.custom i) (w.custom i)) (fun w e w' hI hstep => ?_)
    (Machine.Reachable.refl _ _) hrun
  obtain heq | ⟨e', hs⟩ := worldStep_custom hstep i
  · rw [heq]
    exact hI
  · exact hI.step hs

omit [DecidableEq Tid] in
/-- A custom future that was completed is successful. -/
theorem State.CompletedWith.outcome {s : State Tid P 0} (h : Race s) {successful : Bool}
    (hc : s.CompletedWith successful) : s.shared.word.outcome = .success := by
  obtain ⟨hlib, hw, -⟩ := hc
  have hend := (h.worker hlib).returned.2 (some true) (by rw [hw]; rfl)
  rw [if_pos rfl] at hend
  exact hend.1

/-- In every state of every world: the outcome of each completed custom future agrees with the argument
`successful`, and the join is successful only if no custom future was completed unsuccessfully,
exactly when every custom future was completed with `successful = true`. -/
theorem success_flag_kept_iff {status : FutureStatus} {payload : P}
    {statuses : Fin n → FutureStatus}
    (hstart : ∀ i, (statuses i).startable = true ∧ (statuses i).type = .custom)
    {es : List (WorldEvent Tid P n)}
    (hrun : (world b).run (World.start status payload statuses) es = some w) :
    ((∀ i successful, (w.custom i).CompletedWith successful →
        ((w.custom i).shared.word.outcome = .success ↔ successful = true)) ∧
      (w.join.shared.word.outcome = .success → ∀ i, ¬ (w.custom i).CompletedWith false)) ↔
    ∀ i successful, (w.custom i).CompletedWith successful → successful = true := by
  have hrace : ∀ i, Race (w.custom i) := fun i => by
    obtain ⟨fs, hfs⟩ := world_custom_reachable hrun i
    exact (race_of_run (hstart i).1 (hstart i).2 hfs).2
  constructor
  · rintro ⟨hkept, -⟩ i successful hc
    exact (hkept i successful hc).mp (hc.outcome (hrace i))
  · intro hall
    refine ⟨fun i successful hc => ?_, fun _ i hc => ?_⟩
    · simp [hc.outcome (hrace i), hall i successful hc]
    · simpa using hall i false hc

/-- A custom future with one downstream. -/
def FutureStatus.startUpstream : FutureStatus :=
  { FutureStatus.startCustom with downstreamCount := 1 }

/-- The worker completes the only upstream of a join, which a thread then waits for. -/
def joinedRun (successful : Bool) : List (WorldEvent (Fin 1) Unit 1) :=
  [.custom 0 (.workerCall (.trySetResult successful ())), .custom 0 (.worker (.calm _ _)),
    .custom 0 (.worker (.calm _ _)), .custom 0 (.worker (.calm _ _)),
    .custom 0 (.worker (.calm _ _)), .custom 0 (.worker (.calm _ _)),
    .join (.call 0 (.wait 5)), .join (.client 0 (.calm _ _)), .join (.client 0 (.calm _ _)),
    .join (.client 0 { Oracle.calm (Fin 1) 1 with poll := .ready [.upstream 0] }),
    .join (.client 0 (.calm _ _)), .join (.client 0 (.calm _ _)), .join (.client 0 (.calm _ _))]

theorem success_flag_kept_iff_joinedRun :
    ∃ w, (world ⟨true⟩).run (World.start .startJoin () fun _ => .startUpstream)
        (joinedRun true) = some w ∧ (w.custom 0).shared.word.outcome = .success := by
  have hend : ((world ⟨true⟩).run (World.start .startJoin () fun _ => .startUpstream)
      (joinedRun true)).map (fun w => ((w.custom 0).shared.liberated, (w.custom 0).worker,
        (w.custom 0).given)) = some (false, .done (some true), some (true, ())) := by
    decide +kernel
  obtain ⟨w, hrun, hw⟩ := Option.map_eq_some_iff.mp hend
  obtain ⟨hlib, hdone, hgiven⟩ : (w.custom 0).shared.liberated = false ∧
      (w.custom 0).worker = .done (some true) ∧ (w.custom 0).given = some (true, ()) := by
    simpa using hw
  have hall : ∀ i successful, (w.custom i).CompletedWith successful → successful = true := by
    rintro i successful ⟨-, -, payload, hg⟩
    obtain rfl : i = 0 := Subsingleton.elim _ _
    simpa [hgiven, eq_comm] using hg
  have hkept := (success_flag_kept_iff (fun _ => by decide) hrun).mpr hall
  exact ⟨w, hrun, (hkept.1 0 true ⟨hlib, hdone, (), hgiven⟩).mpr rfl⟩

/-- An unsuccessful completion makes the custom future and the join successful. -/
theorem joinedRun_successful :
    ∃ w, (world ⟨true⟩).run (World.start .startJoin () fun _ => .startUpstream)
        (joinedRun false) = some w ∧ (w.custom 0).CompletedWith false ∧
      (w.custom 0).shared.word.outcome = .success ∧ w.join.shared.word.state = .result ∧
      w.join.shared.word.outcome = .success := by
  have hend : ((world ⟨true⟩).run (World.start .startJoin () fun _ => .startUpstream)
      (joinedRun false)).map (fun w => (((w.custom 0).shared.liberated, (w.custom 0).worker,
        (w.custom 0).given), (w.custom 0).shared.word.outcome, w.join.shared.word.state,
        w.join.shared.word.outcome)) =
      some ((false, .done (some true), some (false, ())), .success, .result, .success) := by
    decide +kernel
  obtain ⟨w, hrun, hw⟩ := Option.map_eq_some_iff.mp hend
  simp only [Prod.mk.injEq] at hw
  obtain ⟨⟨hlib, hdone, hgiven⟩, houtcome, hstate, hjoin⟩ := hw
  exact ⟨w, hrun, ⟨hlib, hdone, (), hgiven⟩, houtcome, hstate, hjoin⟩

end Udipe

import Udipe.Connect.Allocator

/-!
# Each option has at most one holder

A set bit of the availability mask means that nobody holds the option. A claim takes effect in the
`fetch_and` that clears the bit, so two threads that picked the same bit cannot both win it; a wrong
guess clears a bit that is already clear.
-/

namespace Udipe

open Function

/-! ## Bits of the mask -/

/-- The mask after a claim of option `i`. -/
theorem getLsbD_and_not_optionBit (mask : BitVec numConnectOptions) (i j : ℕ) :
    (mask &&& ~~~optionBit i).getLsbD j = (mask.getLsbD j && decide (i ≠ j)) :=
  getLsbD_and_not_bit mask i j

/-- The mask after the release of option `i`. -/
theorem getLsbD_or_optionBit (mask : BitVec numConnectOptions) (i j : ℕ) :
    (mask ||| optionBit i).getLsbD j
      = (mask.getLsbD j || decide (i = j ∧ j < numConnectOptions)) :=
  getLsbD_or_bit mask i j

/-- The test of a bit, as the code makes it. -/
theorem and_optionBit_eq_zero (mask : BitVec numConnectOptions) (i : ℕ) :
    mask &&& optionBit i = 0 ↔ mask.getLsbD i = false :=
  and_bit_eq_zero mask i

/-! ## The law of the mask -/

section

variable {Tid : Type} [DecidableEq Tid]

/-- A bit is set exactly when nobody holds the option, and nobody shares one. -/
structure ConnectLaw (s : ConnectState Tid) : Prop where
  available : ∀ i, s.availability.getLsbD i = true ↔ i < numConnectOptions ∧ s.holders i = []
  inside : ∀ i, s.holders i ≠ [] → i < numConnectOptions
  exclusive : ∀ i, (s.holders i).length ≤ 1
  releasing : ∀ t i, s.pc t = .liberateRelease i → t ∈ s.holders i
  sound : s.aborted = false

omit [DecidableEq Tid] in
theorem ConnectLaw.start : ConnectLaw (ConnectState.start Tid) :=
  { available := fun i => by simp [ConnectState.start]
    inside := fun i h => absurd rfl h
    exclusive := fun i => Nat.zero_le _
    releasing := fun t i h => by cases h
    sound := rfl }

omit [DecidableEq Tid] in
/-- The holder is the only one. -/
theorem ConnectLaw.holders_eq {s : ConnectState Tid} (hs : ConnectLaw s) {t : Tid} {i : ℕ}
    (ht : t ∈ s.holders i) : s.holders i = [t] := by
  obtain ⟨u, hu⟩ := List.length_eq_one_iff.mp
    (le_antisymm (hs.exclusive i) (List.length_pos_of_mem ht))
  rw [hu] at ht ⊢
  rw [List.mem_singleton.mp ht]

/-- A step that only moves a thread inside `connect_options_allocate`, or out of its call. -/
theorem ConnectLaw.move {s : ConnectState Tid} (hs : ConnectLaw s) {t : Tid} {pc : ConnectPc}
    (hpc : ∀ i, pc = .liberateRelease i → t ∈ s.holders i) :
    ConnectLaw { s with pc := update s.pc t pc } :=
  { hs with
    releasing := Threads.forall_update
      (P := fun (u : Tid) (pc : ConnectPc) => ∀ i, pc = .liberateRelease i → u ∈ s.holders i) hpc
      fun u _ => hs.releasing u }

omit [DecidableEq Tid] in
/-- With at most one holder of an option of the mask, there still is at most one of each. -/
theorem ConnectLaw.exclusive_update {s : ConnectState Tid} (hs : ConnectLaw s) {i : ℕ}
    {l : List Tid} (hi : i < numConnectOptions) (hl : l.length ≤ 1) :
    (∀ j, update s.holders i l j ≠ [] → j < numConnectOptions) ∧
      ∀ j, (update s.holders i l j).length ≤ 1 := by
  constructor
  · intro j hj
    rcases eq_or_ne j i with rfl | hij
    · exact hi
    · rw [update_of_ne hij] at hj
      exact hs.inside j hj
  · intro j
    rcases eq_or_ne j i with rfl | hij
    · rw [update_self]
      exact hl
    · rw [update_of_ne hij]
      exact hs.exclusive j

theorem examineAvailability_ne (availability : BitVec numConnectOptions) (rand : ℕ) (woken : Bool)
    (i : ℕ) : examineAvailability availability rand woken ≠ .liberateRelease i := by
  unfold examineAvailability
  split <;> simp

/-- A claim: a set bit gives the thread an option that nobody holds. -/
theorem ConnectLaw.claim {s : ConnectState Tid} (hs : ConnectLaw s) {t : Tid} {i : ℕ}
    (hbit : s.availability.getLsbD i = true) :
    ConnectLaw { s with
      availability := s.availability &&& ~~~optionBit i
      holders := update s.holders i (t :: s.holders i)
      pc := update s.pc t .idle } := by
  obtain ⟨hi, hfree⟩ := (hs.available i).mp hbit
  obtain ⟨hinside, hexclusive⟩ :=
    hs.exclusive_update (l := t :: s.holders i) hi (by simp [hfree])
  refine
    { available := fun j => ?_
      inside := hinside
      exclusive := hexclusive
      releasing := fun u j hu => ?_
      sound := hs.sound }
  · simp only [getLsbD_and_not_optionBit, Bool.and_eq_true, decide_eq_true_eq, hs.available j]
    rcases eq_or_ne i j with rfl | hij
    · simp
    · simp [hij, update_of_ne hij.symm]
  · have hut : u ≠ t := by
      rintro rfl
      simp at hu
    have hold := hs.releasing u j (by simpa [update_of_ne hut] using hu)
    rcases eq_or_ne j i with rfl | hij
    · simp [hfree] at hold
    · simpa [update_of_ne hij] using hold

/-- A release: the holder sets the bit and holds the option no more. -/
theorem ConnectLaw.release {s : ConnectState Tid} (hs : ConnectLaw s) {t : Tid} {i : ℕ}
    {pc : ConnectPc} (hpc : ∀ j, pc ≠ .liberateRelease j) (ht : t ∈ s.holders i) :
    ConnectLaw { s with
      availability := s.availability ||| optionBit i
      holders := update s.holders i ((s.holders i).erase t)
      pc := update s.pc t pc } := by
  have hsole := hs.holders_eq ht
  have hi := hs.inside i (List.ne_nil_of_mem ht)
  obtain ⟨hinside, hexclusive⟩ :=
    hs.exclusive_update (l := (s.holders i).erase t) hi (by simp [hsole])
  refine
    { available := fun j => ?_
      inside := hinside
      exclusive := hexclusive
      releasing := fun u j hu => ?_
      sound := hs.sound }
  · simp only [getLsbD_or_optionBit, Bool.or_eq_true, decide_eq_true_eq, hs.available j]
    rcases eq_or_ne i j with rfl | hij
    · simp [hsole, hi]
    · simp [hij, update_of_ne hij.symm]
  · have hut : u ≠ t := by
      rintro rfl
      simp [hpc] at hu
    have hold := hs.releasing u j (by simpa [update_of_ne hut] using hu)
    rcases eq_or_ne j i with rfl | hij
    · simp [hsole, hut] at hold
    · simpa [update_of_ne hij] using hold

/-- A holder hands its option over. -/
theorem ConnectLaw.handOver {s : ConnectState Tid} (hs : ConnectLaw s) {t : Tid} {i : ℕ} (u : Tid)
    (hpc : s.pc t = .idle) (ht : t ∈ s.holders i) :
    ConnectLaw { s with holders := update s.holders i (u :: (s.holders i).erase t) } := by
  have hsole := hs.holders_eq ht
  have hi := hs.inside i (List.ne_nil_of_mem ht)
  obtain ⟨hinside, hexclusive⟩ :=
    hs.exclusive_update (l := u :: (s.holders i).erase t) hi (by simp [hsole])
  refine
    { available := fun j => ?_
      inside := hinside
      exclusive := hexclusive
      releasing := fun v j hv => ?_
      sound := hs.sound }
  · rw [hs.available j]
    rcases eq_or_ne j i with rfl | hij
    · simp [hsole]
    · simp [update_of_ne hij]
  · have hold := hs.releasing v j hv
    rcases eq_or_ne j i with rfl | hij
    · -- the one holder is `t`, which is outside any call
      rw [hsole, List.mem_singleton] at hold
      simp [hold, hpc] at hv
    · simpa [update_of_ne hij] using hold

/-- One step of a thread in its call keeps the law. -/
theorem ConnectLaw.threadStep {s : ConnectState Tid} (hs : ConnectLaw s) (t : Tid) (rand : ℕ)
    (wakee : Option Tid) : ConnectLaw (connectThreadStep t rand wakee s) := by
  unfold connectThreadStep
  split
  case h_1 => exact hs
  case h_2 => exact hs.move fun i h => absurd h (examineAvailability_ne _ _ _ i)
  case h_3 =>
    refine hs.move fun i h => ?_
    split at h <;> cases h
  case h_4 => exact hs.move fun i h => by cases h
  case h_5 => exact hs.move fun i h => absurd h (examineAvailability_ne _ _ _ i)
  case h_6 i woken hpc =>
    dsimp only
    split
    case isTrue hclear =>
      have hsame : s.availability &&& ~~~optionBit i = s.availability := by
        apply BitVec.eq_of_getLsbD_eq
        intro j _
        rw [getLsbD_and_not_optionBit]
        rcases eq_or_ne i j with rfl | hij
        · simp [(and_optionBit_eq_zero _ _).mp hclear]
        · simp [hij]
      rw [hsame]
      exact hs.move fun j h => absurd h (examineAvailability_ne _ _ _ j)
    case isFalse hset =>
      rw [and_optionBit_eq_zero, Bool.not_eq_false] at hset
      exact hs.claim hset
  case h_7 i hpc =>
    have ht := hs.releasing t i hpc
    have hclear : s.availability.getLsbD i = false := by
      by_contra hset
      have hfree := ((hs.available i).mp (by simpa using hset)).2
      simp [hfree] at ht
    dsimp only
    rw [if_pos ((and_optionBit_eq_zero _ _).mpr hclear)]
    exact hs.release (fun j => by split <;> simp) ht
  case h_8 =>
    have hidle : ConnectLaw { s with pc := update s.pc t .idle } := hs.move fun i h => by cases h
    cases wakee with
    | none => exact hidle
    | some u => exact hidle.move fun i h => by cases h

variable [Fintype Tid]

theorem ConnectLaw.step (s : ConnectState Tid) (e : ConnectEvent Tid) (s' : ConnectState Tid)
    (hs : ConnectLaw s) (h : connectOptions.step s e = some s') : ConnectLaw s' := by
  simp only [connectOptions, connectStep] at h
  rw [if_neg (by simp [hs.sound])] at h
  cases e with
  | allocate t =>
      simp only [Option.ite_none_right_eq_some, Option.some.injEq] at h
      obtain ⟨-, rfl⟩ := h
      exact hs.move fun i h => by cases h
  | liberate t i =>
      simp only [Option.ite_none_right_eq_some, Option.some.injEq] at h
      obtain ⟨⟨-, ht⟩, rfl⟩ := h
      refine hs.move fun j hj => ?_
      obtain rfl : i = j := by simpa using hj
      exact ht
  | handOver t u i =>
      simp only [Option.ite_none_right_eq_some, Option.some.injEq] at h
      obtain ⟨⟨hpc, ht⟩, rfl⟩ := h
      exact hs.handOver u hpc ht
  | thread t rand wakee =>
      simp only [Option.ite_none_right_eq_some, Option.some.injEq] at h
      obtain ⟨-, rfl⟩ := h
      exact hs.threadStep t rand wakee

/-- In every run no option has two holders, its bit is set exactly when it has none, and no option is
liberated twice. -/
theorem connect_options_exclusive {es : List (ConnectEvent Tid)} {s : ConnectState Tid}
    (hrun : connectOptions.run (ConnectState.start Tid) es = some s) :
    (∀ i, (s.holders i).length ≤ 1) ∧
      (∀ i < numConnectOptions, s.availability.getLsbD i = true ↔ s.holders i = []) ∧
      (∀ i, s.holders i ≠ [] → i < numConnectOptions) ∧ s.aborted = false := by
  have hs : ConnectLaw s := Machine.invariant_of_run ConnectLaw.step ConnectLaw.start hrun
  refine ⟨hs.exclusive, fun i hi => ?_, hs.inside, hs.sound⟩
  rw [hs.available i]
  exact and_iff_right hi

end

/-- Thread 0 allocates an option, hands it over to thread 1, and allocates again; thread 1 liberates
its option. -/
def handedOverOption : List (ConnectEvent (Fin 2)) :=
  [.allocate 0, .thread 0 0 none, .thread 0 0 none, .handOver 0 1 0, .allocate 0, .thread 0 3 none,
    .liberate 1 0, .thread 0 0 none, .thread 1 0 none]

theorem connect_options_exclusive_handedOverOption :
    ∃ s : ConnectState (Fin 2),
      connectOptions.run (ConnectState.start (Fin 2)) handedOverOption = some s ∧
        s.holders 4 = [0] ∧ s.availability.getLsbD 4 = false ∧ s.availability.getLsbD 0 = true := by
  have hend : (connectOptions.run (ConnectState.start (Fin 2)) handedOverOption).map
      (fun s => (s.holders 0, s.holders 4)) = some ([], [0]) := by decide +kernel
  obtain ⟨s, hrun, hs⟩ := Option.map_eq_some_iff.mp hend
  obtain ⟨h0, h4⟩ := Prod.mk.inj hs
  have hlaw := (connect_options_exclusive hrun).2.1
  refine ⟨s, hrun, h4, ?_, (hlaw 0 (by decide)).mpr h0⟩
  by_contra hset
  have hfree := (hlaw 4 (by decide)).mp (by simpa using hset)
  rw [h4] at hfree
  cases hfree

end Udipe

import Udipe.Connect.Exclusivity

/-!
# Sleepers on the availability mask

A release wakes one sleeper, and only if the mask was zero. The woken thread answers for all other
sleepers: when it claims its option while another one is free, nobody is left to wake them.
-/

namespace Udipe

open Function

variable {Tid : Type} [DecidableEq Tid]

/-- While an option is free, no thread sleeps unless a wake call is still to be issued or a woken
thread has not yet examined the mask. -/
def NoSleeperStranded (s : ConnectState Tid) : Prop :=
  s.availability ≠ 0 → (∃ u, (s.pc u).asleep = true) →
    ∃ u, s.pc u = .liberateWake ∨ (s.pc u).woken = true

/-- The step is the claim of a woken thread that leaves another option free while a thread sleeps, no
wake call is left, and no other woken thread. -/
def StrandsSleeper (s : ConnectState Tid) : ConnectEvent Tid → Prop
  | .thread t _ _ =>
      ∃ optionIdx, s.pc t = .allocateClaim optionIdx true ∧
        s.availability &&& ~~~optionBit optionIdx ≠ 0 ∧ (∃ u, (s.pc u).asleep = true) ∧
          ∀ u, u ≠ t → s.pc u ≠ .liberateWake ∧ (s.pc u).woken = false
  | _ => False

/-- The option that a woken thread is about to claim. -/
def ConnectPc.wokenClaim : ConnectPc → Option ℕ
  | .allocateClaim optionIdx true => some optionIdx
  | _ => none

theorem ConnectPc.wokenClaim_eq_some {pc : ConnectPc} {optionIdx : ℕ} :
    pc.wokenClaim = some optionIdx ↔ pc = .allocateClaim optionIdx true := by
  unfold wokenClaim
  split
  · simp
  · rename_i hclaim
    exact iff_of_false (by simp) (hclaim optionIdx)

instance [Fintype Tid] (s : ConnectState Tid) (e : ConnectEvent Tid) : Decidable (StrandsSleeper s e) :=
  match e with
  | .thread t _ _ =>
      match hclaim : (s.pc t).wokenClaim with
      | some optionIdx =>
          decidable_of_iff
            (s.availability &&& ~~~optionBit optionIdx ≠ 0 ∧ (∃ u, (s.pc u).asleep = true) ∧
              ∀ u, u ≠ t → s.pc u ≠ .liberateWake ∧ (s.pc u).woken = false)
            ⟨fun h => ⟨optionIdx, ConnectPc.wokenClaim_eq_some.mp hclaim, h⟩, fun ⟨i, hi, h⟩ => by
              obtain rfl : optionIdx = i :=
                Option.some.inj (hclaim.symm.trans (ConnectPc.wokenClaim_eq_some.mpr hi))
              exact h⟩
      | none => isFalse fun ⟨i, hi, _⟩ => by
          rw [ConnectPc.wokenClaim_eq_some.mpr hi] at hclaim
          cases hclaim
  | .allocate _ | .liberate _ _ | .handOver _ _ _ => inferInstanceAs (Decidable False)

@[simp] theorem examineAvailability_asleep (availability : BitVec numConnectOptions) (rand : ℕ)
    (woken : Bool) : (examineAvailability availability rand woken).asleep = false := by
  unfold examineAvailability
  split <;> rfl

@[simp] theorem examineAvailability_woken_false (availability : BitVec numConnectOptions) (rand : ℕ) :
    (examineAvailability availability rand false).woken = false := by
  unfold examineAvailability
  split <;> rfl

@[simp] theorem examineAvailability_ne_wake (availability : BitVec numConnectOptions) (rand : ℕ)
    (woken : Bool) : examineAvailability availability rand woken ≠ .liberateWake := by
  unfold examineAvailability
  split <;> simp

/-- Moving thread `t` strands nobody if it goes neither to sleep nor off duty, and no option became
free. -/
theorem NoSleeperStranded.move {s s' : ConnectState Tid} {t : Tid} {pc : ConnectPc}
    (hs : NoSleeperStranded s) (hpc : s'.pc = update s.pc t pc)
    (hfree : s'.availability ≠ 0 → s.availability ≠ 0) (hasleep : pc.asleep = false)
    (hwake : s.pc t ≠ .liberateWake) (hwoken : (s.pc t).woken = true → pc.woken = true) :
    NoSleeperStranded s' := by
  rintro hav ⟨u, hu⟩
  have hut : u ≠ t := by
    rintro rfl
    simp [hpc, hasleep] at hu
  rw [hpc, update_of_ne hut] at hu
  obtain ⟨v, hv⟩ := hs (hfree hav) ⟨u, hu⟩
  rcases eq_or_ne v t with rfl | hvt
  · exact ⟨v, .inr (by simpa [hpc] using hwoken (hv.resolve_left hwake))⟩
  · exact ⟨v, by simpa [hpc, update_of_ne hvt] using hv⟩

theorem and_not_ne_zero {mask bit : BitVec numConnectOptions} (h : mask &&& ~~~bit ≠ 0) :
    mask ≠ 0 := by
  rintro rfl
  simp at h

/-- The claim of a thread that is off duty afterwards. -/
theorem NoSleeperStranded.claim {s s' : ConnectState Tid} {t : Tid} {pc : ConnectPc} {i : ℕ}
    {woken : Bool} {rand : ℕ} {wakee : Option Tid} (hs : NoSleeperStranded s)
    (hold : s.pc t = .allocateClaim i woken)
    (hcond : ¬ StrandsSleeper s (.thread t rand wakee)) (hpc : s'.pc = update s.pc t pc)
    (hav : s'.availability = s.availability &&& ~~~optionBit i) (hasleep : pc.asleep = false) :
    NoSleeperStranded s' := by
  cases woken with
  | false =>
      refine hs.move hpc (fun h => and_not_ne_zero (hav ▸ h)) hasleep (by simp [hold]) ?_
      simp [hold, ConnectPc.woken]
  | true =>
      rintro hfree ⟨u, hu⟩
      have hut : u ≠ t := by
        rintro rfl
        simp [hpc, hasleep] at hu
      rw [hpc, update_of_ne hut] at hu
      by_contra hnone
      refine hcond ⟨i, hold, hav ▸ hfree, ⟨u, hu⟩, fun v hvt => ?_⟩
      constructor
      · exact fun hv => hnone ⟨v, .inl (by rw [hpc, update_of_ne hvt, hv])⟩
      · by_contra hv
        exact hnone ⟨v, .inr (by rw [hpc, update_of_ne hvt]; simpa using hv)⟩

variable [Fintype Tid]

/-- The guards of a thread's step. -/
theorem connectStep_thread {s s' : ConnectState Tid} {t : Tid} {rand : ℕ} {wakee : Option Tid}
    (h : connectOptions.step s (.thread t rand wakee) = some s') :
    s.wakeAllowed t wakee = true ∧ connectThreadStep t rand wakee s = s' := by
  simp only [connectOptions, connectStep] at h
  split at h
  · cases h
  · simp only [Option.ite_none_right_eq_some, Option.some.injEq] at h
    exact ⟨h.1.2, h.2⟩

/-- A step that strands nobody by its claim strands nobody. -/
theorem NoSleeperStranded.threadStep {s : ConnectState Tid} {t : Tid} {rand : ℕ}
    {wakee : Option Tid} (hs : NoSleeperStranded s)
    (hcond : ¬ StrandsSleeper s (.thread t rand wakee)) (hwake : s.wakeAllowed t wakee = true) :
    NoSleeperStranded (connectThreadStep t rand wakee s) := by
  unfold connectThreadStep
  split
  case h_1 => exact hs
  case h_2 hpc =>
    exact hs.move rfl id (by simp) (by simp [hpc]) (by simp [hpc, ConnectPc.woken])
  case h_3 hpc =>
    by_cases hzero : s.availability = 0
    · exact fun h => absurd hzero h
    · rw [if_neg hzero]
      exact hs.move rfl id rfl (by simp [hpc]) (by simp [hpc, ConnectPc.woken])
  case h_4 hpc => exact hs.move rfl id rfl (by simp [hpc]) (by simp [hpc, ConnectPc.woken])
  case h_5 woken hpc =>
    by_cases hzero : s.availability = 0
    · exact fun h => absurd hzero h
    · rw [examineAvailability, if_neg hzero]
      refine hs.move rfl id rfl (by simp [hpc]) fun hw => ?_
      simpa [hpc, ConnectPc.woken] using hw
  case h_6 i woken hpc =>
    dsimp only
    split
    · exact hs.claim hpc hcond rfl rfl (by simp)
    · exact hs.claim hpc hcond rfl rfl rfl
  case h_7 i hpc =>
    dsimp only
    split
    · by_cases hzero : s.availability = 0
      · -- the first release after the mask was zero is to be followed by a wake call
        rw [if_pos hzero]
        exact fun _ _ => ⟨t, .inl (by simp)⟩
      · rw [if_neg hzero]
        exact hs.move rfl (fun _ => hzero) rfl (by simp [hpc]) (by simp [hpc, ConnectPc.woken])
    · exact hs
  case h_8 hpc =>
    cases wakee with
    | some u => exact fun _ _ => ⟨u, .inr (by simp [ConnectPc.woken])⟩
    | none =>
        rintro - ⟨u, hu⟩
        have hnone : ∀ v, (s.pc v).asleep = false := by
          simpa [ConnectState.wakeAllowed, hpc] using hwake
        rcases eq_or_ne u t with rfl | hut
        · simp [ConnectPc.asleep] at hu
        · simp [update_of_ne hut, hnone] at hu

theorem NoSleeperStranded.step (s : ConnectState Tid) (e : ConnectEvent Tid)
    (s' : ConnectState Tid) (hs : NoSleeperStranded s) (hcond : ¬ StrandsSleeper s e)
    (h : connectOptions.step s e = some s') : NoSleeperStranded s' := by
  cases e with
  | thread t rand wakee =>
      obtain ⟨hwake, rfl⟩ := connectStep_thread h
      exact hs.threadStep hcond hwake
  | allocate t =>
      simp only [connectOptions, connectStep] at h
      split at h
      · cases h
      simp only [Option.ite_none_right_eq_some, Option.some.injEq] at h
      obtain ⟨hpc, rfl⟩ := h
      exact hs.move rfl id rfl (by simp [hpc]) (by simp [hpc, ConnectPc.woken])
  | liberate t i =>
      simp only [connectOptions, connectStep] at h
      split at h
      · cases h
      simp only [Option.ite_none_right_eq_some, Option.some.injEq] at h
      obtain ⟨⟨hpc, -⟩, rfl⟩ := h
      exact hs.move rfl id rfl (by simp [hpc]) (by simp [hpc, ConnectPc.woken])
  | handOver t u i =>
      simp only [connectOptions, connectStep] at h
      split at h
      · cases h
      simp only [Option.ite_none_right_eq_some, Option.some.injEq] at h
      obtain ⟨-, rfl⟩ := h
      exact hs

/-- After such a claim the sleeper is stranded. -/
theorem StrandsSleeper.stranded {s s' : ConnectState Tid} {e : ConnectEvent Tid}
    (hs : StrandsSleeper s e) (h : connectOptions.step s e = some s') :
    ¬ NoSleeperStranded s' := by
  obtain ⟨t, rand, wakee, rfl⟩ : ∃ t rand wakee, e = .thread t rand wakee := by
    cases e with
    | thread t rand wakee => exact ⟨t, rand, wakee, rfl⟩
    | allocate | liberate | handOver => exact hs.elim
  obtain ⟨i, hpc, hfree, ⟨u, hu⟩, hothers⟩ := hs
  obtain ⟨-, rfl⟩ := connectStep_thread h
  have hut : u ≠ t := by
    rintro rfl
    simp [hpc, ConnectPc.asleep] at hu
  obtain ⟨pc, hpc', hav, hwake, hwoken⟩ : ∃ pc,
      (connectThreadStep t rand wakee s).pc = update s.pc t pc ∧
        (connectThreadStep t rand wakee s).availability = s.availability &&& ~~~optionBit i ∧
          pc ≠ .liberateWake ∧ pc.woken = false := by
    simp only [connectThreadStep, hpc]
    split
    · exact ⟨_, rfl, rfl, by simp, by simp⟩
    · exact ⟨_, rfl, rfl, by simp, rfl⟩
  intro hquiet
  obtain ⟨v, hv⟩ := hquiet (hav ▸ hfree) ⟨u, by rwa [hpc', update_of_ne hut]⟩
  rcases eq_or_ne v t with rfl | hvt
  · simp [hpc', hwake, hwoken] at hv
  · rw [hpc', update_of_ne hvt] at hv
    simp [hothers v hvt] at hv

/-- Over every run: no thread is ever stranded exactly when no woken thread claims its option while
another one is free, a thread sleeps, and nobody else is there to wake it. -/
theorem no_sleeper_stranded_iff {es : List (ConnectEvent Tid)} :
    connectOptions.Along (fun _ _ s' => NoSleeperStranded s') (ConnectState.start Tid) es ↔
      connectOptions.Along (fun s e _ => ¬ StrandsSleeper s e) (ConnectState.start Tid) es := by
  constructor
  · exact Machine.along_of_invariant (I := fun _ => True) (fun _ _ _ _ _ _ => trivial)
      (fun _ _ _ _ hquiet hstep hstrands => hstrands.stranded hstep hquiet) trivial
  · exact Machine.along_of_invariant (I := NoSleeperStranded)
      NoSleeperStranded.step NoSleeperStranded.step
      (fun _ h => by simp [ConnectState.start, ConnectPc.asleep] at h)

/-! ## Releases one after the other, and two in a row -/

/-- Thread `t` allocates option `i`, which its first guess finds. -/
def allocateFirstGuess (t : Fin 3) (i : ℕ) : List (ConnectEvent (Fin 3)) :=
  [.allocate t, .thread t i none, .thread t 0 none]

/-- Thread 2 takes all options, threads 0 and 1 fall asleep. -/
def twoSleepers : List (ConnectEvent (Fin 3)) :=
  ((List.range numConnectOptions).reverse.flatMap (allocateFirstGuess 2)) ++
    [.allocate 0, .thread 0 0 none, .thread 0 0 none,
      .allocate 1, .thread 1 0 none, .thread 1 0 none]

/-- Thread 2 liberates option 0 and wakes thread 0. -/
def firstRelease : List (ConnectEvent (Fin 3)) :=
  [.liberate 2 0, .thread 2 0 none, .thread 2 0 (some 0)]

/-- Option 0 goes to thread 0, which liberates it again, wakes thread 1, and thread 1 claims it. -/
def releasesInTurn : List (ConnectEvent (Fin 3)) :=
  twoSleepers ++ firstRelease ++
    [.thread 0 0 none, .thread 0 0 none,
      .liberate 0 0, .thread 0 0 none, .thread 0 0 (some 1),
      .thread 1 0 none, .thread 1 0 none]

theorem no_sleeper_stranded_iff_releasesInTurn :
    (connectOptions.run (ConnectState.start (Fin 3)) (twoSleepers ++ firstRelease)).map
        (fun s => (s.availability, s.pc 0, s.pc 1)) =
          some (1, .allocateReload true, .allocateBlocked) ∧
      (connectOptions.run (ConnectState.start (Fin 3)) releasesInTurn).map
        (fun s => (s.availability, s.holders 0, s.pc 0, s.pc 1)) = some (0, [1], .idle, .idle) ∧
      connectOptions.Along (fun _ _ s' => NoSleeperStranded s') (ConnectState.start (Fin 3))
        releasesInTurn :=
  ⟨by decide +kernel, by decide +kernel, no_sleeper_stranded_iff.mpr (by decide +kernel)⟩

/-- Thread 2 liberates option 1 before thread 0 claims option 0. -/
def twoReleases : List (ConnectEvent (Fin 3)) :=
  twoSleepers ++ firstRelease ++
    [.liberate 2 1, .thread 2 0 none,
      .thread 0 0 none, .thread 0 0 none]

/-- Option 1 is free and thread 1 sleeps on. -/
theorem twoReleases_strands :
    ∃ s, connectOptions.run (ConnectState.start (Fin 3)) twoReleases = some s ∧
      s.holders 0 = [0] ∧ ¬ NoSleeperStranded s := by
  have hend : (connectOptions.run (ConnectState.start (Fin 3)) twoReleases).map
      (fun s => (s.availability, s.holders 0, s.pc 0, s.pc 1, s.pc 2)) =
        some (2, [0], .idle, .allocateBlocked, .idle) := by decide +kernel
  obtain ⟨s, hrun, hs⟩ := Option.map_eq_some_iff.mp hend
  simp only [Prod.mk.injEq] at hs
  obtain ⟨hav, hholders, h0, h1, h2⟩ := hs
  refine ⟨s, hrun, hholders, fun hquiet => ?_⟩
  obtain ⟨u, hu⟩ := hquiet (by rw [hav]; decide) ⟨1, by simp [h1, ConnectPc.asleep]⟩
  match u with
  | 0 => simp [h0, ConnectPc.woken] at hu
  | 1 => simp [h1, ConnectPc.woken] at hu
  | 2 => simp [h2, ConnectPc.woken] at hu

end Udipe

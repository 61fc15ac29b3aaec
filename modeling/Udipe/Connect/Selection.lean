import Udipe.Connect.Exclusivity

/-!
# Which option an allocation picks

Skipping the first `available_idx` set bits of the mask leads to the bit after the last one skipped. That
bit is the wanted one only if no zero comes between.
-/

namespace Udipe

open Function

variable {availability : BitVec numConnectOptions} {rand : ℕ}

/-- The loop ends right after as many set bits as it has rounds. -/
theorem skipAvailable_spec {k : ℕ} (optionIdx : ℕ)
    (hk : k ≤ Nat.count (SetBit availability) numConnectOptions) :
    ∃ d, skipAvailable k optionIdx availability = optionIdx + d ∧
      Nat.count (SetBit availability) d = k ∧
      (k = 0 ∧ d = 0 ∨ ∃ i, d = i + 1 ∧ SetBit availability i) := by
  induction k generalizing optionIdx availability with
  | zero => exact ⟨0, rfl, Nat.count_zero _, .inl ⟨rfl, rfl⟩⟩
  | succ k ih =>
      have hne : availability ≠ 0 := by
        rintro rfl
        have hzero : Nat.count (SetBit (0 : BitVec numConnectOptions)) numConnectOptions = 0 :=
          Nat.count_iff_forall_not.mpr fun i _ => by simp
        omega
      set offset := countTrailingZeros availability + 1 with hoffset
      -- the set bits of the rest are those beyond the first one
      have hone : Nat.count (SetBit availability) offset = 1 := count_countTrailingZeros hne
      have hadd : ∀ d, Nat.count (SetBit availability) (offset + d)
          = 1 + Nat.count (SetBit (availability >>> offset)) d := by
        intro d
        rw [Nat.count_add, hone]
        simp only [Nat.count_eq_card_filter_range, setBit_ushiftRight]
      have hrest : k ≤ Nat.count (SetBit (availability >>> offset)) numConnectOptions := by
        have hmono := Nat.count_monotone (SetBit availability) (Nat.le_add_left numConnectOptions offset)
        rw [hadd] at hmono
        omega
      obtain ⟨d, hskip, hcount, hlast⟩ := ih (optionIdx + offset) hrest
      refine ⟨offset + d, ?_, ?_, .inr ?_⟩
      · rw [skipAvailable, ← hoffset, hskip, add_assoc]
      · rw [hadd, hcount, add_comm]
      · rcases hlast with ⟨rfl, rfl⟩ | ⟨i, rfl, hset⟩
        · exact ⟨_, rfl, (countTrailingZeros_spec hne).1⟩
        · exact ⟨offset + i, rfl, setBit_ushiftRight.mp hset⟩

/-- `available_idx`. -/
def availableIdx (availability : BitVec numConnectOptions) (rand : ℕ) : ℕ :=
  rand % populationCount availability

theorem availableIdx_lt (h : availability ≠ 0) :
    availableIdx availability rand < populationCount availability := by
  refine Nat.mod_lt _ (Nat.pos_of_ne_zero fun hzero => h ?_)
  rw [populationCount_eq_count, Nat.count_iff_forall_not] at hzero
  exact BitVec.eq_of_getLsbD_eq fun i hi => by simpa using hzero i hi

/-- Set bit number `k` comes right after the one before it, or is bit 0. -/
def FollowsPrevious (availability : BitVec numConnectOptions) : ℕ → Prop
  | 0 => SetBit availability 0
  | k + 1 => SetBit availability (Nat.nth (SetBit availability) k + 1)

/-- The loop stops at a set bit exactly when the wanted bit follows the previous one, and that is the wanted
bit then. -/
theorem pickOption_spec (h : availability ≠ 0) :
    (pickOption availability rand = Nat.nth (SetBit availability) (availableIdx availability rand) ↔
      FollowsPrevious availability (availableIdx availability rand)) ∧
    (SetBit availability (pickOption availability rand) ↔
      FollowsPrevious availability (availableIdx availability rand)) := by
  have hlt : availableIdx availability rand < populationCount availability := availableIdx_lt h
  obtain ⟨d, hskip, hcount, hlast⟩ := skipAvailable_spec 0
    ((populationCount_eq_count availability) ▸ hlt.le)
  have hpick : pickOption availability rand = d := hskip.trans (Nat.zero_add d)
  have hfollows : FollowsPrevious availability (availableIdx availability rand) ↔ SetBit availability d := by
    rcases hlast with ⟨hk, rfl⟩ | ⟨i, rfl, hset⟩
    · rw [hk]
      rfl
    · rw [Nat.count_succ, if_pos hset] at hcount
      rw [← hcount, FollowsPrevious, Nat.nth_count hset]
  rw [hpick, hfollows]
  refine ⟨⟨fun hnth => hnth ▸ setBit_nth hlt, fun hset => ?_⟩, .rfl⟩
  rw [← hcount, Nat.nth_count hset]

/-! ## One round of an allocation -/

section

variable {Tid : Type} [Fintype Tid] {s : ConnectState Tid} {t : Tid}

theorem wakeAllowed_of_ne_liberateWake {wakee : Option Tid} (h : s.pc t ≠ .liberateWake) :
    s.wakeAllowed t wakee = true := by
  unfold ConnectState.wakeAllowed
  split
  · exact absurd ‹_› h
  · exact absurd ‹_› h
  · rfl

variable [DecidableEq Tid]

/-- Thread `t` loads the mask, claims a bit of it before any other thread steps, and returns. -/
def ReturnsAfterOneRound (s : ConnectState Tid) (t : Tid) (rand : ℕ) : Prop :=
  ∃ s', connectOptions.run s [.thread t rand none, .thread t rand none] = some s' ∧ s'.pc t = .idle

theorem examineAvailability_of_ne_zero {woken : Bool} (h : availability ≠ 0) :
    examineAvailability availability rand woken
      = .allocateClaim (pickOption availability rand) woken :=
  if_neg h

theorem connectStep_of_ne_liberateWake (hidle : s.pc t ≠ .idle) (hwake : s.pc t ≠ .liberateWake)
    (haborted : s.aborted = false) :
    connectOptions.step s (.thread t rand none) = some (connectThreadStep t rand none s) := by
  simp [connectOptions, connectStep, haborted, hidle, wakeAllowed_of_ne_liberateWake hwake]

/-- The round returns exactly when the bit picked is a set bit of the mask. -/
theorem returnsAfterOneRound_iff (hpc : s.pc t = .allocateLoad) (haborted : s.aborted = false)
    (h : s.availability ≠ 0) :
    ReturnsAfterOneRound s t rand ↔ SetBit s.availability (pickOption s.availability rand) := by
  set optionIdx := pickOption s.availability rand with hidx
  set claiming : ConnectState Tid :=
    { s with pc := update s.pc t (.allocateClaim optionIdx false) } with hclaiming
  have hload : connectOptions.step s (.thread t rand none) = some claiming := by
    rw [connectStep_of_ne_liberateWake (by simp [hpc]) (by simp [hpc]) haborted]
    simp only [connectThreadStep, hpc, examineAvailability_of_ne_zero h, hclaiming, hidx]
  have hclaim : connectOptions.step claiming (.thread t rand none)
      = some (connectThreadStep t rand none claiming) :=
    connectStep_of_ne_liberateWake (by simp [hclaiming]) (by simp [hclaiming]) haborted
  have hrun : connectOptions.run s [.thread t rand none, .thread t rand none]
      = some (connectThreadStep t rand none claiming) := by
    rw [Machine.run_cons, hload, Option.bind_some, Machine.run_cons, hclaim, Option.bind_some,
      Machine.run_nil]
  have hpc' : claiming.pc t = .allocateClaim optionIdx false := update_self ..
  have hzero := and_optionBit_eq_zero s.availability optionIdx
  simp only [ReturnsAfterOneRound, hrun, Option.some.injEq, exists_eq_left', connectThreadStep, hpc']
  split
  · -- the bit was not there to claim: the thread examines the mask anew
    have hclear : ¬ SetBit s.availability optionIdx := by simp [hzero.mp ‹_›]
    simp only [update_self, hclear, iff_false]
    rw [examineAvailability_of_ne_zero (show claiming.availability ≠ 0 from h)]
    simp
  · have hset : SetBit s.availability optionIdx := by
      by_contra hclear
      exact ‹¬ _› (hzero.mpr (by simpa using hclear))
    exact iff_of_true (update_self ..) hset

/-- Without interference and on a nonzero mask, an allocation picks set bit number `available_idx`, and
returns after one round, exactly when that bit follows the previous set bit. -/
theorem selects_available_iff (hpc : s.pc t = .allocateLoad) (haborted : s.aborted = false)
    (h : s.availability ≠ 0) :
    (pickOption s.availability rand
          = Nat.nth (SetBit s.availability) (availableIdx s.availability rand) ∧
        ReturnsAfterOneRound s t rand) ↔
      FollowsPrevious s.availability (availableIdx s.availability rand) := by
  obtain ⟨hnth, hset⟩ : (pickOption s.availability rand
      = Nat.nth (SetBit s.availability) (availableIdx s.availability rand) ↔ _) ∧ _ :=
    pickOption_spec h
  rw [returnsAfterOneRound_iff hpc haborted h, hnth, hset, and_self]

end

/-- A thread is about to load the mask. -/
def loadingMask (availability : BitVec numConnectOptions) : ConnectState (Fin 1) where
  availability := availability
  holders := fun _ => []
  pc := fun _ => .allocateLoad
  aborted := false

/-- Options 1 and 2 are free, and the thread wants the second one. -/
theorem selects_available_iff_adjacent :
    pickOption 6 1 = Nat.nth (SetBit (6 : BitVec numConnectOptions)) 1 ∧
      ReturnsAfterOneRound (loadingMask 6) 0 1 := by
  have hfollows : FollowsPrevious (6 : BitVec numConnectOptions) 1 := by
    have hfirst : Nat.nth (SetBit (6 : BitVec numConnectOptions)) 0 = 1 :=
      Nat.nth_count (p := SetBit (6 : BitVec numConnectOptions)) (n := 1) (by decide)
    rw [FollowsPrevious, hfirst]
    decide
  exact (selects_available_iff (s := loadingMask 6) (t := 0) rfl rfl (by decide)).mpr hfollows

/-- Option 1 alone is free: the thread tries option 0 and does not return. -/
theorem loneOption_missed :
    pickOption 2 0 ≠ Nat.nth (SetBit (2 : BitVec numConnectOptions))
        (availableIdx (2 : BitVec numConnectOptions) 0) ∧
      ¬ ReturnsAfterOneRound (loadingMask 2) 0 0 := by
  have hidx : availableIdx (2 : BitVec numConnectOptions) 0 = 0 := by decide
  have hfirst : Nat.nth (SetBit (2 : BitVec numConnectOptions)) 0 = 1 :=
    Nat.nth_count (p := SetBit (2 : BitVec numConnectOptions)) (n := 1) (by decide)
  have hpick : pickOption 2 0 = 0 := by decide
  rw [returnsAfterOneRound_iff rfl rfl (by decide)]
  change pickOption 2 0 ≠ _ ∧ ¬ SetBit 2 (pickOption 2 0)
  rw [hidx, hfirst, hpick]
  decide

end Udipe

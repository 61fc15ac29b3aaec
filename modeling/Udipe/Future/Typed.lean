import Udipe.Future.Moves

/-!
# Words that are consistent for their type

`FutureStatus.Typed ty` collects the checks of `future_status_debug_check` that say nothing about
`downstream_count`: they relate type, state, outcome and flags. Every word that is stored keeps them;
what remains of the full check is about the count and `available`.
-/

namespace Udipe

/-- The types whose futures can be started and waited for. -/
def FutureType.implemented : FutureType → Bool
  | .custom | .join | .timerOnce => true
  | _ => false

/-- `status` is consistent as an allocated future of type `ty`, its count aside. -/
structure FutureStatus.Typed (ty : FutureType) (s : FutureStatus) : Prop where
  type : s.type = ty
  state : s.stateCheck true = true
  outcome : s.outcomeCheck = true
  flags : s.flagCheck true = true
  reserved : s.reserved = 0

namespace FutureStatus.Typed

variable {ty : FutureType} {s s' : FutureStatus} {p : DownstreamCountPolicy}

/-- The count, its overflow flag, `available` and `notify_address` do not matter. -/
theorem congr (h : s.Typed ty) (htype : s'.type = s.type) (hstate : s'.state = s.state)
    (houtcome : s'.outcome = s.outcome)
    (hflag : s'.notifyEventOrLazyLock = s.notifyEventOrLazyLock)
    (hreserved : s'.reserved = s.reserved) : s'.Typed ty where
  type := htype.trans h.type
  state := by simpa only [stateCheck, hstate, htype] using h.state
  outcome := by simpa only [outcomeCheck, houtcome, hstate, htype] using h.outcome
  flags := by
    simpa only [flagCheck, couldBeLocked, hstate, htype, hflag, if_true] using h.flags
  reserved := hreserved.trans h.reserved

theorem dec (h : s.Typed ty) : (s.dec p).Typed ty := h.congr rfl rfl rfl rfl rfl

theorem registered (h : s.Typed ty) : (s.registered p).Typed ty := h.congr rfl rfl rfl rfl rfl

theorem unavailable (h : s.Typed ty) : s.unavailable.Typed ty := h.congr rfl rfl rfl rfl rfl

theorem fetchAdd (h : s.Typed ty) (ho : s.downstreamCountOverflow = false) :
    s.fetchAdd.Typed ty := by
  by_cases hmax : s.downstreamCount = maxDownstreamCount
  · rw [fetchAdd_of_max ho hmax]
    exact h.congr rfl rfl rfl rfl rfl
  · rw [fetchAdd_of_ne hmax]
    exact h.congr rfl rfl rfl rfl rfl

/-- An unresolved join is waiting. -/
theorem state_join (h : s.Typed .join) (hs : s.state ≠ .result) : s.state = .waiting := by
  have hstate := h.state
  cases hst : s.state <;>
    simp_all [stateCheck, h.type, FutureType.hasProcessing, FutureType.usesWorkerThread]

/-- The outcome is unknown exactly before the result is known or canceled. -/
theorem outcome_unknown_iff (h : s.Typed ty) :
    s.outcome = .unknown ↔ s.state.hasOutcome = false := by
  have houtcome := h.outcome
  cases ho : s.outcome <;> simp_all [outcomeCheck, FutureState.hasOutcome]

theorem locked (h : s.Typed .join) : (s.locked p).Typed .join where
  type := h.type
  state := h.state
  outcome := h.outcome
  flags := by
    have hstate := h.state
    cases hst : s.state <;>
      simp_all [stateCheck, flagCheck, couldBeLocked, h.type, FutureType.usesLazyLock,
        FutureStatus.locked, FutureStatus.inc, FutureType.usesWorkerThread]
  reserved := h.reserved

/-- Publishing an outcome and releasing `lazy_lock`. -/
theorem released (h : s.Typed .join) {outcome : FutureOutcome}
    (hk : outcome = .unknown ∨ outcome = .success ∨ outcome = .failureDependency ∨
      outcome = .failureCanceled) :
    (s.released p outcome).Typed .join where
  type := h.type
  state := by
    have hstate := h.state
    by_cases hu : outcome = .unknown <;> simp_all [stateCheck, FutureStatus.released,
      FutureStatus.dec]
  outcome := by
    have houtcome := h.outcome
    rcases hk with rfl | rfl | rfl | rfl <;>
      simp_all [outcomeCheck, FutureStatus.released, FutureStatus.dec, FutureState.hasOutcome,
        h.type, FutureType.hasDependencies]
  flags := by simp [flagCheck, FutureStatus.released, FutureStatus.dec, h.type,
    FutureType.usesLazyLock]
  reserved := h.reserved

/-- Publishing the readiness of a timer. -/
theorem published (h : s.Typed .timerOnce) : (s.published p).Typed .timerOnce where
  type := h.type
  state := by simp [stateCheck, FutureStatus.published]
  outcome := by
    have houtcome := h.outcome
    cases ho : s.outcome <;> simp_all [outcomeCheck, FutureStatus.published, FutureStatus.dec,
      FutureState.hasOutcome]
  flags := by
    have hflags := h.flags
    simp_all [flagCheck, FutureStatus.published, FutureStatus.dec, h.type,
      FutureType.usesLazyLock]
  reserved := h.reserved

theorem canceledAs (h : s.Typed ty) (himpl : ty.implemented = true) :
    (s.canceledAs ty).Typed ty where
  type := h.type
  state := by
    cases hw : ty.usesWorkerThread <;> simp [stateCheck, FutureStatus.canceledAs, hw, h.type]
  outcome := by
    cases hw : ty.usesWorkerThread <;>
      simp [outcomeCheck, FutureStatus.canceledAs, hw, FutureState.hasOutcome]
  flags := by
    have hflags := h.flags
    cases ty <;> simp_all [FutureType.implemented, flagCheck, couldBeLocked,
      FutureStatus.canceledAs, h.type, FutureType.usesLazyLock, FutureType.usesWorkerThread]
  reserved := h.reserved

theorem succeeded (h : s.Typed .custom) : s.succeeded.Typed .custom where
  type := h.type
  state := by simp [stateCheck, FutureStatus.succeeded]
  outcome := by simp [outcomeCheck, FutureStatus.succeeded, FutureState.hasOutcome]
  flags := by simp [flagCheck, FutureStatus.succeeded, h.type, FutureType.usesLazyLock,
    FutureType.usesWorkerThread]
  reserved := h.reserved

theorem acknowledged (h : s.Typed .custom) (hs : s.state = .canceling) :
    s.acknowledged.Typed .custom where
  type := h.type
  state := by simp [stateCheck, FutureStatus.acknowledged]
  outcome := by
    have houtcome := h.outcome
    cases ho : s.outcome <;>
      simp_all [outcomeCheck, FutureStatus.acknowledged, FutureState.hasOutcome]
  flags := by simp [flagCheck, FutureStatus.acknowledged, h.type, FutureType.usesLazyLock,
    FutureType.usesWorkerThread]
  reserved := h.reserved

/-- What the full check adds for an implemented type. -/
theorem debugCheck_iff (h : s.Typed ty) (himpl : ty.implemented = true) :
    s.debugCheck true = true ↔ s.downstreamCountOverflow = false ∧
      (s.downstreamCount = 0 ∨ s.available = true) := by
  have hbound : s.downstreamCount.toNat ≤ maxDownstreamCount.toNat := by
    have := s.downstreamCount.isLt
    simp only [maxDownstreamCount, BitVec.toNat_allOnes]
    omega
  have hknown : s.type.known = true ∧ s.type ≠ .invalid := by
    rw [h.type]
    cases ty <;> simp_all [FutureType.implemented, FutureType.known]
  simp [debugCheck, h.state, h.outcome, h.flags, h.reserved, hbound, hknown.1, hknown.2]

end FutureStatus.Typed

/-- A word that passes the full check is consistent for its type. -/
theorem FutureStatus.typed_of_debugCheck {s : FutureStatus} (h : s.debugCheck true = true) :
    s.Typed s.type := by
  simp only [debugCheck, Bool.and_eq_true, beq_iff_eq] at h
  obtain ⟨⟨⟨⟨⟨-, -⟩, hstate⟩, houtcome⟩, hflags⟩, hreserved⟩ := h
  exact ⟨rfl, hstate, houtcome, hflags, hreserved⟩

end Udipe

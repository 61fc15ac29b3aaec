import Mathlib.Data.BitVec
import Mathlib.Tactic.DeriveFintype

/-!
# State, outcome and type of a future

Reference: `future/state.h`, `future/outcome.h`, `future/type.h`.

The three enumerations live in bit fields of the status word, so each comes with its code. Codes that
name no enumerator are kept as `outOfRange`: a bit field can hold them, and every `switch` of the
source sends them to its `default` branch.
-/

namespace Udipe

/-- `future_state_t`, a 3-bit field. -/
inductive FutureState where
  | uninitialized
  | waiting
  | processing
  | canceling
  | result
  | numStates
  | outOfRange (code : Fin 2)
deriving DecidableEq, Repr

/-- `future_outcome_t`, a 3-bit field. -/
inductive FutureOutcome where
  | unknown
  | success
  | failureDependency
  | failureInternal
  | failureCanceled
  | numOutcomes
  | outOfRange (code : Fin 2)
deriving DecidableEq, Repr

/-- `future_type_t`, a 4-bit field. `TYPE_NETWORK_START` and `TYPE_NETWORK_END` alias
`networkConnect` and `custom`. -/
inductive FutureType where
  | invalid
  | networkConnect
  | networkDisconnect
  | networkSend
  | networkRecv
  | custom
  | join
  | unordered
  | timerOnce
  | timerRepeat
  | numTypes
  | outOfRange (code : Fin 5)
deriving DecidableEq, Repr

namespace FutureState

def code : FutureState → BitVec 3
  | uninitialized => 0
  | waiting => 1
  | processing => 2
  | canceling => 3
  | result => 4
  | numStates => 5
  | outOfRange c => BitVec.ofNat 3 (6 + c)

def ofCode (c : BitVec 3) : FutureState :=
  match c.toNat with
  | 0 => uninitialized
  | 1 => waiting
  | 2 => processing
  | 3 => canceling
  | 4 => result
  | 5 => numStates
  | 6 => outOfRange 0
  | _ => outOfRange 1

@[simp] theorem ofCode_code (s : FutureState) : ofCode s.code = s := by
  cases s with
  | outOfRange c => revert c; decide
  | _ => rfl

@[simp] theorem code_ofCode : ∀ c : BitVec 3, (ofCode c).code = c := by decide

/-- `has_outcome` in `future_status_debug_check`. -/
def hasOutcome : FutureState → Bool
  | canceling | result => true
  | _ => false

end FutureState

namespace FutureOutcome

def code : FutureOutcome → BitVec 3
  | unknown => 0
  | success => 1
  | failureDependency => 2
  | failureInternal => 3
  | failureCanceled => 4
  | numOutcomes => 5
  | outOfRange c => BitVec.ofNat 3 (6 + c)

def ofCode (c : BitVec 3) : FutureOutcome :=
  match c.toNat with
  | 0 => unknown
  | 1 => success
  | 2 => failureDependency
  | 3 => failureInternal
  | 4 => failureCanceled
  | 5 => numOutcomes
  | 6 => outOfRange 0
  | _ => outOfRange 1

@[simp] theorem ofCode_code (o : FutureOutcome) : ofCode o.code = o := by
  cases o with
  | outOfRange c => revert c; decide
  | _ => rfl

@[simp] theorem code_ofCode : ∀ c : BitVec 3, (ofCode c).code = c := by decide

end FutureOutcome

namespace FutureType

def code : FutureType → BitVec 4
  | invalid => 0
  | networkConnect => 1
  | networkDisconnect => 2
  | networkSend => 3
  | networkRecv => 4
  | custom => 5
  | join => 6
  | unordered => 7
  | timerOnce => 8
  | timerRepeat => 9
  | numTypes => 10
  | outOfRange c => BitVec.ofNat 4 (11 + c)

def ofCode (c : BitVec 4) : FutureType :=
  match c.toNat with
  | 0 => invalid
  | 1 => networkConnect
  | 2 => networkDisconnect
  | 3 => networkSend
  | 4 => networkRecv
  | 5 => custom
  | 6 => join
  | 7 => unordered
  | 8 => timerOnce
  | 9 => timerRepeat
  | 10 => numTypes
  | 11 => outOfRange 0
  | 12 => outOfRange 1
  | 13 => outOfRange 2
  | 14 => outOfRange 3
  | _ => outOfRange 4

@[simp] theorem ofCode_code (ty : FutureType) : ofCode ty.code = ty := by
  cases ty with
  | outOfRange c => revert c; decide
  | _ => rfl

@[simp] theorem code_ofCode : ∀ c : BitVec 4, (ofCode c).code = c := by decide

/-- The switches of `type.h` end with `exit_with_error` outside these types. -/
def known : FutureType → Bool
  | numTypes | outOfRange _ => false
  | _ => true

/-- `future_type_has_dependencies`. -/
def hasDependencies : FutureType → Bool
  | networkConnect | networkDisconnect | networkSend | networkRecv | join | unordered => true
  | _ => false

/-- `future_type_has_processing`. -/
def hasProcessing : FutureType → Bool
  | networkConnect | networkDisconnect | networkSend | networkRecv => true
  | custom | timerOnce | timerRepeat => true
  | _ => false

/-- `future_type_uses_lazy_lock`. -/
def usesLazyLock : FutureType → Bool
  | join | unordered | timerRepeat => true
  | _ => false

/-- `future_type_uses_worker_thread`. -/
def usesWorkerThread : FutureType → Bool
  | networkConnect | networkDisconnect | networkSend | networkRecv | custom => true
  | _ => false

end FutureType

end Udipe

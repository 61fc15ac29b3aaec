import Udipe.Lib.Machine
import Udipe.Lib.Threads
import Udipe.Memory.Bits

/-!
# Allocation of connect options

Reference: `connect.h`, `connect.c`, `bits.h`, `address_wait.c`.

The availability mask has one bit for each of the 32 options. A thread that allocates picks a random
bit from its last view of the mask and claims it with `fetch_and`; when the view is zero it sleeps on
the mask. A thread that liberates sets its bit with `fetch_or` and wakes one sleeper if the mask was
zero.

Each step of a thread is one access to the mask, or one call of the kernel.
-/

namespace Udipe

open Function

/-- `NUM_CONNECT_OPTIONS`. -/
abbrev numConnectOptions : ℕ := 32

/-! ## Picking a bit -/

/-- The loop that skips set bits: the position reached and the shifted mask. -/
def skipAvailable : ℕ → ℕ → BitVec numConnectOptions → ℕ
  | 0, optionIdx, _ => optionIdx
  | i + 1, optionIdx, availability =>
      let extraOffset := countTrailingZeros availability + 1
      skipAvailable i (optionIdx + extraOffset) (availability >>> extraOffset)

/-- The option that a thread tries to allocate, given what `rand()` returned. -/
def pickOption (availability : BitVec numConnectOptions) (rand : ℕ) : ℕ :=
  skipAvailable (rand % populationCount availability) 0 availability

/-- `1 << option_idx`. -/
def optionBit (optionIdx : ℕ) : BitVec numConnectOptions :=
  BitVec.ofNat numConnectOptions 1 <<< optionIdx

/-! ## The threads -/

/-- Where a thread is. `woken` holds from the end of a sleep by a wake call until the thread has found
the mask zero or tried to claim a bit of it. -/
inductive ConnectPc where
  | idle
  | allocateLoad
  | allocateWait
  | allocateBlocked
  | allocateReload (woken : Bool)
  | allocateClaim (optionIdx : ℕ) (woken : Bool)
  | liberateRelease (optionIdx : ℕ)
  | liberateWake
deriving DecidableEq, Repr

/-- The allocator and its users. `holders` is history: the callers that hold each option. -/
structure ConnectState (Tid : Type) where
  availability : BitVec numConnectOptions
  holders : ℕ → List Tid
  pc : Tid → ConnectPc
  aborted : Bool

/-- One step of one thread. `rand` is what `rand()` returns and `wakee` the thread that a wake call
wakes. -/
inductive ConnectEvent (Tid : Type) where
  | allocate (t : Tid)
  | liberate (t : Tid) (optionIdx : ℕ)
  | handOver (t u : Tid) (optionIdx : ℕ)
  | thread (t : Tid) (rand : ℕ) (wakee : Option Tid)
deriving DecidableEq

/-- What a thread does with its view of the mask: the test of the inner loop and the choice of a bit. -/
def examineAvailability (availability : BitVec numConnectOptions) (rand : ℕ) (woken : Bool) :
    ConnectPc :=
  if availability = 0 then .allocateWait else .allocateClaim (pickOption availability rand) woken

/-- The thread sleeps on the mask. -/
def ConnectPc.asleep : ConnectPc → Bool
  | .allocateBlocked => true
  | _ => false

/-- The thread has been woken and has not yet examined the mask. -/
def ConnectPc.woken : ConnectPc → Bool
  | .allocateReload woken | .allocateClaim _ woken => woken
  | _ => false

section

variable {Tid : Type} [DecidableEq Tid]

/-- One step of thread `t` in its call. A sleep may end by itself. -/
def connectThreadStep (t : Tid) (rand : ℕ) (wakee : Option Tid) (s : ConnectState Tid) :
    ConnectState Tid :=
  match s.pc t with
  | .idle => s
  | .allocateLoad =>
      { s with pc := update s.pc t (examineAvailability s.availability rand false) }
  | .allocateWait =>
      let pc := if s.availability = 0 then .allocateBlocked else .allocateReload false
      { s with pc := update s.pc t pc }
  | .allocateBlocked => { s with pc := update s.pc t (.allocateReload false) }
  | .allocateReload woken =>
      { s with pc := update s.pc t (examineAvailability s.availability rand woken) }
  | .allocateClaim optionIdx _ =>
      let bit := optionBit optionIdx
      let availability := s.availability &&& ~~~bit
      if s.availability &&& bit = 0 then
        { s with
          availability := availability
          pc := update s.pc t (examineAvailability s.availability rand false) }
      else
        { s with
          availability := availability
          holders := update s.holders optionIdx (t :: s.holders optionIdx)
          pc := update s.pc t .idle }
  | .liberateRelease optionIdx =>
      let bit := optionBit optionIdx
      if s.availability &&& bit = 0 then
        { s with
          availability := s.availability ||| bit
          holders := update s.holders optionIdx ((s.holders optionIdx).erase t)
          pc := update s.pc t (if s.availability = 0 then .liberateWake else .idle) }
      else { s with aborted := true }
  | .liberateWake =>
      let pc := update s.pc t .idle
      match wakee with
      | some u => { s with pc := update pc u (.allocateReload true) }
      | none => { s with pc := pc }

variable [Fintype Tid]

/-- A single wake ends the sleep of a sleeping thread, if there is one. -/
def ConnectState.wakeAllowed (s : ConnectState Tid) (t : Tid) (wakee : Option Tid) : Bool :=
  match s.pc t, wakee with
  | .liberateWake, some u => (s.pc u).asleep
  | .liberateWake, none => decide (∀ u, (s.pc u).asleep = false)
  | _, _ => true

/-- One step of one thread; `none` when the event cannot happen. Only a holder liberates an option or
hands it over to another thread. -/
def connectStep (s : ConnectState Tid) (e : ConnectEvent Tid) : Option (ConnectState Tid) :=
  if s.aborted then none else
  match e with
  | .allocate t =>
      if s.pc t = .idle then some { s with pc := update s.pc t .allocateLoad } else none
  | .liberate t optionIdx =>
      if s.pc t = .idle ∧ t ∈ s.holders optionIdx then
        some { s with pc := update s.pc t (.liberateRelease optionIdx) }
      else none
  | .handOver t u optionIdx =>
      if s.pc t = .idle ∧ t ∈ s.holders optionIdx then
        some { s with
          holders := update s.holders optionIdx (u :: (s.holders optionIdx).erase t) }
      else none
  | .thread t rand wakee =>
      if s.pc t ≠ .idle ∧ s.wakeAllowed t wakee = true then
        some (connectThreadStep t rand wakee s)
      else none

/-- The machine of one connect options allocator. -/
def connectOptions : Machine (ConnectState Tid) (ConnectEvent Tid) where
  step := connectStep

end

/-- `connect_options_allocator_initialize`: all options are available. -/
def ConnectState.start (Tid : Type) : ConnectState Tid where
  availability := BitVec.allOnes numConnectOptions
  holders := fun _ => []
  pc := fun _ => .idle
  aborted := false

end Udipe

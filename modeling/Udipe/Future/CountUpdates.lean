import Udipe.Future.Count
import Udipe.Lib.Machine

/-!
# Counting downstreams on the packed word

Reference: `future/status_ops.h`, `future/status.h`.

The status word is a 32-bit integer here. `future_downstream_count_try_inc` and
`future_downstream_count_dec` add and subtract one on it as a whole, with the count in its low half;
everything else goes through a `compare_exchange` of the fields. Any number of threads do this at
once, one atomic operation at a time. What a transaction puts into the other fields, and which copies
of the word a caller passes, is up to the run.
-/

namespace Udipe

open Checked Function FutureStatus

/-! ## What follows an atomic operation -/

/-- How `future_downstream_count_try_inc` goes on after its addition. -/
inductive TryInc where
  /-- It returns true, with this `latest_status`. -/
  | counted (latest : FutureStatus)
  /-- The future has its result: the addition is to be reverted. -/
  | lost
deriving DecidableEq, Repr

/-- `future_downstream_count_try_inc` after a `fetch_add` that read `preOp`. -/
def afterFetchAdd (b : Build) (preOp : FutureStatus) : Except Failure TryInc := do
  preOp.check b
  ensure (!(preOp.downstreamCountOverflow || preOp.downstreamCount == maxDownstreamCount))
    .tooManyDownstreams
  if preOp.state = .result then
    pure .lost
  else
    let latest := { preOp with downstreamCount := preOp.downstreamCount + 1 }
    latest.check b
    pure (.counted latest)

/-- `future_downstream_count_try_inc` after the `fetch_sub` that reverts it. -/
def afterRevert (b : Build) (preOp : FutureStatus) : Except Failure FutureStatus := do
  let latest ← decremented b preOp
  assertion b.assertions (latest.state == .result) .revertedWithoutResult
  latest.check b
  pure latest

/-- What a transaction does to the count of the status it expects. -/
inductive CountChange where
  | keep
  | inc (policy : DownstreamCountPolicy)
  | dec (policy : DownstreamCountPolicy)
deriving DecidableEq, Repr

namespace CountChange

/-- The status with the count that the transaction stores. -/
def prepare (b : Build) (status : FutureStatus) : CountChange → Except Failure FutureStatus
  | keep => pure status
  | inc policy => prepareDownstreamCountInc b status policy
  | dec policy => prepareDownstreamCountDec b status policy

/-- How many downstreams it registers. -/
def added : CountChange → ℕ
  | inc policy => policy.weight
  | keep | dec _ => 0

/-- How many it removes. -/
def removed : CountChange → ℕ
  | dec policy => policy.weight
  | keep | inc _ => 0

end CountChange

/-- What a transaction leaves: the word, the answer, and the caller's `expected`. -/
structure Transaction where
  word : BitVec 32
  swapped : Bool
  expected : FutureStatus
deriving DecidableEq, Repr

/-- `future_status_compare_exchange_weak`; the strong one never fails spuriously. -/
def statusCompareExchange (b : Build) (spurious : Bool) (word : BitVec 32)
    (expected desired : FutureStatus) : Except Failure Transaction := do
  expected.check b
  desired.check b
  if word = expected.asWord ∧ spurious = false then
    pure { word := desired.asWord, swapped := true, expected := expected }
  else
    (ofWord word).check b
    pure { word := word, swapped := false, expected := ofWord word }

/-- A transaction that takes the count from `change` and the other fields from `edit`. -/
def transaction (b : Build) (change : CountChange) (expected edit : FutureStatus) (spurious : Bool)
    (word : BitVec 32) : Except Failure Transaction := do
  let counted ← change.prepare b expected
  statusCompareExchange b spurious word expected
    { edit with downstreamCount := counted.downstreamCount }

/-! ## The machine -/

/-- Where a thread is, or what its last call returned. -/
inductive CountPc where
  | idle
  /-- In `future_downstream_count_try_inc`, before the addition. -/
  | tryInc (latest : FutureStatus)
  /-- In the same function, before the subtraction that reverts it. -/
  | revert
  /-- In `future_downstream_count_dec`. -/
  | dec
  | tryIncReturned (incremented : Bool) (latest : FutureStatus)
  | decReturned (status : FutureStatus)
  | exchangeReturned (swapped : Bool) (expected : FutureStatus)
deriving DecidableEq, Repr

namespace CountPc

/-- In a counting call. -/
def calling : CountPc → ℕ
  | tryInc _ | revert | dec => 1
  | _ => 0

/-- Has a share in the count that is not among the registered downstreams: it was added and is to be
reverted, or it is about to be taken off. -/
def owing : CountPc → ℕ
  | revert | dec => 1
  | _ => 0

@[simp] theorem calling_tryInc (latest : FutureStatus) : (tryInc latest).calling = 1 := rfl

@[simp] theorem calling_revert : revert.calling = 1 := rfl

@[simp] theorem owing_tryInc (latest : FutureStatus) : (tryInc latest).owing = 0 := rfl

@[simp] theorem owing_revert : revert.owing = 1 := rfl

@[simp] theorem owing_dec : dec.owing = 1 := rfl

@[simp] theorem owing_tryIncReturned (incremented : Bool) (latest : FutureStatus) :
    (tryIncReturned incremented latest).owing = 0 := rfl

@[simp] theorem owing_decReturned (status : FutureStatus) : (decReturned status).owing = 0 := rfl

@[simp] theorem owing_exchangeReturned (swapped : Bool) (expected : FutureStatus) :
    (exchangeReturned swapped expected).owing = 0 := rfl

/-- What a thread owes, it owes in a call. -/
theorem owing_le_calling (pc : CountPc) : pc.owing ≤ pc.calling := by
  cases pc <;> simp [owing, calling]

theorem owing_of_calling {pc : CountPc} (h : pc.calling = 0) : pc.owing = 0 :=
  Nat.le_zero.mp (h ▸ pc.owing_le_calling)

end CountPc

/-- `registered` is history: the number of downstreams whose registration has returned and that have
not called `future_downstream_count_dec` since, nor been removed by a transaction. -/
structure CountState (Tid : Type) where
  word : BitVec 32
  pc : Tid → CountPc
  registered : ℕ
  /-- Why the process ended, if it did. -/
  stopped : Option Failure

/-- What happens next. -/
inductive CountEvent (Tid : Type) where
  | callTryInc (t : Tid) (latest : FutureStatus)
  | callDec (t : Tid)
  /-- The thread performs the atomic operation it is in front of. -/
  | advance (t : Tid)
  | exchange (t : Tid) (change : CountChange) (expected edit : FutureStatus) (spurious : Bool)

variable {Tid : Type}

namespace CountState

/-- Go on after checks that may end the process. -/
def resume {α : Type} (s : CountState Tid) (rest : Except Failure α) (next : α → CountState Tid) :
    CountState Tid :=
  match rest with
  | .ok a => next a
  | .error f => { s with stopped := some f }

variable [DecidableEq Tid]

/-- The thread is at `pc` next. -/
def goTo (s : CountState Tid) (t : Tid) (pc : CountPc) : CountState Tid :=
  { s with pc := update s.pc t pc }

/-- The addition of `future_downstream_count_try_inc`. -/
def tryIncStep (b : Build) (s : CountState Tid) (t : Tid) (latest : FutureStatus) :
    CountState Tid :=
  s.resume (latest.check b) fun _ =>
    { s with word := s.word + 1 }.resume (afterFetchAdd b (ofWord s.word)) fun
      | .counted latest =>
          { s with word := s.word + 1, registered := s.registered + 1 }.goTo t
            (.tryIncReturned true latest)
      | .lost => { s with word := s.word + 1 }.goTo t .revert

/-- The call of `future_downstream_count_dec` that reverts it. -/
def revertStep (b : Build) (s : CountState Tid) (t : Tid) : CountState Tid :=
  { s with word := s.word - 1 }.resume (afterRevert b (ofWord s.word)) fun latest =>
    { s with word := s.word - 1 }.goTo t (.tryIncReturned false latest)

/-- `future_downstream_count_dec`. -/
def decStep (b : Build) (s : CountState Tid) (t : Tid) : CountState Tid :=
  { s with word := s.word - 1 }.resume (decremented b (ofWord s.word)) fun status =>
    { s with word := s.word - 1 }.goTo t (.decReturned status)

/-- A transaction. -/
def exchangeStep (b : Build) (s : CountState Tid) (t : Tid) (change : CountChange)
    (expected edit : FutureStatus) (spurious : Bool) : CountState Tid :=
  s.resume (transaction b change expected edit spurious s.word) fun r =>
    { s with
      word := r.word
      registered := if r.swapped then s.registered + change.added - change.removed else s.registered
    }.goTo t (.exchangeReturned r.swapped r.expected)

/-- A thread that is in no counting call may start one. Who calls `future_downstream_count_dec`, or
removes a downstream in a transaction, does so for one that is registered. -/
def step (b : Build) (s : CountState Tid) : CountEvent Tid → Option (CountState Tid)
  | .callTryInc t latest =>
      if s.stopped = none ∧ (s.pc t).calling = 0 then some (s.goTo t (.tryInc latest)) else none
  | .callDec t =>
      if s.stopped = none ∧ (s.pc t).calling = 0 ∧ 1 ≤ s.registered then
        some ({ s with registered := s.registered - 1 }.goTo t .dec)
      else none
  | .advance t =>
      if s.stopped = none then
        match s.pc t with
        | .tryInc latest => some (s.tryIncStep b t latest)
        | .revert => some (s.revertStep b t)
        | .dec => some (s.decStep b t)
        | _ => none
      else none
  | .exchange t change expected edit spurious =>
      if s.stopped = none ∧ (s.pc t).calling = 0 ∧ change.removed ≤ s.registered then
        some (s.exchangeStep b t change expected edit spurious)
      else none

/-- A word that nobody is working on, with as many registered downstreams as it counts. -/
def start (word : BitVec 32) : CountState Tid where
  word := word
  pc := fun _ => .idle
  registered := (ofWord word).count
  stopped := none

end CountState

/-- The threads of a process that share one status word. -/
def countMachine (Tid : Type) [DecidableEq Tid] (b : Build) :
    Machine (CountState Tid) (CountEvent Tid) where
  step := CountState.step b

/-! ## What passes the checks -/

variable {b : Build}

/-- What passes the checks after the addition. -/
theorem afterFetchAdd_eq_ok {preOp : FutureStatus} {r : TryInc}
    (h : afterFetchAdd b preOp = .ok r) :
    preOp.state = .result ∧ r = .lost ∨
      preOp.state ≠ .result ∧ r = .counted (preOp.inc .cycle) := by
  simp only [afterFetchAdd, bind_eq_ok] at h
  obtain ⟨-, -, -, -, h⟩ := h
  split at h
  · exact .inl ⟨‹_›, (pure_eq_ok.mp h).symm⟩
  · simp only [bind_eq_ok, pure_eq_ok] at h
    obtain ⟨-, -, rfl⟩ := h
    exact .inr ⟨‹_›, rfl⟩

/-- The limit is reported for a word that is at it. -/
theorem afterFetchAdd_failsWith {preOp : FutureStatus} :
    FailsWith (fun f => f = .tooManyDownstreams → preOp.downstreamCountOverflow = true ∨
      preOp.downstreamCount = maxDownstreamCount) (afterFetchAdd b preOp) := by
  simp only [afterFetchAdd, failsWith_bind, FutureStatus.check, failsWith_assertion,
    failsWith_ensure, failsWith_ite, failsWith_pure]
  refine ⟨by simp, fun _ _ => ⟨fun hfull _ => ?_, fun _ _ => ⟨fun _ => trivial, fun _ =>
    ⟨by simp, fun _ _ => trivial⟩⟩⟩⟩
  rw [Bool.not_eq_false', Bool.or_eq_true, beq_iff_eq] at hfull
  exact hfull

theorem decremented_failsWith {preOp : FutureStatus} :
    FailsWith (fun f => f = .countUnderflow → preOp.count = 0) (decremented b preOp) := by
  simp only [decremented, failsWith_bind, FutureStatus.check, failsWith_assertion, failsWith_pure]
  refine ⟨by simp, fun _ _ => ⟨fun _ hzero _ => ?_, fun _ _ => ⟨by simp, fun _ _ => trivial⟩⟩⟩
  simpa [FutureStatus.count] using hzero

theorem afterRevert_eq_ok {preOp latest : FutureStatus} (h : afterRevert b preOp = .ok latest) :
    latest = preOp.dec .cycle := by
  simp only [afterRevert, bind_eq_ok, pure_eq_ok] at h
  obtain ⟨r, hr, -, -, -, -, rfl⟩ := h
  exact decremented_eq_ok hr

theorem afterRevert_failsWith {preOp : FutureStatus} :
    FailsWith (fun f => f = .countUnderflow → preOp.count = 0) (afterRevert b preOp) := by
  simp only [afterRevert, failsWith_bind, FutureStatus.check, failsWith_assertion, failsWith_pure]
  exact ⟨decremented_failsWith, fun _ _ => ⟨by simp, fun _ _ => ⟨by simp, fun _ _ => trivial⟩⟩⟩

/-- The count that a transaction stores. -/
theorem CountChange.prepare_eq_ok {change : CountChange} {status counted : FutureStatus}
    (h : change.prepare b status = .ok counted) :
    counted.count + change.removed = status.count + change.added := by
  cases change with
  | keep =>
      obtain rfl := pure_eq_ok.mp h
      rfl
  | inc policy =>
      obtain ⟨rfl, -, -, hmax⟩ := prepareDownstreamCountInc_eq_ok h
      exact FutureStatus.count_inc hmax
  | dec policy =>
      obtain ⟨rfl, hzero⟩ := prepareDownstreamCountDec_eq_ok h
      refine FutureStatus.count_dec ?_
      cases policy with
      | keep => exact Nat.zero_le _
      | cycle => exact Nat.one_le_iff_ne_zero.mpr fun h0 => hzero rfl (count_eq_zero.mp h0)

/-- A transaction fails and reads the word, or takes place. -/
theorem transaction_eq_ok {change : CountChange} {expected edit : FutureStatus} {spurious : Bool}
    {word : BitVec 32} {r : Transaction}
    (h : transaction b change expected edit spurious word = .ok r) :
    r = { word := word, swapped := false, expected := ofWord word } ∨
      expected = ofWord word ∧ ∃ desired : FutureStatus,
        r = { word := desired.asWord, swapped := true, expected := ofWord word } ∧
        desired = { edit with downstreamCount := desired.downstreamCount } ∧
        desired.count + change.removed = (ofWord word).count + change.added := by
  simp only [transaction, statusCompareExchange, bind_eq_ok] at h
  obtain ⟨counted, hcounted, -, -, -, -, h⟩ := h
  split at h
  · rename_i hword
    obtain rfl : ofWord word = expected := by rw [hword.1, ofWord_asWord]
    obtain rfl := pure_eq_ok.mp h
    exact .inr ⟨rfl, _, rfl, rfl, (CountChange.prepare_eq_ok hcounted :)⟩
  · simp only [bind_eq_ok, pure_eq_ok] at h
    obtain ⟨-, -, rfl⟩ := h
    exact .inl rfl

/-! ## What a step can do -/

namespace CountState

variable [DecidableEq Tid]

/-- The steps of the machine. -/
inductive CountStep (b : Build) (s : CountState Tid) : CountEvent Tid → CountState Tid → Prop
  | callTryInc {t latest} (hfree : (s.pc t).calling = 0) :
      CountStep b s (.callTryInc t latest) (s.goTo t (.tryInc latest))
  | callDec {t} (hfree : (s.pc t).calling = 0) (hregistered : 1 ≤ s.registered) :
      CountStep b s (.callDec t) ({ s with registered := s.registered - 1 }.goTo t .dec)
  /-- `latest_status` fails its check before the addition. -/
  | checkStops {t latest f} (hpc : s.pc t = .tryInc latest) (hcheck : latest.check b = .error f) :
      CountStep b s (.advance t) { s with stopped := some f }
  | addStops {t latest f} (hpc : s.pc t = .tryInc latest) (hcheck : latest.check b = .ok ())
      (hlimit : f = .tooManyDownstreams → (ofWord s.word).downstreamCountOverflow = true ∨
        (ofWord s.word).downstreamCount = maxDownstreamCount) :
      CountStep b s (.advance t) { s with word := s.word + 1, stopped := some f }
  | counts {t latest} (hpc : s.pc t = .tryInc latest) (hcheck : latest.check b = .ok ())
      (hstate : (ofWord s.word).state ≠ .result) :
      CountStep b s (.advance t)
        ({ s with word := s.word + 1, registered := s.registered + 1 }.goTo t
          (.tryIncReturned true ((ofWord s.word).inc .cycle)))
  | loses {t latest} (hpc : s.pc t = .tryInc latest) (hcheck : latest.check b = .ok ())
      (hstate : (ofWord s.word).state = .result) :
      CountStep b s (.advance t) ({ s with word := s.word + 1 }.goTo t .revert)
  | revertStops {t f} (hpc : s.pc t = .revert)
      (hzero : f = .countUnderflow → (ofWord s.word).count = 0) :
      CountStep b s (.advance t) { s with word := s.word - 1, stopped := some f }
  | reverts {t} (hpc : s.pc t = .revert) :
      CountStep b s (.advance t) ({ s with word := s.word - 1 }.goTo t
        (.tryIncReturned false ((ofWord s.word).dec .cycle)))
  | decStops {t f} (hpc : s.pc t = .dec)
      (hzero : f = .countUnderflow → (ofWord s.word).count = 0) :
      CountStep b s (.advance t) { s with word := s.word - 1, stopped := some f }
  | decs {t} (hpc : s.pc t = .dec) :
      CountStep b s (.advance t) ({ s with word := s.word - 1 }.goTo t
        (.decReturned ((ofWord s.word).dec .cycle)))
  | exchangeStops {t change expected edit spurious f} :
      CountStep b s (.exchange t change expected edit spurious) { s with stopped := some f }
  | exchangeFails {t change expected edit spurious} (hfree : (s.pc t).calling = 0) :
      CountStep b s (.exchange t change expected edit spurious)
        (s.goTo t (.exchangeReturned false (ofWord s.word)))
  | exchanges {t change edit spurious} {desired : FutureStatus} (hfree : (s.pc t).calling = 0)
      (hremoved : change.removed ≤ s.registered)
      (hdesired : desired = { edit with downstreamCount := desired.downstreamCount })
      (hcount : desired.count + change.removed = (ofWord s.word).count + change.added) :
      CountStep b s (.exchange t change (ofWord s.word) edit spurious)
        ({ s with
            word := desired.asWord
            registered := s.registered + change.added - change.removed }.goTo t
          (.exchangeReturned true (ofWord s.word)))

variable {s s' : CountState Tid} {e : CountEvent Tid}

omit [DecidableEq Tid] in
theorem resume_cases {α : Type} (s : CountState Tid) (rest : Except Failure α)
    (next : α → CountState Tid) :
    (∃ a, rest = .ok a ∧ s.resume rest next = next a) ∨
      ∃ f, rest = .error f ∧ s.resume rest next = { s with stopped := some f } := by
  cases rest with
  | ok a => exact .inl ⟨a, rfl, rfl⟩
  | error f => exact .inr ⟨f, rfl, rfl⟩

theorem step_cases (h : (countMachine Tid b).step s e = some s') :
    s.stopped = none ∧ CountStep b s e s' := by
  change s.step b e = some s' at h
  cases e with
  | callTryInc t latest =>
      simp only [step, Option.ite_none_right_eq_some, Option.some.injEq] at h
      obtain ⟨⟨hrun, hfree⟩, rfl⟩ := h
      exact ⟨hrun, .callTryInc hfree⟩
  | callDec t =>
      simp only [step, Option.ite_none_right_eq_some, Option.some.injEq] at h
      obtain ⟨⟨hrun, hfree, hregistered⟩, rfl⟩ := h
      exact ⟨hrun, .callDec hfree hregistered⟩
  | advance t =>
      simp only [step, Option.ite_none_right_eq_some] at h
      obtain ⟨hrun, h⟩ := h
      refine ⟨hrun, ?_⟩
      cases hpc : s.pc t <;> simp only [hpc, reduceCtorEq, Option.some.injEq] at h <;> subst h
      case tryInc latest =>
        rw [tryIncStep]
        obtain ⟨⟨⟩, hcheck, hnext⟩ | ⟨f, hf, hnext⟩ := s.resume_cases (latest.check b) _ <;>
          rw [hnext]
        · obtain ⟨r, hr, hnext⟩ | ⟨f, hf, hnext⟩ := resume_cases
            { s with word := s.word + 1 } (afterFetchAdd b (ofWord s.word)) _ <;> rw [hnext]
          · obtain ⟨hstate, rfl⟩ | ⟨hstate, rfl⟩ := afterFetchAdd_eq_ok hr
            · exact .loses hpc hcheck hstate
            · exact .counts hpc hcheck hstate
          · exact .addStops hpc hcheck (afterFetchAdd_failsWith f hf)
        · exact .checkStops hpc hf
      case revert =>
        rw [revertStep]
        obtain ⟨r, hr, hnext⟩ | ⟨f, hf, hnext⟩ := resume_cases
          { s with word := s.word - 1 } (afterRevert b (ofWord s.word)) _ <;> rw [hnext]
        · obtain rfl := afterRevert_eq_ok hr
          exact .reverts hpc
        · exact .revertStops hpc (afterRevert_failsWith f hf)
      case dec =>
        rw [decStep]
        obtain ⟨r, hr, hnext⟩ | ⟨f, hf, hnext⟩ := resume_cases
          { s with word := s.word - 1 } (decremented b (ofWord s.word)) _ <;> rw [hnext]
        · obtain rfl := decremented_eq_ok hr
          exact .decs hpc
        · exact .decStops hpc (decremented_failsWith f hf)
  | exchange t change expected edit spurious =>
      simp only [step, Option.ite_none_right_eq_some, Option.some.injEq] at h
      obtain ⟨⟨hrun, hfree, hremoved⟩, rfl⟩ := h
      refine ⟨hrun, ?_⟩
      rw [exchangeStep]
      obtain ⟨r, hr, hnext⟩ | ⟨f, hf, hnext⟩ := s.resume_cases
        (transaction b change expected edit spurious s.word) _ <;> rw [hnext]
      · obtain rfl | ⟨rfl, desired, rfl, hdesired, hcount⟩ := transaction_eq_ok hr
        · exact .exchangeFails hfree
        · exact .exchanges hfree hremoved hdesired hcount
      · exact .exchangeStops

end CountState

end Udipe

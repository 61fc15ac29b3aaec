import Udipe.Future.CountUpdates
import Udipe.Lib.Threads

/-!
# Counting on the packed word is exact

While at most `MAX_DOWNSTREAM_COUNT` downstreams are registered or registering, the count of the word
is the number of registered ones and of the shares that calls under way still owe. So no addition meets
a full count and no subtraction an empty one: neither carries into the neighbouring fields nor borrows
from them, whatever transactions do to these meanwhile.
-/

namespace Udipe

open Function FutureStatus

/-- Adding one to the word adds one to its count and leaves the other fields. -/
structure CountsUp (before after : BitVec 32) : Prop where
  word : after = before + 1
  fields : ofWord after = { ofWord before with downstreamCount := (ofWord after).downstreamCount }
  count : (ofWord after).count = (ofWord before).count + 1

/-- Subtracting one from the word takes one off its count and leaves the other fields. -/
structure CountsDown (before after : BitVec 32) : Prop where
  word : after = before - 1
  fields : ofWord after = { ofWord before with downstreamCount := (ofWord after).downstreamCount }
  count : (ofWord after).count + 1 = (ofWord before).count

variable {word : BitVec 32}

theorem ofWord_add_one (h : (ofWord word).downstreamCount ≠ maxDownstreamCount) :
    ofWord (word + 1) = (ofWord word).inc .cycle := by
  rw [← fetchAdd_eq h, fetchAdd, asWord_ofWord]

theorem ofWord_sub_one (h : 1 ≤ (ofWord word).count) :
    ofWord (word - 1) = (ofWord word).dec .cycle := by
  rw [← fetchSub_eq h, fetchSub, asWord_ofWord]

theorem CountsUp.of_ne (h : (ofWord word).downstreamCount ≠ maxDownstreamCount) :
    CountsUp word (word + 1) := by
  have hword := ofWord_add_one h
  exact ⟨rfl, by rw [hword]; rfl, by rw [hword]; exact count_inc fun _ => h⟩

theorem CountsDown.of_pos (h : 1 ≤ (ofWord word).count) : CountsDown word (word - 1) := by
  have hword := ofWord_sub_one h
  exact ⟨rfl, by rw [hword]; rfl, by rw [hword]; exact count_dec h⟩

namespace CountState

variable {Tid : Type}

section

variable [Fintype Tid]

/-- How many downstreams are registered or registering. -/
def attached (s : CountState Tid) : ℕ := s.registered + ∑ t, (s.pc t).calling

/-- At most `MAX_DOWNSTREAM_COUNT` are. -/
def InBounds (s : CountState Tid) : Prop := s.attached ≤ maxDownstreamCount.toNat

instance (s : CountState Tid) : Decidable s.InBounds := inferInstanceAs (Decidable (_ ≤ _))

/-- The count is the number of registered downstreams and of what is owed. -/
def Law (s : CountState Tid) : Prop :=
  (ofWord s.word).count = s.registered + ∑ t, (s.pc t).owing

theorem law_start (word : BitVec 32) : (start word : CountState Tid).Law := by
  simp [Law, start, CountPc.owing]

/-! ## Room to count -/

variable {s : CountState Tid} {t : Tid}

/-- A thread that is about to add is registering, and has no share in the count yet. -/
theorem Law.count_lt_attached (hlaw : s.Law) {latest : FutureStatus}
    (hpc : s.pc t = .tryInc latest) :
    (ofWord s.word).count < s.attached := by
  have hlt : ∑ u, (s.pc u).owing < ∑ u, (s.pc u).calling :=
    Finset.sum_lt_sum (fun u _ => (s.pc u).owing_le_calling)
      ⟨t, Finset.mem_univ t, by simp [hpc]⟩
  rw [hlaw, attached]
  omega

/-- So its addition does not meet a full count. -/
theorem Law.ne_max (hlaw : s.Law) (hbound : s.InBounds) {latest : FutureStatus}
    (hpc : s.pc t = .tryInc latest) : (ofWord s.word).downstreamCount ≠ maxDownstreamCount := by
  intro hmax
  have hlt := hlaw.count_lt_attached hpc
  have hle : s.attached ≤ maxDownstreamCount.toNat := hbound
  rw [count, hmax] at hlt
  omega

/-- A share that is owed is in the count. -/
theorem Law.count_pos (hlaw : s.Law) (hpc : (s.pc t).owing = 1) : 1 ≤ (ofWord s.word).count := by
  have hle := Threads.le_sum CountPc.owing s.pc t
  rw [hlaw]
  omega

end

section

variable [DecidableEq Tid] [Fintype Tid] {b : Build} {s s' : CountState Tid} {e : CountEvent Tid}

/-- The law after one thread has moved: the word and the shares have changed alike. -/
theorem Law.goTo (hlaw : s.Law) (t : Tid) (pc : CountPc) (word : BitVec 32) (registered : ℕ)
    (hchange : (ofWord word).count + s.registered + (s.pc t).owing =
      (ofWord s.word).count + registered + pc.owing) :
    ({ s with word := word, registered := registered }.goTo t pc).Law := by
  have hcount : (ofWord s.word).count = s.registered + ∑ u, (s.pc u).owing := hlaw
  have hsum := Threads.sum_update CountPc.owing s.pc t pc
  change (ofWord word).count = registered + ∑ u, (update s.pc t pc u).owing
  omega

/-- A step keeps the law. -/
theorem CountStep.law (hstep : CountStep b s e s') (hlaw : s.Law) (hbound : s.InBounds)
    (hrun : s'.stopped = none) : s'.Law := by
  cases hstep with
  | callTryInc hfree =>
      exact hlaw.goTo _ _ s.word s.registered (by rw [CountPc.owing_of_calling hfree]; rfl)
  | callDec hfree hregistered =>
      refine hlaw.goTo _ _ s.word (s.registered - 1) ?_
      rw [CountPc.owing_of_calling hfree, CountPc.owing_dec]
      omega
  | counts hpc _ _ =>
      refine hlaw.goTo _ _ (s.word + 1) (s.registered + 1) ?_
      rw [(CountsUp.of_ne (hlaw.ne_max hbound hpc)).count, hpc, CountPc.owing_tryInc,
        CountPc.owing_tryIncReturned]
      omega
  | loses hpc _ _ =>
      refine hlaw.goTo _ _ (s.word + 1) s.registered ?_
      rw [(CountsUp.of_ne (hlaw.ne_max hbound hpc)).count, hpc, CountPc.owing_tryInc,
        CountPc.owing_revert]
      omega
  | reverts hpc =>
      refine hlaw.goTo _ _ (s.word - 1) s.registered ?_
      rw [← (CountsDown.of_pos (hlaw.count_pos (by rw [hpc, CountPc.owing_revert]))).count, hpc,
        CountPc.owing_revert, CountPc.owing_tryIncReturned]
      omega
  | decs hpc =>
      refine hlaw.goTo _ _ (s.word - 1) s.registered ?_
      rw [← (CountsDown.of_pos (hlaw.count_pos (by rw [hpc, CountPc.owing_dec]))).count, hpc,
        CountPc.owing_dec, CountPc.owing_decReturned]
      omega
  | exchangeFails hfree =>
      exact hlaw.goTo _ _ s.word s.registered (by rw [CountPc.owing_of_calling hfree]; rfl)
  | @exchanges t change edit spurious desired hfree hremoved _ hcount =>
      refine hlaw.goTo _ _ desired.asWord (s.registered + change.added - change.removed) ?_
      rw [ofWord_asWord, CountPc.owing_of_calling hfree, CountPc.owing_exchangeReturned]
      omega
  | checkStops | addStops | revertStops | decStops | exchangeStops => exact absurd hrun (by simp)

/-! ## Single steps -/

/-- What a step does to the word. -/
structure ExactStep (b : Build) (s : CountState Tid) (e : CountEvent Tid) (s' : CountState Tid) :
    Prop where
  /-- An addition counts up. -/
  add : ∀ t latest, e = .advance t → s.pc t = .tryInc latest → latest.check b = .ok () →
    CountsUp s.word s'.word
  /-- A subtraction counts down. -/
  sub : ∀ t, e = .advance t → (s.pc t).owing = 1 → CountsDown s.word s'.word
  /-- Without either the word stays, or a transaction has taken place: it has replaced the fields, and
  the count has changed as it says. -/
  other : (∀ t, e ≠ .advance t) → s'.word = s.word ∨
    ∃ t change edit spurious, e = .exchange t change (ofWord s.word) edit spurious ∧
      ofWord s'.word = { edit with downstreamCount := (ofWord s'.word).downstreamCount } ∧
      (ofWord s'.word).count + change.removed = (ofWord s.word).count + change.added
  /-- The limit is reported only when the guard bit is set. -/
  limit : ∀ t latest, e = .advance t → s.pc t = .tryInc latest →
    s'.stopped = some .tooManyDownstreams → (ofWord s.word).downstreamCountOverflow = true
  /-- An empty count is never reported. -/
  underflow : ∀ t, e = .advance t → (s.pc t).owing = 1 → s'.stopped ≠ some .countUnderflow

theorem CountStep.exact (hstep : CountStep b s e s') (hrun : s.stopped = none) (hlaw : s.Law)
    (hbound : s.InBounds) : ExactStep b s e s' where
  add t latest he hpc hcheck := by
    have hup := CountsUp.of_ne (hlaw.ne_max hbound hpc)
    subst he
    cases hstep with
    | checkStops hpc' hcheck' =>
        obtain rfl : latest = _ := CountPc.tryInc.inj (hpc.symm.trans hpc')
        exact absurd (hcheck.symm.trans hcheck') (by simp)
    | addStops | counts | loses => exact hup
    | revertStops hpc' | reverts hpc' | decStops hpc' | decs hpc' =>
        exact absurd (hpc.symm.trans hpc') (by simp)
  sub t he howing := by
    have hdown := CountsDown.of_pos (hlaw.count_pos howing)
    subst he
    cases hstep with
    | checkStops hpc | addStops hpc | counts hpc | loses hpc => simp [hpc] at howing
    | revertStops | reverts | decStops | decs => exact hdown
  other hother := by
    cases hstep with
    | exchanges _ _ hdesired hcount =>
        refine .inr ⟨_, _, _, _, rfl, ?_, ?_⟩ <;> simp only [goTo, ofWord_asWord]
        · exact hdesired
        · exact hcount
    | callTryInc | callDec | exchangeStops | exchangeFails => exact .inl rfl
    | checkStops | addStops | counts | loses | revertStops | reverts | decStops | decs =>
        exact absurd rfl (hother _)
  limit t latest he hpc hstopped := by
    subst he
    cases hstep with
    | checkStops hpc' hcheck =>
        have hf := (Checked.assertion_eq_error.mp hcheck).2.2
        exact absurd (hf.trans (Option.some.inj hstopped)) (by simp)
    | addStops _ _ hlimit =>
        exact (hlimit (Option.some.inj hstopped)).resolve_right (hlaw.ne_max hbound hpc)
    | counts | loses => exact absurd (hrun.symm.trans hstopped) (by simp)
    | revertStops hpc' | reverts hpc' | decStops hpc' | decs hpc' =>
        exact absurd (hpc.symm.trans hpc') (by simp)
  underflow t he howing hstopped := by
    have hpos := hlaw.count_pos howing
    subst he
    cases hstep with
    | checkStops hpc | addStops hpc | counts hpc | loses hpc => simp [hpc] at howing
    | revertStops _ hzero | decStops _ hzero =>
        have := hzero (Option.some.inj hstopped)
        omega
    | reverts | decs => exact absurd (hrun.symm.trans hstopped) (by simp)

/-! ## Lost increments -/

/-- The thread is about to add to the count of a future that has its result. -/
structure LosesRace (s : CountState Tid) (t : Tid) : Prop where
  calling : ∃ latest, s.pc t = .tryInc latest
  result : (ofWord s.word).state = .result

/-- The addition from `s₁` to `s₂` is reverted from `s₃` to `s₄`: over both the count changes by what
other threads have done in between, nothing is registered, and the caller gets to know. -/
structure Reverted (t : Tid) (s₁ s₂ s₃ s₄ : CountState Tid) : Prop where
  up : CountsUp s₁.word s₂.word
  down : CountsDown s₃.word s₄.word
  net : (ofWord s₄.word).count + (ofWord s₂.word).count
    = (ofWord s₁.word).count + (ofWord s₃.word).count
  registered : s₂.registered = s₁.registered ∧ s₄.registered = s₃.registered
  answer : s₄.stopped = none → s₄.pc t = .tryIncReturned false (ofWord s₄.word)

omit [Fintype Tid] in
theorem CountStep.losesRace {t : Tid} (hstep : CountStep b s (.advance t) s')
    (hlost : s.LosesRace t) (hrun : s'.stopped = none) :
    s'.pc t = .revert ∧ s'.registered = s.registered ∧
      ∃ latest, s.pc t = .tryInc latest ∧ latest.check b = .ok () := by
  obtain ⟨⟨latest, hpc⟩, hresult⟩ := hlost
  cases hstep with
  | loses hpc' hcheck _ => exact ⟨update_self .., rfl, _, hpc', hcheck⟩
  | counts _ _ hstate => exact absurd hresult hstate
  | checkStops | addStops | revertStops | decStops => exact absurd hrun (by simp)
  | reverts hpc' | decs hpc' => exact absurd (hpc.symm.trans hpc') (by simp)

omit [Fintype Tid] in
/-- A thread that is to revert waits for its own step. -/
theorem CountStep.revert_stays {t : Tid} (hstep : CountStep b s e s') (hpc : s.pc t = .revert)
    (hother : e ≠ .advance t) : s'.pc t = .revert := by
  have hbusy : ∀ {u : Tid}, (s.pc u).calling = 0 → t ≠ u := by
    rintro u hfree rfl
    simp [hpc] at hfree
  have hne : ∀ {u : Tid}, e = .advance u → t ≠ u := by
    rintro u he rfl
    exact hother he
  cases hstep with
  | callTryInc hfree | callDec hfree _ | exchangeFails hfree | exchanges hfree _ _ _ =>
      exact (update_of_ne (hbusy hfree) ..).trans hpc
  | counts | loses | reverts | decs => exact (update_of_ne (hne rfl) ..).trans hpc
  | checkStops | addStops | revertStops | decStops | exchangeStops => exact hpc

/-- The step it waits for. -/
theorem CountStep.reverts_answer {t : Tid} (hstep : CountStep b s (.advance t) s')
    (hpc : s.pc t = .revert) (hlaw : s.Law) :
    s'.registered = s.registered ∧ CountsDown s.word s'.word ∧
      (s'.stopped = none → s'.pc t = .tryIncReturned false (ofWord s'.word)) := by
  have hpos := hlaw.count_pos (t := t) (by rw [hpc, CountPc.owing_revert])
  have hword := ofWord_sub_one hpos
  cases hstep with
  | reverts => exact ⟨rfl, .of_pos hpos, fun _ => (update_self ..).trans (by rw [← hword]; rfl)⟩
  | revertStops => exact ⟨rfl, .of_pos hpos, fun h => absurd h (by simp)⟩
  | checkStops hpc' | addStops hpc' | counts hpc' | loses hpc' | decStops hpc' | decs hpc' =>
      exact absurd (hpc.symm.trans hpc') (by simp)

/-! ## Runs -/

variable {s₁ s₂ s₃ : CountState Tid} {es mid : List (CountEvent Tid)} {t : Tid}

/-- A step of the machine out of a running process. -/
theorem step_exact (hlaw : s.stopped = none → s.Law) (hbound : s.InBounds)
    (hstep : (countMachine Tid b).step s e = some s') : ExactStep b s e s' := by
  obtain ⟨hrun, hcase⟩ := step_cases hstep
  exact hcase.exact hrun (hlaw hrun) hbound

theorem step_law (hlaw : s.stopped = none → s.Law) (hbound : s.InBounds)
    (hstep : (countMachine Tid b).step s e = some s') (hrun : s'.stopped = none) : s'.Law := by
  obtain ⟨hrun', hcase⟩ := step_cases hstep
  exact hcase.law (hlaw hrun') hbound hrun

theorem law_of_run (hlaw : s.stopped = none → s.Law)
    (hbound : (countMachine Tid b).Along (fun s _ _ => s.InBounds) s es)
    (hrun : (countMachine Tid b).run s es = some s') : s'.stopped = none → s'.Law :=
  Machine.invariant_of_along (I := fun s : CountState Tid => s.stopped = none → s.Law)
    (fun _ _ _ hI hb hstep => step_law hI hb hstep) hlaw hbound hrun

omit [Fintype Tid] in
/-- A process that has ended does nothing more. -/
theorem running_of_run (hrun : (countMachine Tid b).run s es = some s') (h : s'.stopped = none) :
    s.stopped = none := by
  by_contra hstopped
  have hinvariant : s'.stopped ≠ none :=
    Machine.invariant_of_run (I := fun s : CountState Tid => s.stopped ≠ none)
      (fun _ _ _ hI hstep => absurd (step_cases hstep).1 hI) hstopped hrun
  exact hinvariant h

omit [Fintype Tid] in
theorem revert_of_run (hpc : s.pc t = .revert) (hmid : ∀ e ∈ mid, e ≠ .advance t)
    (hrun : (countMachine Tid b).run s mid = some s') : s'.pc t = .revert := by
  have halong : (countMachine Tid b).Along (fun _ e _ => e ≠ .advance t) s mid :=
    Machine.along_of_forall_mem (C := fun e : CountEvent Tid => e ≠ .advance t) hmid
  exact Machine.invariant_of_along (I := fun s : CountState Tid => s.pc t = .revert)
    (fun _ _ _ hI hother hstep => (step_cases hstep).2.revert_stays hI hother) hpc halong hrun

omit [Fintype Tid] in
/-- Nothing keeps the thread from reverting. -/
theorem step_revert (hpc : s.pc t = .revert) (hrun : s.stopped = none) :
    (countMachine Tid b).step s (.advance t) = some (s.revertStep b t) := by
  simp [countMachine, step, hpc, hrun]

/-- A lost increment, from its addition to its subtraction. -/
theorem reverted_of_run (hlaw : s₁.stopped = none → s₁.Law)
    (hbound : (countMachine Tid b).Along (fun s _ _ => s.InBounds) s₁ (.advance t :: mid))
    (hlost : s₁.LosesRace t) (hadd : (countMachine Tid b).step s₁ (.advance t) = some s₂)
    (hmid : ∀ e ∈ mid, e ≠ .advance t) (hrun : (countMachine Tid b).run s₂ mid = some s₃)
    (hrunning₃ : s₃.stopped = none) :
    ∃ s₄, (countMachine Tid b).step s₃ (.advance t) = some s₄ ∧ Reverted t s₁ s₂ s₃ s₄ := by
  obtain ⟨hbound₁, hbound₂⟩ := hbound s₂ hadd
  have hrunning₂ := running_of_run hrun hrunning₃
  obtain ⟨hpc₂, hregistered₂, latest, hpc₁, hcheck⟩ := (step_cases hadd).2.losesRace hlost hrunning₂
  have hpc₃ := revert_of_run hpc₂ hmid hrun
  have hlaw₃ : s₃.Law := law_of_run (step_law hlaw hbound₁ hadd) hbound₂ hrun hrunning₃
  have hsub := step_revert (b := b) hpc₃ hrunning₃
  obtain ⟨hregistered₄, hdown, hanswer⟩ := (step_cases hsub).2.reverts_answer hpc₃ hlaw₃
  have hup := (step_exact hlaw hbound₁ hadd).add t latest rfl hpc₁ hcheck
  refine ⟨_, hsub, hup, hdown, ?_, ⟨hregistered₂, hregistered₄⟩, hanswer⟩
  have := hup.count
  have := hdown.count
  omega

end

end CountState

open CountState in
/-- On every word, for any number of threads and every order of their steps, as long as at most
`MAX_DOWNSTREAM_COUNT` downstreams are registered or registering: the count is the number of
registered downstreams and of what the calls under way owe, additions and subtractions on the whole
word change the count by one and nothing else, and an increment that meets `STATE_RESULT` is reverted
by the next step of its thread, whatever happens before. -/
theorem countUpdates_exact (Tid : Type) [DecidableEq Tid] [Fintype Tid] (b : Build)
    (word : BitVec 32) (es : List (CountEvent Tid))
    (hbound : (countMachine Tid b).Along (fun s _ _ => s.InBounds) (start word) es) :
    (∀ s, (countMachine Tid b).run (start word) es = some s → s.stopped = none → s.Law) ∧
    (countMachine Tid b).Along (ExactStep b) (start word) es ∧
    ∀ t pre mid s₁ s₂ s₃, es = pre ++ .advance t :: mid →
      (countMachine Tid b).run (start word) pre = some s₁ → s₁.LosesRace t →
      (countMachine Tid b).step s₁ (.advance t) = some s₂ → (∀ e ∈ mid, e ≠ .advance t) →
      (countMachine Tid b).run s₂ mid = some s₃ → s₃.stopped = none →
      ∃ s₄, (countMachine Tid b).step s₃ (.advance t) = some s₄ ∧ Reverted t s₁ s₂ s₃ s₄ := by
  have hstart : (start word : CountState Tid).stopped = none → (start word : CountState Tid).Law :=
    fun _ => law_start word
  refine ⟨fun s hrun => law_of_run hstart hbound hrun, ?_, ?_⟩
  · exact Machine.along_of_invariant (I := fun s : CountState Tid => s.stopped = none → s.Law)
      (fun _ _ _ hlaw hb hstep => step_law hlaw hb hstep)
      (fun _ _ _ hlaw hb hstep => step_exact hlaw hb hstep) hstart hbound
  · rintro t pre mid s₁ s₂ s₃ rfl hpre hlost hadd hmid hrun hrunning
    have hlaw : s₁.stopped = none → s₁.Law := law_of_run hstart hbound.append_left hpre
    exact reverted_of_run hlaw (hbound.append_right hpre) hlost hadd hmid hrun hrunning

/-- A timer with one downstream less than the limit. -/
def almostFull (state : FutureState) (outcome : FutureOutcome) : FutureStatus where
  downstreamCount := 65534
  downstreamCountOverflow := false
  available := true
  state := state
  outcome := outcome
  type := .timerOnce
  notifyAddress := false
  notifyEventOrLazyLock := false
  reserved := 0

/-- The last place is taken for a moment by a thread that comes too late. -/
theorem countUpdates_exact_late :
    ∃ s₁ s₂ s₃ s₄ : CountState (Fin 2), s₁.LosesRace 0 ∧
      (FutureStatus.ofWord s₂.word).downstreamCount = maxDownstreamCount ∧
      CountState.Reverted 0 s₁ s₂ s₃ s₄ := by
  let waiting := almostFull .processing .unknown
  let before : List (CountEvent (Fin 2)) :=
    [.callTryInc 0 waiting, .exchange 1 .keep waiting (almostFull .result .success) false]
  let machine := countMachine (Fin 2) ⟨true⟩
  let s₀ : CountState (Fin 2) := .start waiting.asWord
  let s₁ := (machine.run s₀ before).get (by decide)
  let s₂ := (machine.step s₁ (.advance 0)).get (by decide)
  let s₃ := (machine.run s₂ [.callDec 1]).get (by decide)
  have hlost : s₁.LosesRace 0 := ⟨⟨waiting, by decide⟩, by decide⟩
  obtain ⟨-, -, hlate⟩ := countUpdates_exact (Fin 2) ⟨true⟩ waiting.asWord
    (before ++ [.advance 0, .callDec 1]) (by decide)
  obtain ⟨s₄, -, hreverted⟩ := hlate 0 before [.callDec 1] s₁ s₂ s₃ rfl (Option.some_get _).symm
    hlost (Option.some_get _).symm (by simp) (Option.some_get _).symm (by decide)
  exact ⟨s₁, s₂, s₃, s₄, hlost, by decide, hreverted⟩

end Udipe

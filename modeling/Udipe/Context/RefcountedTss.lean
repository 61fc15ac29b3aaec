import Udipe.Lib.Checked
import Udipe.Lib.Machine
import Udipe.Lib.PackedCounter
import Udipe.Lib.Threads

/-!
# Reference-counted thread-local storage slots

Reference: `refcounted_tss.h`, `refcounted_tss.c`.

One word holds the number of thread-local slots and, in its high bit, whether new ones can still be
made. The release that takes the count to zero after the discard, or the discard that finds it at zero,
deletes the key.

A `size_t` has `1 + w` bits. Each step of a thread is one access to the word, to the key or to the
thread's own slot.
-/

namespace Udipe

open Checked Function

/-! ## The word -/

/-- `REFCOUNTED_TSS_REACHABLE`. -/
def refcountedTssReachable (w : ℕ) : BitVec (1 + w) := 1#(1 + w) <<< w

/-- The word of a slot with `refs` references. -/
def refcountWord (w : ℕ) (reachable : Bool) (refs : ℕ) : BitVec (1 + w) :=
  BitVec.ofBool reachable ++ BitVec.ofNat w refs

/-- Memory shared by all users of one `refcounted_tss_t`. `deletions` is history: the calls of
`tss_delete`. -/
structure RefcountedTss (w : ℕ) where
  refcountAndReachability : BitVec (1 + w)
  deletions : ℕ
deriving DecidableEq

/-- The assertions of `refcounted_tss.h` and `refcounted_tss.c`. -/
inductive TssFailure where
  | acquireUnreachable
  | createUnreachable
  | createOverflow
  | createTwice
  | releaseNotCleared
  | releaseUnreferenced
  | discardTwice
deriving DecidableEq, Repr

/-- Where a thread is in its calls. -/
inductive TssPc where
  | outside
  | acquireCheck
  | acquireGet
  | createAdd
  | createConstruct
  | createGet
  | createSet
  | releaseGet
  | releaseSub
  | releaseDelete
  | released (result : Bool)
deriving DecidableEq, Repr

/-- A thread: its place and whether `tss_get` finds a value in it. -/
structure TssThread where
  pc : TssPc
  slot : Bool
deriving DecidableEq, Repr

/-- Where `refcounted_tss_discard` is. -/
inductive TssDiscardPc where
  | outside
  | mark
  | delete
  | returned (result : Bool)
deriving DecidableEq, Repr

variable {w : ℕ}

/-- `tss_delete(tss->key)`. -/
def RefcountedTss.delete (tss : RefcountedTss w) : RefcountedTss w :=
  { tss with deletions := tss.deletions + 1 }

/-- One step of `refcounted_tss_acquire`, `refcounted_tss_create_slot` or `refcounted_tss_release`. -/
def tssThreadStep (assertions : Bool) (tss : RefcountedTss w) (th : TssThread) :
    Except TssFailure (RefcountedTss w × TssThread) :=
  let old := tss.refcountAndReachability
  let reachable := refcountedTssReachable w
  match th.pc with
  | .acquireCheck => do
      assertion assertions (old ||| reachable != 0) .acquireUnreachable
      pure (tss, { th with pc := .acquireGet })
  | .acquireGet => pure (tss, { th with pc := if th.slot then .outside else .createAdd })
  | .createAdd => do
      assertion assertions (old &&& reachable != 0) .createUnreachable
      assertion assertions ((old + 1#(1 + w)) &&& reachable != 0) .createOverflow
      pure ({ tss with refcountAndReachability := old + 1#(1 + w) },
        { th with pc := .createConstruct })
  | .createConstruct => pure (tss, { th with pc := .createGet })
  | .createGet => do
      assertion assertions (!th.slot) .createTwice
      pure (tss, { th with pc := .createSet })
  | .createSet => pure (tss, { pc := .outside, slot := true })
  | .releaseGet => do
      assertion assertions (!th.slot) .releaseNotCleared
      pure (tss, { th with pc := .releaseSub })
  | .releaseSub => do
      assertion assertions (old != 0) .releaseUnreferenced
      pure ({ tss with refcountAndReachability := old - 1#(1 + w) },
        { th with pc := if 1#(1 + w) < old then .released false else .releaseDelete })
  | .releaseDelete => pure (tss.delete, { th with pc := .released true })
  | .outside | .released _ => pure (tss, th)

/-- One step of `refcounted_tss_discard`. -/
def tssDiscardStep (assertions : Bool) (tss : RefcountedTss w) (pc : TssDiscardPc) :
    Except TssFailure (RefcountedTss w × TssDiscardPc) :=
  let old := tss.refcountAndReachability
  let reachable := refcountedTssReachable w
  match pc with
  | .mark => do
      assertion assertions (old &&& reachable != 0) .discardTwice
      pure ({ tss with refcountAndReachability := old &&& ~~~reachable },
        if old != reachable then .returned false else .delete)
  | .delete => pure (tss.delete, .returned true)
  | .outside | .returned _ => pure (tss, pc)

/-! ## The machine -/

/-- The slot and all its users. -/
structure TssState (Tid : Type) (w : ℕ) where
  tss : RefcountedTss w
  threads : Tid → TssThread
  discard : TssDiscardPc
  aborted : Option TssFailure

/-- One step of one party. -/
inductive TssEvent (Tid : Type) where
  | acquire (t : Tid)
  | exit (t : Tid)
  | thread (t : Tid)
  | discard
  | discarder
deriving DecidableEq

/-- The thread is inside `refcounted_tss_acquire`. -/
def TssPc.acquiring : TssPc → Bool
  | .acquireCheck | .acquireGet | .createAdd | .createConstruct | .createGet | .createSet => true
  | .outside | .releaseGet | .releaseSub | .releaseDelete | .released _ => false

/-- The thread is inside a call. -/
def TssPc.running : TssPc → Bool
  | .outside | .released _ => false
  | _ => true

/-- The discard is inside its call. -/
def TssDiscardPc.running : TssDiscardPc → Bool
  | .mark | .delete => true
  | .outside | .returned _ => false

section

variable {Tid : Type} [DecidableEq Tid] [Fintype Tid]

/-- One step of one party; `none` when the event cannot happen. A thread acquires before the discard
starts, and the discard starts when no thread is acquiring. A thread that exits with a slot has it
cleared and runs the destructor, which releases. -/
def tssStep (assertions : Bool) (s : TssState Tid w) (e : TssEvent Tid) : Option (TssState Tid w) :=
  if s.aborted.isSome then none else
  match e with
  | .acquire t =>
      if (s.threads t).pc = .outside ∧ s.discard = .outside then
        some { s with threads := update s.threads t { s.threads t with pc := .acquireCheck } }
      else none
  | .exit t =>
      if (s.threads t).pc = .outside ∧ (s.threads t).slot = true then
        some { s with threads := update s.threads t { pc := .releaseGet, slot := false } }
      else none
  | .thread t =>
      if (s.threads t).pc.running then
        match tssThreadStep assertions s.tss (s.threads t) with
        | .ok (tss, th) => some { s with tss := tss, threads := update s.threads t th }
        | .error f => some { s with aborted := some f }
      else none
  | .discard =>
      if s.discard = .outside ∧ ∀ t, (s.threads t).pc.acquiring = false then
        some { s with discard := .mark }
      else none
  | .discarder =>
      if s.discard.running then
        match tssDiscardStep assertions s.tss s.discard with
        | .ok (tss, pc) => some { s with tss := tss, discard := pc }
        | .error f => some { s with aborted := some f }
      else none

/-- The machine of one `refcounted_tss_t`. -/
def refcountedTss (assertions : Bool) : Machine (TssState Tid w) (TssEvent Tid) where
  step := tssStep assertions

end

/-- The state after `refcounted_tss_initialize`. -/
def TssState.start (Tid : Type) (w : ℕ) : TssState Tid w where
  tss := { refcountAndReachability := refcountedTssReachable w, deletions := 0 }
  threads := fun _ => { pc := .outside, slot := false }
  discard := .outside
  aborted := none

/-! ## The word as a flag and a count -/

theorem toNat_refcountWord {reachable : Bool} {refs : ℕ} (hrefs : refs < 2 ^ w) :
    (refcountWord w reachable refs).toNat = reachable.toNat * 2 ^ w + refs := by
  rw [refcountWord, BitVec.toNat_append, ← Nat.shiftLeft_add_eq_or_of_lt (BitVec.isLt _),
    Nat.shiftLeft_eq, BitVec.toNat_ofNat, Nat.mod_eq_of_lt hrefs, BitVec.toNat_ofBool]

/-- The initial word: reachable, without references. -/
theorem refcountedTssReachable_eq : refcountedTssReachable w = refcountWord w true 0 := by
  apply BitVec.eq_of_toNat_eq
  have hlt : 2 ^ w < 2 ^ (1 + w) := Nat.pow_lt_pow_right (by omega) (by omega)
  rw [toNat_refcountWord (Nat.two_pow_pos w), refcountedTssReachable, BitVec.toNat_shiftLeft,
    BitVec.toNat_ofNat, Nat.one_mod_two_pow_eq_one.mpr (by omega), Nat.one_shiftLeft,
    Nat.mod_eq_of_lt hlt]
  simp

theorem refcountWord_injective {r r' : Bool} {n n' : ℕ} (hn : n < 2 ^ w) (hn' : n' < 2 ^ w) :
    refcountWord w r n = refcountWord w r' n' ↔ r = r' ∧ n = n' := by
  constructor
  · intro h
    have h := congrArg BitVec.toNat h
    rw [toNat_refcountWord hn, toNat_refcountWord hn'] at h
    cases r <;> cases r' <;> simp at h ⊢ <;> omega
  · rintro ⟨rfl, rfl⟩
    rfl

theorem refcountWord_eq_zero {r : Bool} {n : ℕ} (hn : n < 2 ^ w) :
    refcountWord w r n = 0 ↔ r = false ∧ n = 0 := by
  have hzero : (0 : BitVec (1 + w)) = refcountWord w false 0 := by
    apply BitVec.eq_of_toNat_eq
    rw [toNat_refcountWord (Nat.two_pow_pos w)]
    simp
  rw [hzero, refcountWord_injective hn (Nat.two_pow_pos w)]

theorem refcountWord_and_reachable {r : Bool} {n : ℕ} :
    refcountWord w r n &&& refcountedTssReachable w = refcountWord w r 0 := by
  rw [refcountedTssReachable_eq, refcountWord, refcountWord, refcountWord, BitVec.and_append]
  cases r <;> simp

theorem refcountWord_and_not_reachable {r : Bool} {n : ℕ} :
    refcountWord w r n &&& ~~~refcountedTssReachable w = refcountWord w false n := by
  rw [refcountedTssReachable_eq, refcountWord, refcountWord, refcountWord, BitVec.not_append,
    BitVec.and_append]
  cases r <;> simp

theorem refcountWord_or_reachable {r : Bool} {n : ℕ} :
    refcountWord w r n ||| refcountedTssReachable w = refcountWord w true n := by
  rw [refcountedTssReachable_eq, refcountWord, refcountWord, refcountWord, BitVec.or_append]
  cases r <;> simp

theorem refcountWord_add_one {r : Bool} {n : ℕ} (hn : n + 1 < 2 ^ w) :
    refcountWord w r n + 1#(1 + w) = refcountWord w r (n + 1) := by
  have hw : 0 < w := by
    rcases Nat.eq_zero_or_pos w with rfl | hw
    · simp at hn
    · exact hw
  have hmax : BitVec.ofNat w n ≠ BitVec.allOnes w := by
    intro h
    have h := congrArg BitVec.toNat h
    rw [BitVec.toNat_ofNat, BitVec.toNat_allOnes, Nat.mod_eq_of_lt (by omega)] at h
    omega
  rw [refcountWord, BitVec.append_add_one _ hw hmax, refcountWord]
  congr 1
  exact (BitVec.ofNat_add n 1).symm

/-- A count at its maximum carries into the flag. -/
theorem refcountWord_overflow {n : ℕ} (hn : n + 1 = 2 ^ w) :
    (refcountWord w true n + 1#(1 + w)) = 0 := by
  apply BitVec.eq_of_toNat_eq
  rw [BitVec.toNat_add, toNat_refcountWord (by omega), BitVec.toNat_ofNat,
    Nat.one_mod_two_pow_eq_one.mpr (by omega)]
  have hsum : true.toNat * 2 ^ w + n + 1 = 2 ^ (1 + w) := by
    rw [Nat.pow_add]
    simp only [Bool.toNat_true]
    omega
  rw [hsum]
  simp

theorem refcountWord_sub_one {r : Bool} {n : ℕ} (hn : n + 1 < 2 ^ w) :
    refcountWord w r (n + 1) - 1#(1 + w) = refcountWord w r n := by
  rw [← refcountWord_add_one hn, BitVec.add_sub_cancel]

/-- `old > 1`: not the last reference of a discarded slot. -/
theorem one_lt_refcountWord {r : Bool} {n : ℕ} (hn : n + 1 < 2 ^ w) :
    1#(1 + w) < refcountWord w r (n + 1) ↔ r = true ∨ n ≠ 0 := by
  rw [BitVec.lt_def, toNat_refcountWord hn, BitVec.toNat_ofNat,
    Nat.one_mod_two_pow_eq_one.mpr (by omega)]
  have := Nat.two_pow_pos w
  cases r <;> simp <;> omega

/-! ## Who holds a reference, who is to delete, who got `true` -/

/-- The references of the thread in the count. -/
def TssThread.references (th : TssThread) : ℕ :=
  match th.pc with
  | .createConstruct | .createGet | .createSet | .releaseGet | .releaseSub => 1
  | .outside | .acquireCheck | .acquireGet => th.slot.toNat
  | .createAdd | .releaseDelete | .released _ => 0

/-- The thread is about to call `tss_delete`. -/
def TssThread.deleting (th : TssThread) : ℕ :=
  match th.pc with
  | .releaseDelete => 1
  | _ => 0

/-- The thread's release returned `true`. -/
def TssThread.won (th : TssThread) : ℕ :=
  match th.pc with
  | .released true => 1
  | _ => 0

/-- Only a thread outside a call, or one that looks its slot up, has a slot. -/
def TssThread.consistent (th : TssThread) : Bool :=
  match th.pc with
  | .outside | .acquireCheck | .acquireGet => true
  | _ => !th.slot

/-- New slots can still be made. -/
def TssDiscardPc.reachable : TssDiscardPc → Bool
  | .outside | .mark => true
  | .delete | .returned _ => false

/-- The discard is about to call `tss_delete`. -/
def TssDiscardPc.deleting : TssDiscardPc → ℕ
  | .delete => 1
  | _ => 0

/-- The discard returned `true`. -/
def TssDiscardPc.won : TssDiscardPc → ℕ
  | .returned true => 1
  | _ => 0

/-- One when the slot is both discarded and without references. -/
def tssDead (reachable : Bool) (refs : ℕ) : ℕ := if reachable = false ∧ refs = 0 then 1 else 0

/-- What one step of a thread does to the count, the deletions and the answers. -/
structure TssThreadMove (r : Bool) (n n' : ℕ) (tss tss' : RefcountedTss w) (th th' : TssThread) :
    Prop where
  word : tss'.refcountAndReachability = refcountWord w r n'
  fits : n' < 2 ^ w
  references : n' + th.references = n + th'.references
  deletions : tss'.deletions + th'.deleting + tssDead r n
    = tss.deletions + th.deleting + tssDead r n'
  won : th'.won + tss.deletions = th.won + tss'.deletions
  consistent : th'.consistent = true

/-- A step that leaves the word and the deletions alone. -/
theorem TssThreadMove.keep {r : Bool} {n : ℕ} {tss : RefcountedTss w} {th th' : TssThread}
    (hword : tss.refcountAndReachability = refcountWord w r n) (hn : n < 2 ^ w)
    (href : th'.references = th.references) (hdel : th'.deleting = th.deleting)
    (hwon : th'.won = th.won) (hcons : th'.consistent = true) :
    TssThreadMove r n n tss tss th th' :=
  { word := hword
    fits := hn
    references := by rw [href]
    deletions := by rw [hdel]
    won := by rw [hwon]
    consistent := hcons }

/-- The step of a thread in the invariant. -/
theorem tssThreadStep_ok {assertions r : Bool} {n : ℕ} {tss tss' : RefcountedTss w}
    {th th' : TssThread} (hword : tss.refcountAndReachability = refcountWord w r n)
    (hn : n < 2 ^ w) (href : th.references ≤ n) (hcons : th.consistent = true)
    (hacq : r = false → th.pc.acquiring = false)
    (hroom : assertions = true ∨ (th.references = 0 → n + 1 < 2 ^ w))
    (h : tssThreadStep assertions tss th = .ok (tss', th')) :
    ∃ n', TssThreadMove r n n' tss tss' th th' := by
  obtain ⟨pc, slot⟩ := th
  cases pc with
  | outside =>
      obtain ⟨rfl, rfl⟩ : tss = tss' ∧ _ = th' := by simpa [tssThreadStep, pure_eq_ok] using h
      exact ⟨n, .keep hword hn rfl rfl rfl hcons⟩
  | released result =>
      obtain ⟨rfl, rfl⟩ : tss = tss' ∧ _ = th' := by simpa [tssThreadStep, pure_eq_ok] using h
      exact ⟨n, .keep hword hn rfl rfl rfl hcons⟩
  | acquireCheck =>
      simp only [tssThreadStep, bind_eq_ok, pure_eq_ok, Prod.mk.injEq] at h
      obtain ⟨-, -, rfl, rfl⟩ := h
      exact ⟨n, .keep hword hn rfl rfl rfl hcons⟩
  | acquireGet =>
      simp only [tssThreadStep, pure_eq_ok, Prod.mk.injEq] at h
      obtain ⟨rfl, rfl⟩ := h
      refine ⟨n, .keep hword hn ?_ ?_ ?_ ?_⟩ <;> cases slot <;> rfl
  | createAdd =>
      simp only [tssThreadStep, bind_eq_ok, pure_eq_ok, assertion_eq_ok, Prod.mk.injEq] at h
      obtain ⟨-, -, -, hover, rfl, rfl⟩ := h
      obtain rfl : r = true := by
        by_contra hr
        simpa [TssPc.acquiring] using hacq (by simpa using hr)
      have hlt : n + 1 < 2 ^ w := by
        rcases hroom with hassert | hroom
        · by_contra hge
          have hmax : n + 1 = 2 ^ w := by omega
          simpa [hword, refcountWord_overflow hmax] using hover hassert
        · exact hroom rfl
      exact ⟨n + 1,
        { word := by rw [hword, refcountWord_add_one hlt]
          fits := hlt
          references := rfl
          deletions := by simp [TssThread.deleting, tssDead]
          won := rfl
          consistent := hcons }⟩
  | createConstruct =>
      obtain ⟨rfl, rfl⟩ : tss = tss' ∧ _ = th' := by simpa [tssThreadStep, pure_eq_ok] using h
      exact ⟨n, .keep hword hn rfl rfl rfl hcons⟩
  | createGet =>
      simp only [tssThreadStep, bind_eq_ok, pure_eq_ok, Prod.mk.injEq] at h
      obtain ⟨-, -, rfl, rfl⟩ := h
      exact ⟨n, .keep hword hn rfl rfl rfl hcons⟩
  | createSet =>
      obtain ⟨rfl, rfl⟩ : tss = tss' ∧ _ = th' := by simpa [tssThreadStep, pure_eq_ok] using h
      exact ⟨n, .keep hword hn rfl rfl rfl rfl⟩
  | releaseGet =>
      simp only [tssThreadStep, bind_eq_ok, pure_eq_ok, Prod.mk.injEq] at h
      obtain ⟨-, -, rfl, rfl⟩ := h
      exact ⟨n, .keep hword hn rfl rfl rfl hcons⟩
  | releaseSub =>
      simp only [tssThreadStep, bind_eq_ok, pure_eq_ok, Prod.mk.injEq] at h
      obtain ⟨-, -, rfl, rfl⟩ := h
      obtain ⟨m, rfl⟩ : ∃ m, n = m + 1 := ⟨n - 1, by simp [TssThread.references] at href; omega⟩
      have hlast := one_lt_refcountWord (r := r) hn
      refine ⟨m,
        { word := by rw [hword, refcountWord_sub_one hn]
          fits := by omega
          references := ?_
          deletions := ?_
          won := ?_
          consistent := ?_ }⟩
      all_goals
        simp only [hword, hlast]
        by_cases hm : r = true ∨ m ≠ 0
      · simp [TssThread.references, hm]
      · simp [TssThread.references, hm]
      · simp only [hm, if_true, TssThread.deleting, tssDead]
        rcases hm with rfl | hm <;> simp_all
      · simp only [hm, if_false, TssThread.deleting, tssDead]
        simp only [not_or, Bool.not_eq_true, not_not] at hm
        simp [hm]
      · simp [TssThread.won, hm]
      · simp [TssThread.won, hm]
      · simpa [TssThread.consistent, hm] using hcons
      · simpa [TssThread.consistent, hm] using hcons
  | releaseDelete =>
      obtain ⟨rfl, rfl⟩ : tss.delete = tss' ∧ _ = th' := by
        simpa [tssThreadStep, pure_eq_ok] using h
      exact ⟨n,
        { word := hword
          fits := hn
          references := rfl
          deletions := rfl
          won := by simp [TssThread.won, RefcountedTss.delete]; omega
          consistent := hcons }⟩

/-- A thread only starts to acquire when it calls. -/
theorem tssThreadStep_acquiring {assertions : Bool} {tss tss' : RefcountedTss w}
    {th th' : TssThread} (hth : th.pc.acquiring = false)
    (h : tssThreadStep assertions tss th = .ok (tss', th')) : th'.pc.acquiring = false := by
  obtain ⟨pc, slot⟩ := th
  cases pc with
  | acquireCheck | acquireGet | createAdd | createConstruct | createGet | createSet =>
      simp [TssPc.acquiring] at hth
  | outside | released | releaseDelete =>
      obtain ⟨-, rfl⟩ : _ ∧ _ = th' := by simpa [tssThreadStep, pure_eq_ok] using h
      rfl
  | releaseGet =>
      simp only [tssThreadStep, bind_eq_ok, pure_eq_ok, Prod.mk.injEq] at h
      obtain ⟨-, -, -, rfl⟩ := h
      rfl
  | releaseSub =>
      simp only [tssThreadStep, bind_eq_ok, pure_eq_ok, Prod.mk.injEq] at h
      obtain ⟨-, -, -, rfl⟩ := h
      dsimp only
      split <;> rfl

/-- The step of the discard in the invariant. -/
theorem tssDiscardStep_ok {assertions : Bool} {n : ℕ} {tss tss' : RefcountedTss w}
    {pc pc' : TssDiscardPc} (hword : tss.refcountAndReachability = refcountWord w pc.reachable n)
    (hn : n < 2 ^ w) (hrun : pc.running = true)
    (h : tssDiscardStep assertions tss pc = .ok (tss', pc')) :
    tss'.refcountAndReachability = refcountWord w pc'.reachable n ∧ pc' ≠ .outside ∧
      tss'.deletions + pc'.deleting + tssDead pc.reachable n
        = tss.deletions + pc.deleting + tssDead pc'.reachable n ∧
      pc'.won + tss.deletions = pc.won + tss'.deletions := by
  cases pc with
  | outside => simp [TssDiscardPc.running] at hrun
  | returned result => simp [TssDiscardPc.running] at hrun
  | mark =>
      simp only [tssDiscardStep, bind_eq_ok, pure_eq_ok, Prod.mk.injEq] at h
      obtain ⟨-, -, rfl, rfl⟩ := h
      have hsole : (refcountWord w true n != refcountedTssReachable w) = decide (n ≠ 0) := by
        rw [refcountedTssReachable_eq, Bool.eq_iff_iff, bne_iff_ne, Ne,
          refcountWord_injective hn (Nat.two_pow_pos w)]
        simp
      have hclear : refcountWord w true n &&& ~~~refcountedTssReachable w = refcountWord w false n :=
        refcountWord_and_not_reachable
      simp only [hword, TssDiscardPc.reachable, hsole, hclear]
      by_cases hzero : n = 0
      · simp [hzero, TssDiscardPc.deleting, TssDiscardPc.won, tssDead]
      · simp [hzero, TssDiscardPc.deleting, TssDiscardPc.won, tssDead]
  | delete =>
      obtain ⟨rfl, rfl⟩ : tss.delete = tss' ∧ _ = pc' := by
        simpa [tssDiscardStep, pure_eq_ok] using h
      refine ⟨hword, by simp, rfl, ?_⟩
      simp [TssDiscardPc.won, RefcountedTss.delete]
      omega

/-- The only assertion that can fail is the one about the number of references. -/
theorem tssThreadStep_failsWith {assertions r : Bool} {n : ℕ} {tss : RefcountedTss w}
    {th : TssThread} (hword : tss.refcountAndReachability = refcountWord w r n)
    (hn : n < 2 ^ w) (href : th.references ≤ n) (hcons : th.consistent = true)
    (hacq : r = false → th.pc.acquiring = false) :
    FailsWith (fun f => f = .createOverflow ∧ th.references = 0 ∧ 2 ^ w ≤ n + 1)
      (tssThreadStep assertions tss th) := by
  obtain ⟨pc, slot⟩ := th
  have hzero := Nat.two_pow_pos w
  cases pc with
  | outside | acquireGet | createConstruct | createSet | releaseDelete | released =>
      simp [tssThreadStep]
  | acquireCheck =>
      have hbit : refcountWord w r n ||| refcountedTssReachable w != 0 := by
        rw [refcountWord_or_reachable, bne_iff_ne, Ne, refcountWord_eq_zero hn]
        simp
      simp only [tssThreadStep, hword, hbit, failsWith_bind, failsWith_assertion, failsWith_pure]
      simp
  | createAdd =>
      obtain rfl : r = true := by
        by_contra hr
        simpa [TssPc.acquiring] using hacq (by simpa using hr)
      have hbit : ∀ m, refcountWord w true m &&& refcountedTssReachable w ≠ 0 := by
        intro m
        rw [refcountWord_and_reachable, Ne, refcountWord_eq_zero hzero]
        simp
      have hroom : n + 1 < 2 ^ w →
          (refcountWord w true n + 1#(1 + w)) &&& refcountedTssReachable w ≠ 0 := by
        intro hlt
        rw [refcountWord_add_one hlt]
        exact hbit (n + 1)
      simp only [tssThreadStep, hword, failsWith_bind, failsWith_assertion, failsWith_pure]
      refine ⟨fun _ hfail => absurd hfail (by simpa using hbit n), fun _ _ => ⟨fun _ hfail => ?_, by simp⟩⟩
      refine ⟨trivial, rfl, ?_⟩
      by_contra hlt
      exact absurd hfail (by simpa using hroom (by omega))
  | createGet =>
      have hslot : slot = false := by simpa [TssThread.consistent] using hcons
      simp [tssThreadStep, hslot]
  | releaseGet =>
      have hslot : slot = false := by simpa [TssThread.consistent] using hcons
      simp [tssThreadStep, hslot]
  | releaseSub =>
      have hpos : n ≠ 0 := by
        intro h
        simp [TssThread.references, h] at href
      have hne : refcountWord w r n ≠ 0 := by
        rw [Ne, refcountWord_eq_zero hn]
        simp [hpos]
      simpa [tssThreadStep, hword] using fun _ => hne

theorem tssDiscardStep_failsWith {assertions : Bool} {n : ℕ} {tss : RefcountedTss w}
    {pc : TssDiscardPc} (hword : tss.refcountAndReachability = refcountWord w pc.reachable n) :
    FailsWith (fun _ => False) (tssDiscardStep assertions tss pc) := by
  cases pc with
  | outside | delete | returned => simp [tssDiscardStep]
  | mark =>
      have hbit : refcountWord w true n &&& refcountedTssReachable w ≠ 0 := by
        rw [refcountWord_and_reachable, Ne, refcountWord_eq_zero (Nat.two_pow_pos w)]
        simp
      simpa [tssDiscardStep, hword, TssDiscardPc.reachable] using fun _ => hbit

/-! ## The law of the slot -/

section

variable {Tid : Type} [DecidableEq Tid] [Fintype Tid]

/-- The references of all threads. -/
def TssState.references (s : TssState Tid w) : ℕ := ∑ t, (s.threads t).references

/-- The parties about to call `tss_delete`. -/
def TssState.deleting (s : TssState Tid w) : ℕ :=
  ∑ t, (s.threads t).deleting + s.discard.deleting

/-- The calls of `refcounted_tss_release` and `refcounted_tss_discard` that returned `true`. -/
def TssState.won (s : TssState Tid w) : ℕ := ∑ t, (s.threads t).won + s.discard.won

/-- The word says that no new slot can be made and that none is left. -/
def RefcountedTss.dead (tss : RefcountedTss w) : Bool :=
  tss.refcountAndReachability &&& refcountedTssReachable w == 0 &&
    tss.refcountAndReachability &&& ~~~refcountedTssReachable w == 0

/-- The discard has returned, and so has the release of every thread that made a slot. -/
def TssState.finished (s : TssState Tid w) : Prop :=
  (∃ result, s.discard = .returned result) ∧
    ∀ t, s.threads t = { pc := .outside, slot := false } ∨
      ∃ result, (s.threads t).pc = .released result

/-- The word counts the references, and the slot is deleted, or about to be, when it is dead. -/
structure TssLaw (s : TssState Tid w) : Prop where
  word : s.tss.refcountAndReachability = refcountWord w s.discard.reachable s.references
  fits : s.references < 2 ^ w
  consistent : ∀ t, (s.threads t).consistent = true
  acquired : s.discard ≠ .outside → ∀ t, (s.threads t).pc.acquiring = false
  owner : s.tss.deletions + s.deleting = tssDead s.discard.reachable s.references
  winner : s.won = s.tss.deletions
  aborted : ∀ f, s.aborted = some f → f = .createOverflow ∧ 2 ^ w ≤ Fintype.card Tid

omit [DecidableEq Tid] in
theorem TssLaw.start : TssLaw (TssState.start Tid w) :=
  { word := by simp [TssState.start, TssState.references, TssThread.references,
      TssDiscardPc.reachable, refcountedTssReachable_eq]
    fits := by simp [TssState.start, TssState.references, TssThread.references]
    consistent := fun _ => rfl
    acquired := fun h => absurd rfl h
    owner := by simp [TssState.start, TssState.deleting, TssThread.deleting, TssDiscardPc.deleting,
      tssDead, TssDiscardPc.reachable]
    winner := by simp [TssState.start, TssState.won, TssThread.won, TssDiscardPc.won]
    aborted := by simp [TssState.start] }

theorem TssThread.references_le_one (th : TssThread) : th.references ≤ 1 := by
  obtain ⟨pc, slot⟩ := th
  cases pc <;> cases slot <;> simp [TssThread.references]

omit [DecidableEq Tid] in
/-- A thread without a reference leaves room in the count. -/
theorem TssState.references_lt_card {s : TssState Tid w} {t : Tid}
    (ht : (s.threads t).references = 0) : s.references + 1 ≤ Fintype.card Tid := by
  have hlt : ∑ u, (s.threads u).references < ∑ _u : Tid, 1 :=
    Finset.sum_lt_sum (fun u _ => (s.threads u).references_le_one)
      ⟨t, Finset.mem_univ t, by omega⟩
  rw [Finset.sum_const, Finset.card_univ, nsmul_one] at hlt
  exact hlt

/-- A thread's move in the sums over all threads. -/
theorem TssLaw.move {s : TssState Tid w} {t : Tid} {n' : ℕ} {tss' : RefcountedTss w}
    {th' : TssThread} (hs : TssLaw s)
    (hacq : s.discard ≠ .outside → th'.pc.acquiring = false)
    (hmove : TssThreadMove s.discard.reachable s.references n' s.tss tss' (s.threads t) th') :
    TssLaw { s with tss := tss', threads := update s.threads t th' } := by
  have href := Threads.sum_update TssThread.references s.threads t th'
  have hdel := Threads.sum_update TssThread.deleting s.threads t th'
  have hwon := Threads.sum_update TssThread.won s.threads t th'
  have hsum : ∑ u, (update s.threads t th' u).references = n' := by
    have h := hmove.references
    simp only [TssState.references] at h
    omega
  have howner := hs.owner
  have hwinner := hs.winner
  have hdeletions := hmove.deletions
  have hgave := hmove.won
  simp only [TssState.deleting, TssState.won] at howner hwinner
  exact
    { word := by simpa only [TssState.references, hsum] using hmove.word
      fits := by simpa only [TssState.references, hsum] using hmove.fits
      consistent := Threads.forall_update
        (P := fun (_ : Tid) (th : TssThread) => th.consistent = true) hmove.consistent
        fun u _ => hs.consistent u
      acquired := fun hd => Threads.forall_update
        (P := fun (_ : Tid) (th : TssThread) => th.pc.acquiring = false) (hacq hd)
        fun u _ => hs.acquired hd u
      owner := by
        simp only [TssState.deleting, TssState.references, hsum]
        simp only [TssState.references] at howner hdeletions
        omega
      winner := by
        simp only [TssState.won]
        omega
      aborted := hs.aborted }

theorem TssLaw.step {assertions : Bool} (hroom : assertions = true ∨ Fintype.card Tid < 2 ^ w)
    (s : TssState Tid w) (e : TssEvent Tid) (s' : TssState Tid w) (hs : TssLaw s)
    (h : (refcountedTss assertions).step s e = some s') : TssLaw s' := by
  simp only [refcountedTss, tssStep] at h
  split at h
  · cases h
  cases e with
  | acquire t =>
      simp only [Option.ite_none_right_eq_some, Option.some.injEq] at h
      obtain ⟨⟨hpc, hd⟩, rfl⟩ := h
      refine hs.move (fun hne => absurd hd hne) (.keep hs.word hs.fits ?_ ?_ ?_ ?_)
      · simp [TssThread.references, hpc]
      · simp [TssThread.deleting, hpc]
      · simp [TssThread.won, hpc]
      · rfl
  | exit t =>
      simp only [Option.ite_none_right_eq_some, Option.some.injEq] at h
      obtain ⟨⟨hpc, hslot⟩, rfl⟩ := h
      refine hs.move (fun _ => rfl) (.keep hs.word hs.fits ?_ ?_ ?_ ?_)
      · simp [TssThread.references, hpc, hslot]
      · simp [TssThread.deleting, hpc]
      · simp [TssThread.won, hpc]
      · rfl
  | thread t =>
      simp only [Option.ite_none_right_eq_some] at h
      obtain ⟨-, h⟩ := h
      have hle : (s.threads t).references ≤ s.references :=
        Threads.le_sum TssThread.references s.threads t
      have hacq : s.discard.reachable = false → (s.threads t).pc.acquiring = false := fun hd =>
        hs.acquired (fun hout => by simp [hout, TssDiscardPc.reachable] at hd) t
      split at h
      case h_1 tss th hok =>
        obtain rfl := Option.some.inj h
        have hfree : assertions = true ∨ ((s.threads t).references = 0 →
            s.references + 1 < 2 ^ w) :=
          hroom.imp id fun hcard hzero => lt_of_le_of_lt (TssState.references_lt_card hzero) hcard
        obtain ⟨n', hmove⟩ :=
          tssThreadStep_ok hs.word hs.fits hle (hs.consistent t) hacq hfree hok
        exact hs.move (fun hd => tssThreadStep_acquiring (hs.acquired hd t) hok) hmove
      case h_2 f hfail =>
        obtain rfl := Option.some.inj h
        obtain ⟨rfl, hzero, hmax⟩ :=
          tssThreadStep_failsWith hs.word hs.fits hle (hs.consistent t) hacq f hfail
        exact { hs with
          aborted := fun f hf =>
            ⟨(Option.some.inj hf).symm, hmax.trans (TssState.references_lt_card hzero)⟩ }
  | discard =>
      simp only [Option.ite_none_right_eq_some, Option.some.injEq] at h
      obtain ⟨⟨hd, hquiet⟩, rfl⟩ := h
      exact
        { word := by simpa [hd, TssDiscardPc.reachable, TssState.references] using hs.word
          fits := hs.fits
          consistent := hs.consistent
          acquired := fun _ => hquiet
          owner := by simpa [hd, TssState.deleting, TssDiscardPc.deleting, TssDiscardPc.reachable,
            TssState.references] using hs.owner
          winner := by simpa [hd, TssState.won, TssDiscardPc.won] using hs.winner
          aborted := hs.aborted }
  | discarder =>
      simp only [Option.ite_none_right_eq_some] at h
      obtain ⟨hrun, h⟩ := h
      split at h
      case h_1 tss pc hok =>
        obtain rfl := Option.some.inj h
        obtain ⟨hword, -, hdel, hwon⟩ := tssDiscardStep_ok hs.word hs.fits hrun hok
        have hout : s.discard ≠ .outside := fun hout => by
          simp [hout, TssDiscardPc.running] at hrun
        have howner := hs.owner
        have hwinner := hs.winner
        simp only [TssState.deleting, TssState.won] at howner hwinner
        exact
          { word := hword
            fits := hs.fits
            consistent := hs.consistent
            acquired := fun _ => hs.acquired hout
            owner := by
              simp only [TssState.deleting, TssState.references] at howner hdel ⊢
              omega
            winner := by
              simp only [TssState.won]
              omega
            aborted := hs.aborted }
      case h_2 f hfail => exact absurd hfail (fun hfail => tssDiscardStep_failsWith hs.word f hfail)

theorem refcountWord_dead {tss : RefcountedTss w} {r : Bool} {n : ℕ}
    (hword : tss.refcountAndReachability = refcountWord w r n) (hn : n < 2 ^ w) :
    tss.dead = true ↔ r = false ∧ n = 0 := by
  rw [RefcountedTss.dead, hword, refcountWord_and_reachable, refcountWord_and_not_reachable,
    Bool.and_eq_true, beq_iff_eq, beq_iff_eq, refcountWord_eq_zero (Nat.two_pow_pos w),
    refcountWord_eq_zero hn]
  simp

/-- After the deletion no party has a step left. -/
theorem TssLaw.no_step_after_deletion {assertions : Bool} {s : TssState Tid w} (hs : TssLaw s)
    (hdel : s.tss.deletions ≠ 0) (e : TssEvent Tid) :
    (refcountedTss assertions).step s e = none := by
  have howner := hs.owner
  have hdead : s.discard.reachable = false ∧ s.references = 0 := by
    by_contra hlive
    rw [tssDead, if_neg hlive] at howner
    omega
  have hdeleting : s.deleting = 0 := by
    rw [tssDead, if_pos hdead] at howner
    omega
  rw [TssState.deleting, Nat.add_eq_zero_iff, Threads.sum_eq_zero TssThread.deleting] at hdeleting
  obtain ⟨hthreads, hdiscard⟩ := hdeleting
  have hrefs := (Threads.sum_eq_zero TssThread.references s.threads).mp hdead.2
  have hout : s.discard ≠ .outside := fun h => by simp [h, TssDiscardPc.reachable] at hdead
  have hquiet := hs.acquired hout
  have hdone : s.discard.running = false := by
    cases hd : s.discard with
    | outside => exact absurd hd hout
    | mark => simp [hd, TssDiscardPc.reachable] at hdead
    | delete => simp [hd, TssDiscardPc.deleting] at hdiscard
    | returned => rfl
  simp only [refcountedTss, tssStep]
  split
  · rfl
  cases e with
  | acquire t => exact if_neg fun h => hout h.2
  | exit t =>
      refine if_neg fun h => ?_
      have href := hrefs t
      simp [TssThread.references, h.1, h.2] at href
  | thread t =>
      refine if_neg fun hrun => ?_
      have href := hrefs t
      have hdelt := hthreads t
      have hacq := hquiet t
      cases hpc : (s.threads t).pc <;>
        simp [hpc, TssPc.running, TssPc.acquiring, TssThread.references, TssThread.deleting]
          at hrun href hdelt hacq
  | discard => exact if_neg fun h => hout h.1
  | discarder => exact if_neg (by simp [hdone])

/-- `tss_delete` is called at most once, by the call whose update of the word left the slot discarded
and without references; that call returns `true` and no other does; nothing happens to the slot
afterwards; and when all calls have returned the slot is deleted. -/
theorem refcounted_tss_law {assertions : Bool}
    (hroom : assertions = true ∨ Fintype.card Tid < 2 ^ w) {es : List (TssEvent Tid)}
    {s : TssState Tid w} (hrun : (refcountedTss assertions).run (TssState.start Tid w) es = some s) :
    (s.tss.deletions + s.deleting = if s.tss.dead then 1 else 0) ∧
      s.won = s.tss.deletions ∧
      (s.finished → s.tss.deletions = 1 ∧ s.won = 1) ∧
      (s.tss.deletions ≠ 0 → ∀ e, (refcountedTss assertions).step s e = none) ∧
      (∀ f, s.aborted = some f → f = .createOverflow ∧ 2 ^ w ≤ Fintype.card Tid) := by
  have hs : TssLaw s := Machine.invariant_of_run (TssLaw.step hroom) TssLaw.start hrun
  have howner := hs.owner
  have hdead := refcountWord_dead hs.word hs.fits
  refine ⟨?_, hs.winner, ?_, hs.no_step_after_deletion, hs.aborted⟩
  · rw [howner, tssDead]
    simp only [hdead]
  · rintro ⟨⟨result, hd⟩, hthreads⟩
    have hrefs : s.references = 0 := by
      refine (Threads.sum_eq_zero TssThread.references s.threads).mpr fun t => ?_
      obtain ht | ⟨result, ht⟩ := hthreads t
      · simp [ht, TssThread.references]
      · simp [ht, TssThread.references]
    have hdel : s.deleting = 0 := by
      rw [TssState.deleting, hd, Nat.add_eq_zero_iff, Threads.sum_eq_zero TssThread.deleting]
      refine ⟨fun t => ?_, rfl⟩
      obtain ht | ⟨result, ht⟩ := hthreads t
      · simp [ht, TssThread.deleting]
      · simp [ht, TssThread.deleting]
    have hone : s.tss.deletions = 1 := by
      simpa [hdel, hd, hrefs, tssDead, TssDiscardPc.reachable] using howner
    exact ⟨hone, by rw [hs.winner, hone]⟩

end

/-! ## A run of two threads -/

/-- Two threads make a slot; one exits before the discard, the other after it. -/
def twoExits : List (TssEvent (Fin 2)) :=
  (.acquire 0 :: List.replicate 6 (.thread 0)) ++ (.acquire 1 :: List.replicate 6 (.thread 1)) ++
    [.exit 0, .thread 0, .thread 0, .discard, .discarder, .exit 1, .thread 1, .thread 1, .thread 1]

/-- The second exit deletes the slot. -/
theorem refcounted_tss_law_twoExits :
    ∃ s : TssState (Fin 2) 63, (refcountedTss true).run (TssState.start (Fin 2) 63) twoExits = some s ∧
      s.tss.deletions = 1 ∧ s.won = 1 := by
  have hend : ((refcountedTss true).run (TssState.start (Fin 2) 63) twoExits).map
      (fun s => (decide (s.discard = .returned false), s.threads 0, s.threads 1)) =
        some (true, { pc := .released false, slot := false }, { pc := .released true, slot := false })
      := by
    decide +kernel
  obtain ⟨s, hrun, hs⟩ := Option.map_eq_some_iff.mp hend
  simp only [Prod.mk.injEq, decide_eq_true_eq] at hs
  obtain ⟨hd, h0, h1⟩ := hs
  refine ⟨s, hrun, (refcounted_tss_law (.inl rfl) hrun).2.2.1 ⟨⟨false, hd⟩, fun t => .inr ?_⟩⟩
  match t with
  | 0 => exact ⟨false, by rw [h0]⟩
  | 1 => exact ⟨true, by rw [h1]⟩

end Udipe

import Udipe.Lib.Ownership
import Udipe.Lib.Typestate

/-!
# The storage of distributions and its owners

Reference: `benchmark/distribution_pool.c`, `benchmark/distribution.c`.

Each allocation is an empty builder, a builder with values or a distribution, and belongs to a
variable or to a slot of the pool. An operation consumes what its arguments own, as the
documentation of the operations has it: after an assignment from one variable to another it is the
other one that owns the allocation, and a use of the first one would be a failure. What a variable
owns is lost when the variable is overwritten or goes out of scope.

The values of a distribution play no part. Where `malloc` puts an allocation is up to the
environment.
-/

namespace Udipe

open Typestate

/-- The stages of an allocation: a builder without and with values, and a distribution. -/
inductive StorageStage where
  | empty
  | filled
  | built
deriving DecidableEq, Repr

/-- The variables and fields that own distributions while the clocks are calibrated. The filter and
the analyzer have three, the clocks one each, and the rest are local variables. -/
inductive DistributionVar where
  | lastScores
  | lastRejections
  | resampleBuilder
  | bestEmptyChanges
  | frequencies
  | builder
  | newDist
  | resample
  | prevDurations
  | currDurations
  | currChanges
  | prevChanges
  | predictedChanges
  | changesDiff
  | baseTicks
  | doubleTicks
  | changeTicks
  | tmpDurations
deriving DecidableEq, Repr

/-- The flags on which the calibration branches. -/
inductive CalibrationFlag where
  | scoresAreBuilt
  | rejectionsAreBuilt
  | inAffineRange
deriving DecidableEq, Repr

/-- An owner of an allocation. -/
inductive DistributionOwner where
  | var (v : DistributionVar)
  /-- `pool->builders[i]`. -/
  | slot (i : ℕ)
deriving DecidableEq, Repr

/-- The allocation that each owner has, the stage of each allocation, the pool's length and
capacity, and the flags. An address that has no stage is not allocated. -/
structure DistributionMemory where
  held : DistributionOwner → Option ℕ
  stage : ℕ → Option StorageStage
  length : ℕ
  capacity : ℕ
  flag : CalibrationFlag → Bool

/-- A use of an allocation that is not what it should be, or an assertion of the pool. -/
inductive OwnershipFailure where
  | notADistribution
  | notABuilder
  | notAnEmptyBuilder
  | noAllocation
  | poolAssertion
deriving DecidableEq, Repr

/-- The operations on distributions. -/
inductive DistributionInstr where
  /-- `dst = distribution_initialize()`, and `distribution_allocate` for storage without values. -/
  | allocate (dst : DistributionVar)
  /-- `dst = distribution_pool_request(pool)`. -/
  | request (dst : DistributionVar)
  /-- `distribution_pool_recycle(pool, &src)`. -/
  | recycle (src : DistributionVar)
  /-- `dst = distribution_reset(&src)`. -/
  | reset (dst src : DistributionVar)
  /-- `dst = distribution_build(&src)`. -/
  | build (dst src : DistributionVar)
  /-- `dst = distribution_clone(&src)`. -/
  | clone (dst src : DistributionVar)
  /-- `distribution_insert(&dst, ..)` into storage that has room for it. -/
  | insert (dst : DistributionVar)
  /-- `distribution_finalize(&src)`. -/
  | free (src : DistributionVar)
  /-- A read of a distribution. -/
  | use (src : DistributionVar)
  /-- `ensure(distribution_empty(&src))`. -/
  | ensureEmpty (src : DistributionVar)
  /-- `ensure(!distribution_empty(&src))`. -/
  | ensureFilled (src : DistributionVar)
  /-- `dst = src`. -/
  | move (dst src : DistributionVar)
  /-- `distribution_poison` of a variable, or the end of the scope of some. -/
  | forget (vars : List DistributionVar)
  | assign (f : CalibrationFlag) (value : Bool)
deriving DecidableEq, Repr

namespace DistributionMemory

variable (m : DistributionMemory)

/-- The stage of what a variable owns, if it owns something. -/
def stageOf (v : DistributionVar) : Option StorageStage :=
  (m.held (.var v)).bind m.stage

/-- What a variable owns reaches a stage. -/
def setStage (v : DistributionVar) (stage : StorageStage) : DistributionMemory :=
  match m.held (.var v) with
  | some r => { m with stage := Function.update m.stage r (some stage) }
  | none => m

/-- One owner hands what it has to another one. -/
def handOver (src dst : DistributionOwner) : DistributionMemory :=
  { m with held := Function.update (Function.update m.held src none) dst (m.held src) }

/-- A variable is overwritten. -/
def clear (v : DistributionVar) : DistributionMemory :=
  { m with held := Function.update m.held (.var v) none }

/-- A new allocation at an address that is not allocated. -/
def acquire (dst : DistributionVar) (stage : StorageStage) (address : ℕ) :
    Option (Except OwnershipFailure DistributionMemory) :=
  match m.stage address with
  | some _ => none
  | none => some (.ok { m with
      held := Function.update m.held (.var dst) (some address)
      stage := Function.update m.stage address (some stage) })

/-- `distribution_pool_request`. -/
def request (dst : DistributionVar) (address : ℕ) :
    Option (Except OwnershipFailure DistributionMemory) :=
  if 1 ≤ m.length then
    some (.ok { m.handOver (.slot (m.length - 1)) (.var dst) with length := m.length - 1 })
  else m.acquire dst .empty address

/-- `distribution_pool_recycle`. -/
def recycle (src : DistributionVar) : Except OwnershipFailure DistributionMemory :=
  let capacity := if m.length = m.capacity then 2 * m.capacity else m.capacity
  if ¬ (0 < m.capacity ∧ m.length ≤ m.capacity ∧ m.length < capacity) then .error .poolAssertion
  else if m.stageOf src ≠ some .built then .error .notADistribution
  else
    .ok { (m.setStage src .empty).handOver (.var src) (.slot m.length) with
      length := m.length + 1
      capacity := capacity }

end DistributionMemory

open DistributionMemory in
/-- What an instruction does. -/
def DistributionInstr.exec (i : DistributionInstr) (address : ℕ) (m : DistributionMemory) :
    Option (Except OwnershipFailure DistributionMemory) :=
  match i with
  | allocate dst => m.acquire dst .empty address
  | request dst => m.request dst address
  | recycle src => some (m.recycle src)
  | reset dst src =>
      if m.stageOf src ≠ some .built then some (.error .notADistribution)
      else some (.ok ((m.setStage src .empty).handOver (.var src) (.var dst)))
  | build dst src =>
      if m.stageOf src ≠ some .filled then some (.error .notABuilder)
      else some (.ok ((m.setStage src .built).handOver (.var src) (.var dst)))
  | clone dst src =>
      if m.stageOf src ≠ some .built then some (.error .notADistribution)
      else m.acquire dst .built address
  | insert dst =>
      if m.stageOf dst ≠ some .empty ∧ m.stageOf dst ≠ some .filled then some (.error .notABuilder)
      else some (.ok (m.setStage dst .filled))
  | free src =>
      if m.stageOf src = none then some (.error .noAllocation)
      else some (.ok { m with
        held := Function.update m.held (.var src) none
        stage := Owned.without m.stage (m.held (.var src)) })
  | use src =>
      if m.stageOf src ≠ some .built then some (.error .notADistribution) else some (.ok m)
  | ensureEmpty src =>
      if m.stageOf src ≠ some .empty then some (.error .notAnEmptyBuilder) else some (.ok m)
  | ensureFilled src =>
      if m.stageOf src ≠ some .filled then some (.error .notABuilder) else some (.ok m)
  | move dst src =>
      if m.stageOf src = none then some (.error .noAllocation)
      else some (.ok (m.handOver (.var src) (.var dst)))
  | forget vars => some (.ok (vars.foldl clear m))
  | assign f value => some (.ok { m with flag := Function.update m.flag f value })

/-! ## The law of the storage -/

/-- A slot of the pool has an empty builder, a variable anything. -/
def DistributionOwner.Fits : DistributionOwner → StorageStage → Prop
  | .slot _, stage => stage = .empty
  | .var _, _ => True

/-- Each allocation has exactly one owner, the pool has empty builders below its length and nothing
above. -/
structure DistributionMemory.Lawful (m : DistributionMemory) : Prop where
  owned : Owned DistributionOwner.Fits m.held m.stage
  covered : Covered m.held m.stage
  slots : ∀ i, m.held (.slot i) = none ↔ m.length ≤ i
  room : 0 < m.capacity ∧ m.length ≤ m.capacity

/-! ## Following the stages -/

/-- What each variable owns, and the flags. -/
structure StageTable where
  stage : DistributionVar → Option StorageStage
  flag : CalibrationFlag → Bool

namespace StageTable

variable (t : StageTable)

/-- A variable owns something else, or nothing. -/
def set (v : DistributionVar) (stage : Option StorageStage) : StageTable :=
  { t with stage := Function.update t.stage v stage }

/-- `src` hands what it has to `dst`, which had nothing, at a new stage. -/
def handOver (src dst : DistributionVar) (stage : StorageStage) : Option StageTable :=
  if dst = src ∨ t.stage dst = none then some ((t.set src none).set dst (some stage)) else none

/-- A variable that had nothing gets something. -/
def acquire (dst : DistributionVar) (stage : StorageStage) : Option StageTable :=
  if t.stage dst = none then some (t.set dst (some stage)) else none

end StageTable

/-- What an instruction does to the stages, if nothing is lost by it. -/
def DistributionInstr.transfer (i : DistributionInstr) (t : StageTable) : Option StageTable :=
  match i with
  | allocate dst => t.acquire dst .empty
  | request dst => t.acquire dst .empty
  | recycle src => if t.stage src = some .built then some (t.set src none) else none
  | reset dst src => if t.stage src = some .built then t.handOver src dst .empty else none
  | build dst src => if t.stage src = some .filled then t.handOver src dst .built else none
  | clone dst src => if t.stage src = some .built then t.acquire dst .built else none
  | insert dst =>
      if t.stage dst = some .empty ∨ t.stage dst = some .filled then some (t.set dst (some .filled))
      else none
  | free src => if t.stage src = none then none else some (t.set src none)
  | use src => if t.stage src = some .built then some t else none
  | ensureEmpty src => if t.stage src = some .empty then some t else none
  | ensureFilled src => if t.stage src = some .filled then some t else none
  | move dst src =>
      match t.stage src with
      | some stage => t.handOver src dst stage
      | none => none
  | forget vars => if vars.all fun v => (t.stage v).isNone then some t else none
  | assign f value => some { t with flag := Function.update t.flag f value }

/-! ## The stages are followed correctly -/

/-- The memory is lawful, and the table says what each variable owns. -/
structure DistributionMemory.Has (m : DistributionMemory) (t : StageTable) : Prop where
  lawful : m.Lawful
  stages : ∀ v, m.stageOf v = t.stage v
  flags : m.flag = t.flag

section

variable {m m' : DistributionMemory} {t t' : StageTable} {v src dst : DistributionVar}
  {stage : StorageStage} {address : ℕ} {vars : List DistributionVar}

theorem StageTable.set_self (t : StageTable) (v : DistributionVar)
    (a : Option StorageStage) : (t.set v a).stage v = a :=
  Function.update_self ..

theorem StageTable.set_of_ne (t : StageTable) {v w : DistributionVar} (h : w ≠ v)
    (a : Option StorageStage) : (t.set v a).stage w = t.stage w :=
  Function.update_of_ne h ..

theorem StageTable.set_set (t : StageTable) (v : DistributionVar)
    (a b : Option StorageStage) : (t.set v a).set v b = t.set v b := by
  simp [StageTable.set]

namespace DistributionMemory

theorem stageOf_eq_some :
    m.stageOf v = some stage ↔ ∃ r, m.held (.var v) = some r ∧ m.stage r = some stage := by
  simp [stageOf, Option.bind_eq_some_iff]

theorem Lawful.stageOf_eq_none (h : m.Lawful) : m.stageOf v = none ↔ m.held (.var v) = none := by
  constructor
  · intro hnone
    cases hheld : m.held (.var v) with
    | none => rfl
    | some r =>
        obtain ⟨stage, hstage, -⟩ := h.owned.valid _ r hheld
        rw [stageOf, hheld, Option.bind_some, hstage] at hnone
        cases hnone
  · intro hheld
    rw [stageOf, hheld, Option.bind_none]

/-- What another variable owns is not touched by a change to an allocation of this one. -/
theorem Lawful.held_ne (h : m.Lawful) {o o' : DistributionOwner} {r : ℕ} (ho : m.held o = some r)
    (hne : o' ≠ o) : m.held o' ≠ some r :=
  fun ho' => hne (h.owned.exclusive _ _ r ho' ho)

theorem handOver_held_self {o o' : DistributionOwner} : (m.handOver o o').held o' = m.held o :=
  Function.update_self ..

theorem handOver_held_of_ne {o o' k : DistributionOwner} (ho' : k ≠ o') (ho : k ≠ o) :
    (m.handOver o o').held k = m.held k :=
  (Function.update_of_ne ho' ..).trans (Function.update_of_ne ho ..)

theorem handOver_held_src {o o' : DistributionOwner} (hne : o ≠ o') :
    (m.handOver o o').held o = none :=
  (Function.update_of_ne hne ..).trans (Function.update_self ..)

theorem update_slot (held : DistributionOwner → Option ℕ) (v : DistributionVar) (a : Option ℕ)
    (i : ℕ) : Function.update held (.var v) a (.slot i) = held (.slot i) :=
  Function.update_of_ne (by simp) ..

theorem update_var {v w : DistributionVar} (held : DistributionOwner → Option ℕ) (a : Option ℕ)
    (h : w ≠ v) : Function.update held (.var v) a (.var w) = held (.var w) :=
  Function.update_of_ne (by simpa) ..

/-- A variable that is not the holder of a resource does not see what becomes of it. -/
theorem Lawful.stageOf_update (h : m.Lawful) {o : DistributionOwner} {r : ℕ}
    (ho : m.held o = some r) (hne : .var v ≠ o) (a : Option StorageStage) :
    (m.held (.var v)).bind (Function.update m.stage r a) = m.stageOf v := by
  have hother := h.held_ne ho hne
  rw [stageOf]
  cases hv : m.held (.var v) with
  | none => rfl
  | some q =>
      refine Function.update_of_ne ?_ ..
      rintro rfl
      exact hother hv

/-- A variable that goes out of scope owns nothing then, and no other owner is affected. -/
theorem held_of_foldl_clear {o : DistributionOwner} {r : ℕ}
    (h : (vars.foldl clear m).held o = some r) : m.held o = some r ∧ ∀ v ∈ vars, o ≠ .var v := by
  induction vars generalizing m with
  | nil => exact ⟨h, by simp⟩
  | cons v vars ih =>
      obtain ⟨hclear, hrest⟩ := ih h
      have hne : o ≠ .var v := by
        rintro rfl
        have hnone : (m.clear v).held (.var v) = none := Function.update_self ..
        rw [hnone] at hclear
        cases hclear
      exact ⟨(Function.update_of_ne hne ..).symm.trans hclear, List.forall_mem_cons.mpr
        ⟨hne, hrest⟩⟩

theorem foldl_clear_stage (vars : List DistributionVar) (m : DistributionMemory) :
    (vars.foldl clear m).stage = m.stage := by
  induction vars generalizing m with
  | nil => rfl
  | cons v vars ih => exact ih (m.clear v)

namespace Has

variable (h : m.Has t)
include h

theorem held_none (hv : t.stage v = none) : m.held (.var v) = none :=
  h.lawful.stageOf_eq_none.mp ((h.stages v).trans hv)

/-- A variable that owns something brings it to another stage. -/
theorem setStage (hv : t.stage v ≠ none) (stage : StorageStage) :
    (m.setStage v stage).Has (t.set v (some stage)) := by
  obtain ⟨old, hold⟩ := Option.ne_none_iff_exists'.mp hv
  obtain ⟨r, hheld, -⟩ := stageOf_eq_some.mp ((h.stages v).trans hold)
  have hset : m.setStage v stage = { m with stage := Function.update m.stage r (some stage) } := by
    rw [DistributionMemory.setStage, hheld]
  rw [hset]
  refine ⟨⟨h.lawful.owned.modify ?_, h.lawful.covered.modify hheld, h.lawful.slots, h.lawful.room⟩,
    fun w => ?_, h.flags⟩
  · intro o ho
    obtain rfl := h.lawful.owned.exclusive _ _ r ho hheld
    exact trivial
  · rcases eq_or_ne w v with rfl | hne
    · rw [StageTable.set_self, stageOf, hheld]
      exact Function.update_self ..
    · rw [StageTable.set_of_ne _ hne, ← h.stages w]
      exact h.lawful.stageOf_update hheld (by simpa) _

/-- A variable hands what it has to one that has nothing. -/
theorem handOver (hsrc : t.stage src = some stage) (hdst : dst = src ∨ t.stage dst = none) :
    (m.handOver (.var src) (.var dst)).Has ((t.set src none).set dst (some stage)) := by
  have hfree : DistributionOwner.var dst = .var src ∨ m.held (.var dst) = none :=
    hdst.imp (congrArg _) h.held_none
  refine ⟨⟨h.lawful.owned.transfer _ _ fun _ _ _ _ _ => trivial, h.lawful.covered.transfer hfree,
    fun i => ?_, h.lawful.room⟩, fun w => ?_, h.flags⟩
  · rw [handOver_held_of_ne (by simp) (by simp)]
    exact h.lawful.slots i
  · rcases eq_or_ne w dst with rfl | hne
    · rw [StageTable.set_self, ← hsrc, ← h.stages src, stageOf, handOver_held_self]
      rfl
    · rw [StageTable.set_of_ne _ hne, stageOf]
      rcases eq_or_ne w src with rfl | hne'
      · rw [StageTable.set_self, handOver_held_src (by simpa)]
        rfl
      · rw [StageTable.set_of_ne _ hne', handOver_held_of_ne (by simpa) (by simpa)]
        exact h.stages w

/-- A variable that owns nothing gets a new allocation. -/
theorem acquire (hdst : t.stage dst = none) (stage : StorageStage)
    {outcome : Except OwnershipFailure DistributionMemory}
    (hacquire : m.acquire dst stage address = some outcome) :
    ∃ m', outcome = .ok m' ∧ m'.Has (t.set dst (some stage)) := by
  rw [DistributionMemory.acquire] at hacquire
  split at hacquire
  · cases hacquire
  rename_i hfresh
  obtain rfl := Option.some.inj hacquire
  refine ⟨_, rfl, ⟨h.lawful.owned.acquire hfresh trivial,
    h.lawful.covered.acquire (h.held_none hdst), fun i => ?_, h.lawful.room⟩, fun w => ?_, h.flags⟩
  · dsimp only
    rw [update_slot]
    exact h.lawful.slots i
  · rcases eq_or_ne w dst with rfl | hne
    · simp [StageTable.set_self, stageOf]
    · rw [StageTable.set_of_ne _ hne, ← h.stages w, stageOf, stageOf]
      dsimp only
      rw [update_var _ _ hne]
      cases hw : m.held (.var w) with
      | none => rfl
      | some q =>
          obtain ⟨s, hs, -⟩ := h.lawful.owned.valid _ q hw
          refine Function.update_of_ne ?_ ..
          rintro rfl
          rw [hfresh] at hs
          cases hs

/-- The variables of a scope that own nothing go out of it. -/
theorem forget (hvars : ∀ v ∈ vars, t.stage v = none) :
    (vars.foldl DistributionMemory.clear m).Has t := by
  induction vars generalizing m with
  | nil => exact h
  | cons v vars ih =>
      have hnone := h.held_none (hvars v List.mem_cons_self)
      have hclear : m.clear v = m := by
        rw [DistributionMemory.clear, ← hnone, Function.update_eq_self]
      rw [List.foldl_cons, hclear]
      exact ih h fun w hw => hvars w (List.mem_cons_of_mem v hw)

/-- A variable destroys what it owns. -/
theorem free (hsrc : t.stage src ≠ none) :
    Has { m with
      held := Function.update m.held (.var src) none
      stage := Owned.without m.stage (m.held (.var src)) } (t.set src none) := by
  obtain ⟨old, hold⟩ := Option.ne_none_iff_exists'.mp hsrc
  obtain ⟨r, hheld, -⟩ := stageOf_eq_some.mp ((h.stages src).trans hold)
  refine ⟨⟨h.lawful.owned.release _, h.lawful.covered.release, fun i => ?_, h.lawful.room⟩,
    fun w => ?_, h.flags⟩
  · dsimp only
    rw [update_slot]
    exact h.lawful.slots i
  · rcases eq_or_ne w src with rfl | hne
    · simp [StageTable.set_self, stageOf]
    · rw [StageTable.set_of_ne _ hne, ← h.stages w, stageOf]
      dsimp only
      rw [update_var _ _ hne, hheld]
      exact h.lawful.stageOf_update hheld (by simpa) none

/-- The pool takes an emptied distribution. -/
theorem push (hsrc : t.stage src = some .empty) (capacity : ℕ)
    (hroom : 0 < capacity ∧ m.length + 1 ≤ capacity) :
    Has { m.handOver (.var src) (.slot m.length) with length := m.length + 1, capacity := capacity }
      (t.set src none) := by
  have hfree : m.held (.slot m.length) = none := (h.lawful.slots _).mpr (Nat.le_refl _)
  obtain ⟨r, hheld, hstage⟩ := stageOf_eq_some.mp ((h.stages src).trans hsrc)
  refine ⟨⟨h.lawful.owned.transfer _ _ ?_, h.lawful.covered.transfer (.inr hfree), fun i =>
    ?_, hroom⟩, fun w => ?_, h.flags⟩
  · intro q d hq hd _
    obtain rfl := Option.some.inj (hheld.symm.trans hq)
    exact Option.some.inj (hd.symm.trans hstage)
  · show (m.handOver (.var src) (.slot m.length)).held (.slot i) = none ↔ m.length + 1 ≤ i
    rcases eq_or_ne i m.length with rfl | hne
    · rw [handOver_held_self, hheld]
      simp
    · rw [handOver_held_of_ne (by simpa) (by simp), h.lawful.slots i]
      omega
  · show ((m.handOver (.var src) (.slot m.length)).held (.var w)).bind m.stage =
      (t.set src none).stage w
    rcases eq_or_ne w src with rfl | hne
    · rw [handOver_held_src (by simp), StageTable.set_self]
      rfl
    · rw [handOver_held_of_ne (by simp) (by simpa), StageTable.set_of_ne _ hne]
      exact h.stages w

/-- The pool hands out its last builder. -/
theorem pop (hdst : t.stage dst = none) (hlength : 1 ≤ m.length) :
    Has { m.handOver (.slot (m.length - 1)) (.var dst) with length := m.length - 1 }
      (t.set dst (some .empty)) := by
  have hsome : m.held (.slot (m.length - 1)) ≠ none :=
    (h.lawful.slots _).not.mpr (by omega)
  obtain ⟨r, hheld⟩ := Option.ne_none_iff_exists'.mp hsome
  obtain ⟨_, hstage, rfl⟩ := h.lawful.owned.valid _ r hheld
  refine ⟨⟨h.lawful.owned.transfer _ _ fun _ _ _ _ _ => trivial,
    h.lawful.covered.transfer (.inr (h.held_none hdst)), fun i => ?_, ?_⟩, fun w => ?_, h.flags⟩
  · show (m.handOver (.slot (m.length - 1)) (.var dst)).held (.slot i) = none ↔ m.length - 1 ≤ i
    rcases eq_or_ne i (m.length - 1) with rfl | hne
    · rw [handOver_held_src (by simp)]
      simp
    · rw [handOver_held_of_ne (by simp) (by simpa), h.lawful.slots i]
      omega
  · exact ⟨h.lawful.room.1, Nat.le_trans (Nat.sub_le _ _) h.lawful.room.2⟩
  · show ((m.handOver (.slot (m.length - 1)) (.var dst)).held (.var w)).bind m.stage =
      (t.set dst (some .empty)).stage w
    rcases eq_or_ne w dst with rfl | hne
    · rw [handOver_held_self, hheld, StageTable.set_self]
      exact hstage
    · rw [handOver_held_of_ne (by simpa) (by simp), StageTable.set_of_ne _ hne]
      exact h.stages w

/-- A scope that ends while one of its variables owns something loses it. -/
theorem forget_leaks (hv : v ∈ vars) (hstage : t.stage v ≠ none) :
    ¬ (vars.foldl DistributionMemory.clear m).Lawful := by
  obtain ⟨stage, hsome⟩ := Option.ne_none_iff_exists'.mp hstage
  obtain ⟨r, hheld, hr⟩ := stageOf_eq_some.mp ((h.stages v).trans hsome)
  intro hlawful
  obtain ⟨o, ho⟩ := hlawful.covered r stage ((congrFun (foldl_clear_stage vars m) r).trans hr)
  obtain ⟨hold, hne⟩ := held_of_foldl_clear ho
  exact hne v hv (h.lawful.owned.exclusive _ _ r hold hheld)

end Has

end DistributionMemory

open DistributionMemory

theorem StageTable.acquire_eq_some :
    t.acquire dst stage = some t' ↔ t.stage dst = none ∧ t' = t.set dst (some stage) := by
  simp [StageTable.acquire, eq_comm]

theorem StageTable.handOver_eq_some :
    t.handOver src dst stage = some t' ↔
      (dst = src ∨ t.stage dst = none) ∧ t' = (t.set src none).set dst (some stage) := by
  simp [StageTable.handOver, eq_comm]

/-- Bringing an allocation to a stage and handing it over. -/
theorem DistributionMemory.Has.advance (h : m.Has t) (hsrc : t.stage src ≠ none)
    (hmove : t.handOver src dst stage = some t') :
    ((m.setStage src stage).handOver (.var src) (.var dst)).Has t' := by
  obtain ⟨hdst, rfl⟩ := StageTable.handOver_eq_some.mp hmove
  have hset := h.setStage hsrc stage
  have hfree : dst = src ∨ (t.set src (some stage)).stage dst = none := by
    rcases eq_or_ne dst src with rfl | hne
    · exact .inl rfl
    · exact .inr ((StageTable.set_of_ne t hne _).trans (hdst.resolve_left hne))
  have hmoved := hset.handOver (StageTable.set_self t src _) hfree
  rwa [StageTable.set_set] at hmoved

/-- The pool takes a distribution back. -/
theorem DistributionMemory.Has.recycle (h : m.Has t) (hsrc : t.stage src = some .built) :
    ∃ m', m.recycle src = .ok m' ∧ m'.Has (t.set src none) := by
  have hroom := h.lawful.room
  have hset := h.setStage (by rw [hsrc]; simp) .empty (v := src)
  have hsame : (m.setStage src .empty).length = m.length := by
    rw [DistributionMemory.setStage]
    split <;> rfl
  have hcapacity : 0 < (if m.length = m.capacity then 2 * m.capacity else m.capacity) ∧
      m.length + 1 ≤ (if m.length = m.capacity then 2 * m.capacity else m.capacity) := by
    split <;> omega
  have hpush := hset.push (StageTable.set_self t src _) _ (hsame ▸ hcapacity)
  rw [StageTable.set_set, hsame] at hpush
  refine ⟨_, ?_, hpush⟩
  rw [DistributionMemory.recycle]
  dsimp only
  rw [if_neg (not_not.mpr ⟨hroom.1, hroom.2, by omega⟩), if_neg
    (not_not.mpr ((h.stages src).trans hsrc))]

/-- The pool gives an empty builder. -/
theorem DistributionMemory.Has.request {outcome : Except OwnershipFailure DistributionMemory}
    (h : m.Has t) (hdst : t.stage dst = none) (hrequest : m.request dst address = some outcome) :
    ∃ m', outcome = .ok m' ∧ m'.Has (t.set dst (some .empty)) := by
  rw [DistributionMemory.request] at hrequest
  split at hrequest
  · rename_i hlength
    obtain rfl := Option.some.inj hrequest
    exact ⟨_, rfl, h.pop hdst hlength⟩
  · exact h.acquire hdst .empty hrequest

/-- `distribution_pool_request` gives an empty builder that no variable has, and that only the
variable it goes to has then. -/
theorem DistributionMemory.Has.request_exclusive (h : m.Has t) (hdst : t.stage dst = none)
    (hrequest : m.request dst address = some (.ok m')) :
    ∃ r, m'.held (.var dst) = some r ∧ m'.stage r = some .empty ∧ (∀ v, m.held (.var v) ≠ some r) ∧
      ∀ o, m'.held o = some r → o = .var dst := by
  obtain ⟨_, ⟨⟩, h'⟩ := h.request hdst hrequest
  obtain ⟨r, hheld, hstage⟩ := stageOf_eq_some.mp ((h'.stages dst).trans (StageTable.set_self ..))
  refine ⟨r, hheld, hstage, fun v hv => ?_, fun o ho => h'.lawful.owned.exclusive _ _ r ho hheld⟩
  -- the variable would still have the builder
  have hne : v ≠ dst := by
    rintro rfl
    rw [h.held_none hdst] at hv
    cases hv
  have hkept : m'.held (.var v) = some r := by
    rw [DistributionMemory.request] at hrequest
    split at hrequest
    · obtain ⟨⟩ := hrequest
      exact (handOver_held_of_ne (by simpa) (by simp)).trans hv
    · rw [DistributionMemory.acquire] at hrequest
      split at hrequest
      · cases hrequest
      · obtain ⟨⟩ := hrequest
        exact (update_var _ _ hne).trans hv
  have hsame := h'.lawful.owned.exclusive _ _ r hkept hheld
  exact hne (DistributionOwner.var.inj hsame)

/-- An instruction that loses nothing does not fail, and the stages after it are those computed. -/
theorem DistributionInstr.exec_has {i : DistributionInstr}
    {outcome : Except OwnershipFailure DistributionMemory} (h : m.Has t)
    (htransfer : i.transfer t = some t') (hexec : i.exec address m = some outcome) :
    ∃ m', outcome = .ok m' ∧ m'.Has t' := by
  -- an instruction that checks the stage of a variable finds it
  have hchecked : ∀ {v s} {fail go : Option (Except OwnershipFailure DistributionMemory)},
      t.stage v = some s → (if m.stageOf v ≠ some s then fail else go) = some outcome →
        go = some outcome := fun hv hif => by
    rwa [if_neg (not_not.mpr ((h.stages _).trans hv))] at hif
  cases i with
  | allocate dst =>
      obtain ⟨hdst, rfl⟩ := StageTable.acquire_eq_some.mp htransfer
      exact h.acquire hdst .empty hexec
  | request dst =>
      obtain ⟨hdst, rfl⟩ := StageTable.acquire_eq_some.mp htransfer
      exact h.request hdst hexec
  | recycle src =>
      obtain ⟨hsrc, htransfer⟩ := Option.ite_none_right_eq_some.mp htransfer
      obtain rfl := Option.some.inj htransfer
      obtain rfl := Option.some.inj hexec
      exact h.recycle hsrc
  | reset dst src =>
      obtain ⟨hsrc, htransfer⟩ := Option.ite_none_right_eq_some.mp htransfer
      obtain rfl := Option.some.inj (hchecked hsrc hexec)
      exact ⟨_, rfl, h.advance (by rw [hsrc]; simp) htransfer⟩
  | build dst src =>
      obtain ⟨hsrc, htransfer⟩ := Option.ite_none_right_eq_some.mp htransfer
      obtain rfl := Option.some.inj (hchecked hsrc hexec)
      exact ⟨_, rfl, h.advance (by rw [hsrc]; simp) htransfer⟩
  | clone dst src =>
      obtain ⟨hsrc, htransfer⟩ := Option.ite_none_right_eq_some.mp htransfer
      obtain ⟨hdst, rfl⟩ := StageTable.acquire_eq_some.mp htransfer
      exact h.acquire hdst .built (hchecked hsrc hexec)
  | insert dst =>
      obtain ⟨hdst, htransfer⟩ := Option.ite_none_right_eq_some.mp htransfer
      obtain rfl := Option.some.inj htransfer
      rw [exec, if_neg (by rw [h.stages]; tauto)] at hexec
      obtain rfl := Option.some.inj hexec
      exact ⟨_, rfl, h.setStage (by rintro hnone; simp [hnone] at hdst) .filled⟩
  | free src =>
      obtain ⟨hsrc, htransfer⟩ := Option.ite_none_left_eq_some.mp htransfer
      obtain rfl := Option.some.inj htransfer
      rw [exec, if_neg (by rwa [h.stages])] at hexec
      obtain rfl := Option.some.inj hexec
      exact ⟨_, rfl, h.free hsrc⟩
  | use src =>
      obtain ⟨hsrc, htransfer⟩ := Option.ite_none_right_eq_some.mp htransfer
      obtain rfl := Option.some.inj htransfer
      obtain rfl := Option.some.inj (hchecked hsrc hexec)
      exact ⟨m, rfl, h⟩
  | ensureEmpty src =>
      obtain ⟨hsrc, htransfer⟩ := Option.ite_none_right_eq_some.mp htransfer
      obtain rfl := Option.some.inj htransfer
      obtain rfl := Option.some.inj (hchecked hsrc hexec)
      exact ⟨m, rfl, h⟩
  | ensureFilled src =>
      obtain ⟨hsrc, htransfer⟩ := Option.ite_none_right_eq_some.mp htransfer
      obtain rfl := Option.some.inj htransfer
      obtain rfl := Option.some.inj (hchecked hsrc hexec)
      exact ⟨m, rfl, h⟩
  | move dst src =>
      simp only [transfer] at htransfer
      split at htransfer
      · rename_i stage hsrc
        obtain ⟨hdst, rfl⟩ := StageTable.handOver_eq_some.mp htransfer
        rw [exec, if_neg (by rw [h.stages, hsrc]; simp)] at hexec
        obtain rfl := Option.some.inj hexec
        exact ⟨_, rfl, h.handOver hsrc hdst⟩
      · cases htransfer
  | forget vars =>
      obtain ⟨hvars, htransfer⟩ := Option.ite_none_right_eq_some.mp htransfer
      obtain rfl := Option.some.inj htransfer
      obtain rfl := Option.some.inj hexec
      refine ⟨_, rfl, h.forget fun v hv => ?_⟩
      exact Option.isNone_iff_eq_none.mp (List.all_eq_true.mp hvars v hv)
  | assign f value =>
      obtain rfl := Option.some.inj htransfer
      obtain rfl := Option.some.inj hexec
      exact ⟨_, rfl, ⟨⟨h.lawful.owned, h.lawful.covered, h.lawful.slots, h.lawful.room⟩, h.stages,
        congrArg (Function.update · f value) h.flags⟩⟩

end

end Udipe

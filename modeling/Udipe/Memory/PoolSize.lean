import Udipe.Lib.RoundUp
import Udipe.Memory.BufferLaw

/-!
# The size of the memory pool

Reference: `buffer.c`, `memory.c`.

The buffer size is rounded up to a page and multiplied by the buffer count, and the pool is rounded
up to what the system allocates, all modulo `2 ^ 64`. The pool holds the buffers exactly when the
requested size is below a bound that depends on the count.
-/

namespace Udipe

open Checked

/-- The cache of one CPU of the thread: its size, and the number of cores that share it. The bounds
are asserted where the size is queried. -/
structure CacheShare where
  size : ℕ
  weight : ℕ
  size_lt : size < sizeMax
  weight_pos : 0 < weight

/-- `smallest_cache_capacity`, given the cache of each CPU of the thread. -/
def smallestCacheCapacity (caches : List CacheShare) : ℕ :=
  let minSize := caches.foldl (fun minSize cache =>
    let cacheSize := cache.size / cache.weight
    if cacheSize < minSize then cacheSize else minSize) sizeMax
  wrapSize (8 * minSize) / 10

/-- `allocation_size`. -/
def allocationSize (allocationGranularity size : ℕ) : ℕ :=
  let trailingBytes := size % allocationGranularity
  if trailingBytes ≠ 0 then wrapSize (size + (allocationGranularity - trailingBytes)) else size

/-- The size that `realtime_allocate` asks the system for. -/
def realtimeAllocationSize (allocationGranularity size : ℕ) : Except BufferFailure ℕ := do
  ensure (decide (0 < size)) .emptyAllocation
  pure (allocationSize allocationGranularity size)

/-- `buffer_allocator_initialize` up to the allocation: the configuration and the size of the
pool. -/
def allocatedPool (pageSize allocationGranularity l1Share l2Share : ℕ) (config : BufferConfig) :
    Except BufferFailure (BufferConfig × ℕ) := do
  let config ← finishConfiguration pageSize l1Share l2Share config
  let poolSize := wrapSize (config.bufferSize * config.bufferCount)
  let bytes ← realtimeAllocationSize allocationGranularity poolSize
  pure (config, bytes)

/-- The buffer size before it is rounded up. -/
def BufferConfig.requestedSize (config : BufferConfig) (l1Share : ℕ) : ℕ :=
  if config.bufferSize = 0 then l1Share else config.bufferSize

/-- No operation overflows or divides by zero, and what is allocated has room for every buffer. -/
structure PoolHoldsBuffers (pageSize allocationGranularity l1Share l2Share : ℕ)
    (config : BufferConfig) :
    Prop where
  rounding : roundUp pageSize (config.requestedSize l1Share) < 2 ^ 64
  division : finishConfiguration pageSize l1Share l2Share config ≠ .error .divisionByZero
  product : ∀ finished, finishConfiguration pageSize l1Share l2Share config = .ok finished →
    finished.bufferSize * finished.bufferCount < 2 ^ 64
  room : ∀ finished bytes,
    allocatedPool pageSize allocationGranularity l1Share l2Share config = .ok (finished, bytes) →
      finished.bufferSize * finished.bufferCount ≤ bytes ∧
        ∀ i < finished.bufferCount, i * finished.bufferSize + finished.bufferSize ≤ bytes

/-- The requested size leaves room for the buffers in the address space. By default there has to be
a size to divide by; without a second level cache there are then no buffers. -/
def BufferConfig.FitsAddressSpace (pageSize allocationGranularity l1Share l2Share : ℕ)
    (config : BufferConfig) : Prop :=
  if config.bufferCount = 0 then
    0 < config.requestedSize l1Share ∧
      config.requestedSize l1Share
        ≤ 2 ^ 64 - (if l2Share = 0 then pageSize else allocationGranularity)
  else
    config.requestedSize l1Share
      ≤ pageSize * ((2 ^ 64 - allocationGranularity) / (config.bufferCount * pageSize))

variable {pageSize granularity l1Share l2Share : ℕ} {config : BufferConfig}

/-! ## What the operations compute -/

theorem smallestCacheCapacity_le (caches : List CacheShare) :
    smallestCacheCapacity caches ≤ (2 ^ 64 - 1) / 10 := by
  have hwrap := Nat.mod_lt (8 * (caches.foldl (fun minSize cache =>
    if cache.size / cache.weight < minSize then cache.size / cache.weight else minSize) sizeMax))
    (show 0 < 2 ^ 64 by decide)
  exact Nat.div_le_div_right (by unfold wrapSize; omega)

theorem finishBufferSize_eq (h : 0 < pageSize) (hsize : config.requestedSize l1Share < 2 ^ 64) :
    finishBufferSize pageSize l1Share config
      = wrapSize (roundUp pageSize (config.requestedSize l1Share)) := by
  rw [roundUp_eq h]
  change (if config.requestedSize l1Share % pageSize ≠ 0 then _ else _) = _
  split
  · rfl
  · exact (Nat.mod_eq_of_lt hsize).symm

theorem allocationSize_eq (h : 0 < granularity) {size : ℕ} (hsize : size < 2 ^ 64) :
    allocationSize granularity size = roundUp granularity size % 2 ^ 64 := by
  rw [roundUp_eq h]
  simp only [allocationSize]
  split
  · rfl
  · exact (Nat.mod_eq_of_lt hsize).symm

/-- A pool that does not overflow. -/
theorem allocatedPool_eq {finished : BufferConfig} (h : 0 < granularity)
    (hfinished : finishConfiguration pageSize l1Share l2Share config = .ok finished)
    (hproduct : finished.bufferSize * finished.bufferCount < 2 ^ 64) :
    allocatedPool pageSize granularity l1Share l2Share config
      = if 0 < finished.bufferSize * finished.bufferCount then
          .ok (finished, roundUp granularity (finished.bufferSize * finished.bufferCount) % 2 ^ 64)
        else .error .emptyAllocation := by
  rw [allocatedPool, hfinished, ok_bind, wrapSize, Nat.mod_eq_of_lt hproduct]
  simp only [realtimeAllocationSize, ensure, decide_eq_true_eq, allocationSize_eq h hproduct]
  split
  · rfl
  · rfl

theorem defaultBufferCount_eq {bufferSize : ℕ} (h : 0 < bufferSize) :
    defaultBufferCount l2Share bufferSize = min (l2Share ⌈/⌉ bufferSize) udipeMaxBuffers := by
  rw [ceilDiv_eq h]
  rfl

/-- The default pool is the share of the second level, or one buffer where that is larger. -/
theorem mul_defaultBufferCount_le {bufferSize : ℕ} (h : 0 < bufferSize)
    (hshare : 2 * l2Share ≤ 2 ^ 63) {bound : ℕ} (hsize : bufferSize ≤ bound)
    (hbound : 2 ^ 63 ≤ bound) :
    bufferSize * defaultBufferCount l2Share bufferSize ≤ bound := by
  have hle : bufferSize * defaultBufferCount l2Share bufferSize ≤ roundUp bufferSize l2Share := by
    rw [defaultBufferCount_eq h]
    exact Nat.mul_le_mul_left _ (min_le_left ..)
  refine hle.trans ?_
  rcases Nat.lt_or_ge bufferSize l2Share with hlt | hge
  · have := roundUp_lt h l2Share
    omega
  · exact ((roundUp_le_iff h dvd_rfl).mpr hge).trans hsize

theorem defaultBufferCount_pos {bufferSize : ℕ} (h : 0 < bufferSize) (hshare : 0 < l2Share) :
    0 < defaultBufferCount l2Share bufferSize := by
  rw [defaultBufferCount_eq h, lt_min_iff]
  refine ⟨?_, by decide⟩
  by_contra hzero
  rw [Nat.not_lt, ceilDiv_le_iff_le_mul h] at hzero
  omega

variable (l2Share) in
/-- A configuration of which the rounded size does not overflow. -/
theorem finishConfiguration_eq (h : 0 < pageSize)
    (hround : roundUp pageSize (config.requestedSize l1Share) < 2 ^ 64) :
    finishConfiguration pageSize l1Share l2Share config
      = if config.bufferCount = 0 then
          if config.requestedSize l1Share = 0 then .error .divisionByZero
          else .ok ⟨roundUp pageSize (config.requestedSize l1Share),
            defaultBufferCount l2Share (roundUp pageSize (config.requestedSize l1Share))⟩
        else if config.bufferCount ≤ udipeMaxBuffers then
          .ok ⟨roundUp pageSize (config.requestedSize l1Share), config.bufferCount⟩
        else .error .tooManyBuffers := by
  have hle := le_roundUp h (config.requestedSize l1Share)
  have hsize : finishBufferSize pageSize l1Share config
      = roundUp pageSize (config.requestedSize l1Share) := by
    rw [finishBufferSize_eq h (by omega), wrapSize, Nat.mod_eq_of_lt hround]
  have hzero : roundUp pageSize (config.requestedSize l1Share) = 0 ↔
    config.requestedSize l1Share = 0 := by
    rw [← Nat.le_zero, roundUp_le_iff h (dvd_zero _), Nat.le_zero]
  simp only [finishConfiguration, hsize, ensure, bne_iff_ne, ne_eq, hzero, decide_eq_true_eq]
  split
  · by_cases hne : config.requestedSize l1Share = 0
    · rw [if_neg (not_not.mpr hne), if_pos hne]
      rfl
    · rw [if_pos hne, if_neg hne]
      rfl
  · split
    · rfl
    · rfl

/-! ## When the pool holds the buffers -/

/-- The pool of a configuration of which the rounded size does not overflow. -/
theorem poolHoldsBuffers_iff_of_eq_ok {finished : BufferConfig} (h : 0 < granularity)
    (hdvd : granularity ∣ 2 ^ 64)
    (hround : roundUp pageSize (config.requestedSize l1Share) < 2 ^ 64)
    (hfinished : finishConfiguration pageSize l1Share l2Share config = .ok finished) :
    PoolHoldsBuffers pageSize granularity l1Share l2Share config ↔
      finished.bufferSize * finished.bufferCount ≤ 2 ^ 64 - granularity := by
  constructor
  · intro hholds
    have hproduct := hholds.product finished hfinished
    rcases Nat.eq_zero_or_pos (finished.bufferSize * finished.bufferCount) with hzero | hpos
    · rw [hzero]
      exact Nat.zero_le _
    · have hpool := allocatedPool_eq h hfinished hproduct
      rw [if_pos hpos] at hpool
      exact (le_roundUp_mod_iff h hdvd hpos hproduct).mp (hholds.room _ _ hpool).1
  · intro hle
    have hgranularity : granularity ≤ 2 ^ 64 := Nat.le_of_dvd (by decide) hdvd
    have hproduct : finished.bufferSize * finished.bufferCount < 2 ^ 64 := by omega
    refine ⟨hround, by rw [hfinished]; simp, fun finished' h' =>
      ?_, fun finished' bytes hpool => ?_⟩
    · rw [hfinished, Except.ok.injEq] at h'
      exact h' ▸ hproduct
    · rw [allocatedPool_eq h hfinished hproduct] at hpool
      split at hpool
      · rename_i hpos
        simp only [Except.ok.injEq, Prod.mk.injEq] at hpool
        obtain ⟨rfl, rfl⟩ := hpool
        have hbytes := (le_roundUp_mod_iff h hdvd hpos hproduct).mpr hle
        refine ⟨hbytes, fun i hi => le_trans ?_ hbytes⟩
        -- buffer `i` ends where buffer `i + 1` starts
        rw [← Nat.succ_mul, Nat.mul_comm finished.bufferSize]
        exact Nat.mul_le_mul_right _ hi
      · cases hpool

/-- The pool with the default number of buffers. -/
theorem poolHoldsBuffers_iff_default (hpage : pageSize ∣ granularity) (hgran : granularity ∣ 2 ^ 64)
    (hle : granularity ≤ 2 ^ 63) (hshare : 2 * l2Share ≤ 2 ^ 63) (hcount : config.bufferCount = 0) :
    PoolHoldsBuffers pageSize granularity l1Share l2Share config ↔
      0 < config.requestedSize l1Share ∧
        config.requestedSize l1Share
          ≤ 2 ^ 64 - (if l2Share = 0 then pageSize else granularity) := by
  have hgranPos : 0 < granularity := Nat.pos_of_dvd_of_pos hgran (by decide)
  have hpagePos : 0 < pageSize := Nat.pos_of_dvd_of_pos hpage hgranPos
  have hpageLe := Nat.le_of_dvd hgranPos hpage
  have hlast := roundUp_lt_iff (n := config.requestedSize l1Share) hpagePos (hpage.trans hgran)
    (by decide)
  have hrounds := roundUp_le_iff (n := config.requestedSize l1Share) hpagePos
    (Nat.dvd_sub (hpage.trans hgran) hpage)
  constructor
  · intro hholds
    have hfinish := finishConfiguration_eq l2Share hpagePos hholds.rounding
    rw [if_pos hcount] at hfinish
    have hne : config.requestedSize l1Share ≠ 0 := fun hzero =>
      hholds.division (hfinish.trans (if_pos hzero))
    rw [if_neg hne] at hfinish
    refine ⟨Nat.pos_of_ne_zero hne, ?_⟩
    split
    · exact hlast.mp hholds.rounding
    · rename_i hpos
      have hproduct := (poolHoldsBuffers_iff_of_eq_ok hgranPos hgran hholds.rounding hfinish).mp
        hholds
      have hsize := (Nat.pos_of_ne_zero hne).trans_le
        (le_roundUp hpagePos (config.requestedSize l1Share))
      rw [← hrounds]
      exact (Nat.le_mul_of_pos_right _
        (defaultBufferCount_pos hsize (Nat.pos_of_ne_zero hpos))).trans hproduct
  · rintro ⟨hpos, hbound⟩
    have hround : roundUp pageSize (config.requestedSize l1Share) < 2 ^ 64 := by
      rw [hlast]
      split at hbound <;> omega
    have hfinish := finishConfiguration_eq l2Share hpagePos hround
    rw [if_pos hcount, if_neg hpos.ne'] at hfinish
    rw [poolHoldsBuffers_iff_of_eq_ok hgranPos hgran hround hfinish]
    have hsize := hpos.trans_le (le_roundUp hpagePos (config.requestedSize l1Share))
    rcases Nat.eq_zero_or_pos l2Share with rfl | hsharePos
    · rw [defaultBufferCount_eq hsize, zero_ceilDiv, Nat.zero_min, Nat.mul_zero]
      exact Nat.zero_le _
    · rw [if_neg hsharePos.ne', ← hrounds] at hbound
      exact mul_defaultBufferCount_le hsize hshare hbound (by omega)

/-- The pool with the number of buffers that is asked for. -/
theorem poolHoldsBuffers_iff_count (hpage : pageSize ∣ granularity) (hgran : granularity ∣ 2 ^ 64)
    (hcount : config.bufferCount ≠ 0) (hmax : config.bufferCount ≤ udipeMaxBuffers) :
    PoolHoldsBuffers pageSize granularity l1Share l2Share config ↔
      config.requestedSize l1Share
        ≤ pageSize * ((2 ^ 64 - granularity) / (config.bufferCount * pageSize)) := by
  have hgranPos : 0 < granularity := Nat.pos_of_dvd_of_pos hgran (by decide)
  have hpagePos : 0 < pageSize := Nat.pos_of_dvd_of_pos hpage hgranPos
  rw [← mul_roundUp_le_iff hpagePos (Nat.pos_of_ne_zero hcount)]
  have hfinish : roundUp pageSize (config.requestedSize l1Share) < 2 ^ 64 →
      finishConfiguration pageSize l1Share l2Share config
        = .ok ⟨roundUp pageSize (config.requestedSize l1Share), config.bufferCount⟩ :=
        fun hround => by
    rw [finishConfiguration_eq _ hpagePos hround, if_neg hcount, if_pos hmax]
  constructor
  · intro hholds
    have hround := hholds.rounding
    exact (poolHoldsBuffers_iff_of_eq_ok hgranPos hgran hround (hfinish hround)).mp hholds
  · intro hproduct
    have hround : roundUp pageSize (config.requestedSize l1Share) < 2 ^ 64 := by
      have := Nat.le_mul_of_pos_right (roundUp pageSize (config.requestedSize l1Share))
        (Nat.pos_of_ne_zero hcount)
      omega
    exact (poolHoldsBuffers_iff_of_eq_ok hgranPos hgran hround (hfinish hround)).mpr hproduct

/-- The pool has room for its buffers, and nothing overflows on the way to it, exactly when the
requested size is below the bound. -/
theorem poolHoldsBuffers_iff {k m : ℕ} (hkm : k ≤ m) (hm : m < 64)
    (l1Caches l2Caches : List CacheShare)
    (haccepted : finishConfiguration (2 ^ k) (smallestCacheCapacity l1Caches)
    (smallestCacheCapacity l2Caches)
      config ≠ .error .tooManyBuffers) :
    PoolHoldsBuffers (2 ^ k) (2 ^ m) (smallestCacheCapacity l1Caches)
    (smallestCacheCapacity l2Caches) config ↔
      config.FitsAddressSpace (2 ^ k) (2 ^ m) (smallestCacheCapacity l1Caches)
        (smallestCacheCapacity l2Caches) := by
  have hpage : 2 ^ k ∣ 2 ^ m := Nat.pow_dvd_pow 2 hkm
  have hgran : 2 ^ m ∣ 2 ^ 64 := Nat.pow_dvd_pow 2 hm.le
  unfold BufferConfig.FitsAddressSpace
  split
  · rename_i hdefault
    have hle : 2 ^ m ≤ 2 ^ 63 := Nat.pow_le_pow_right (by decide) (by omega)
    have hshare := smallestCacheCapacity_le l2Caches
    exact poolHoldsBuffers_iff_default hpage hgran hle (by omega) hdefault
  · rename_i hcount
    have hmax : config.bufferCount ≤ udipeMaxBuffers := by
      by_contra hmore
      refine haccepted ?_
      rw [finishConfiguration, if_neg hcount, ensure, decide_eq_false hmore]
      rfl
    exact poolHoldsBuffers_iff_count hpage hgran hcount hmax

/-- An allocator that has been set up has a pool of the size that `allocatedPool` computes. -/
theorem allocatedPool_of_initialize {assertions : Bool} {address : ℕ} {a : BufferAllocator}
    (granularity : ℕ) (h :
    bufferAllocatorInitialize assertions pageSize l1Share l2Share address config = .ok a) :
    ∃ bytes, allocatedPool pageSize granularity l1Share l2Share config = .ok (a.config, bytes) := by
  obtain ⟨finished, hfinished, h⟩ := bind_eq_ok.mp h
  obtain ⟨memoryPool, hpool, h⟩ := bind_eq_ok.mp h
  obtain ⟨_, -, h⟩ := bind_eq_ok.mp h
  obtain ⟨availability, -, h⟩ := bind_eq_ok.mp h
  obtain rfl := pure_eq_ok.mp h
  obtain ⟨_, hpositive, -⟩ := bind_eq_ok.mp hpool
  refine ⟨allocationSize granularity (wrapSize (finished.bufferSize * finished.bufferCount)), ?_⟩
  rw [allocatedPool, hfinished, ok_bind]
  simp only [realtimeAllocationSize]
  rw [hpositive]
  rfl

/-- Every buffer of an allocator whose configuration fits lies in its pool. -/
theorem buffers_inside_pool {assertions : Bool} {address : ℕ} {a : BufferAllocator}
    (hholds : PoolHoldsBuffers pageSize granularity l1Share l2Share config)
    (h : bufferAllocatorInitialize assertions pageSize l1Share l2Share address config = .ok a) :
    ∃ bytes, allocatedPool pageSize granularity l1Share l2Share config = .ok (a.config, bytes) ∧
      ∀ i < a.config.bufferCount,
        a.memoryPool ≤ a.address i ∧ a.address i + a.config.bufferSize ≤ a.memoryPool + bytes := by
  obtain ⟨bytes, hbytes⟩ := allocatedPool_of_initialize granularity h
  refine ⟨bytes, hbytes, fun i hi => ?_⟩
  have hroom := (hholds.room _ _ hbytes).2 i hi
  unfold BufferAllocator.address
  omega

instance : Decidable (config.FitsAddressSpace pageSize granularity l1Share l2Share) :=
  inferInstanceAs (Decidable (if config.bufferCount = 0 then
    0 < config.requestedSize l1Share ∧
      config.requestedSize l1Share ≤ 2 ^ 64 - (if l2Share = 0 then pageSize else granularity)
    else config.requestedSize l1Share ≤ pageSize *
      ((2 ^ 64 - granularity) / (config.bufferCount * pageSize))))

/-- A first level of 32 KiB. -/
def firstLevel : CacheShare := ⟨2 ^ 15, 1, by decide, by decide⟩

/-- A second level of 2 MiB that two cores share. -/
def secondLevel : CacheShare := ⟨2 ^ 21, 2, by decide, by decide⟩

/-- The defaults fit. -/
theorem poolHoldsBuffers_iff_defaults :
    PoolHoldsBuffers (2 ^ 12) (2 ^ 12) (smallestCacheCapacity [firstLevel])
      (smallestCacheCapacity [secondLevel]) ⟨0, 0⟩ :=
  (poolHoldsBuffers_iff le_rfl (by decide) [firstLevel] [secondLevel] (by decide)).mpr (by decide)

/-- Sixty-four buffers that are a page larger than a sixty-fourth of the address space. -/
def wrappingConfig : BufferConfig := ⟨2 ^ 58 + 4096, 64⟩

/-- Of a pool of more than `2 ^ 64` bytes, 256 KiB are allocated. -/
theorem wrappingConfig_overflows :
    allocatedPool (2 ^ 12) (2 ^ 12) (smallestCacheCapacity [firstLevel])
    (smallestCacheCapacity [secondLevel])
        wrappingConfig = .ok (wrappingConfig, 2 ^ 18) ∧
      ¬ PoolHoldsBuffers (2 ^ 12) (2 ^ 12) (smallestCacheCapacity [firstLevel])
        (smallestCacheCapacity [secondLevel]) wrappingConfig := by
  have hfinish : finishConfiguration (2 ^ 12) (smallestCacheCapacity [firstLevel])
      (smallestCacheCapacity [secondLevel]) wrappingConfig = .ok wrappingConfig := by decide
  refine ⟨by decide, fun hholds => ?_⟩
  exact absurd (hholds.product _ hfinish) (by decide)

end Udipe

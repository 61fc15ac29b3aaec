import Udipe.Lib.Machine
import Udipe.Memory.BitRanges
import Udipe.Memory.BitSearch

/-!
# The buffer allocator

Reference: `buffer.c`, `buffer.h`, `memory.c`.

A pool of equally sized buffers, and a bit array with a set bit for each of them that is available. The hardware
query and the system's allocator are parameters. Addresses are numbers, 0 is the null pointer.
-/

namespace Udipe

open Checked PackedBits

/-- `UDIPE_MAX_BUFFERS`. -/
def udipeMaxBuffers : ℕ := 64

/-- `udipe_buffer_config_t`. -/
structure BufferConfig where
  bufferSize : ℕ
  bufferCount : ℕ
deriving DecidableEq, Repr

/-- `buffer_allocator_t`. -/
structure BufferAllocator where
  memoryPool : ℕ
  config : BufferConfig
  bufferAvailability : List Word
deriving DecidableEq

/-- The checks of the allocator and of what it calls. -/
inductive BufferFailure where
  | bitArray (failure : BitArrayFailure)
  | divisionByZero
  | tooManyBuffers
  | emptyAllocation
  | noMemoryPool
  | notInPool
  | notABuffer
  | noBufferCount
  | alreadyAvailable
deriving DecidableEq, Repr

/-- A value of type `size_t`. -/
def wrapSize (n : ℕ) : ℕ := n % 2 ^ 64

/-- The buffer size of `finish_configuration`: the share of the first level by default, rounded up to a multiple
of the page size. -/
def finishBufferSize (pageSize l1Share : ℕ) (config : BufferConfig) : ℕ :=
  let bufferSize := if config.bufferSize = 0 then l1Share else config.bufferSize
  let pageRemainder := bufferSize % pageSize
  if pageRemainder ≠ 0 then wrapSize (bufferSize + (pageSize - pageRemainder)) else bufferSize

/-- The default buffer count of `finish_configuration`: what fits the share of the second level. -/
def defaultBufferCount (l2Share bufferSize : ℕ) : ℕ :=
  let bufferCount := l2Share / bufferSize + if l2Share % bufferSize ≠ 0 then 1 else 0
  if bufferCount ≤ udipeMaxBuffers then bufferCount else udipeMaxBuffers

/-- `finish_configuration`, given the shares of the caches of the first two levels. -/
def finishConfiguration (pageSize l1Share l2Share : ℕ) (config : BufferConfig) :
    Except BufferFailure BufferConfig := do
  let bufferSize := finishBufferSize pageSize l1Share config
  if config.bufferCount = 0 then
    ensure (bufferSize != 0) .divisionByZero
    pure ⟨bufferSize, defaultBufferCount l2Share bufferSize⟩
  else
    ensure (decide (config.bufferCount ≤ udipeMaxBuffers)) .tooManyBuffers
    pure ⟨bufferSize, config.bufferCount⟩

/-- `realtime_allocate`, given the address that the system returns. -/
def realtimeAllocate (address size : ℕ) : Except BufferFailure ℕ := do
  ensure (decide (0 < size)) .emptyAllocation
  pure address

variable (assertions : Bool)

/-- The two fills that make the first `bufferCount` buffers available. -/
def initializeAvailability (availability : List Word) (bufferCount : ℕ) :
    Except BitArrayFailure (List Word) := do
  let buffersEnd ← indexToBitPos assertions bufferCount
  let availability ←
    bitArrayRangeSet assertions availability udipeMaxBuffers bitArrayStart buffersEnd true
  let poolEnd ← bitArrayEnd assertions udipeMaxBuffers
  bitArrayRangeSet assertions availability udipeMaxBuffers buffersEnd poolEnd false

/-- `buffer_allocator_initialize`, once the configuration has been obtained. -/
def bufferAllocatorInitialize (pageSize l1Share l2Share address : ℕ) (config : BufferConfig) :
    Except BufferFailure BufferAllocator := do
  let config ← finishConfiguration pageSize l1Share l2Share config
  let poolSize := wrapSize (config.bufferSize * config.bufferCount)
  let memoryPool ← realtimeAllocate address poolSize
  ensure (memoryPool != 0) .noMemoryPool
  let cleared := List.replicate (bitArrayWords udipeMaxBuffers) 0
  let availability ←
    (initializeAvailability assertions cleared config.bufferCount).mapError .bitArray
  pure ⟨memoryPool, config, availability⟩

/-- `buffer_allocate`: the buffer, or none when the result is null. -/
def bufferAllocate (a : BufferAllocator) : Except BufferFailure (Option ℕ × BufferAllocator) := do
  assertion assertions (decide (0 < a.config.bufferCount)) .noBufferCount
  let bufferBit ←
    (bitArrayFindFirst assertions a.bufferAvailability udipeMaxBuffers true).mapError .bitArray
  if bufferBit.word = sizeMax then pure (none, a)
  else
    let availability ←
      (bitArraySet assertions a.bufferAvailability udipeMaxBuffers bufferBit false).mapError .bitArray
    let bufferIdx ← (bitPosToIndex assertions bufferBit).mapError .bitArray
    let bufferOffset := wrapSize (bufferIdx * a.config.bufferSize)
    assertion assertions (a.memoryPool != 0) .noMemoryPool
    pure (some (a.memoryPool + bufferOffset), { a with bufferAvailability := availability })

/-- The assertion of `buffer_liberate` about the bit of the buffer. -/
def assertNotAvailable (a : BufferAllocator) (bufferBit : BitPos) : Except BufferFailure Unit :=
  if assertions then do
    let available ←
      (bitArrayGet assertions a.bufferAvailability udipeMaxBuffers bufferBit).mapError .bitArray
    ensure (!available) .alreadyAvailable
  else pure ()

/-- `buffer_liberate`. -/
def bufferLiberate (a : BufferAllocator) (buffer : ℕ) : Except BufferFailure BufferAllocator := do
  assertion assertions (a.memoryPool != 0) .noMemoryPool
  assertion assertions (decide (a.memoryPool ≤ buffer)) .notInPool
  let bufferOffset := buffer - a.memoryPool
  assertion assertions (decide (0 < a.config.bufferSize)) .notABuffer
  assertion assertions (bufferOffset % a.config.bufferSize == 0) .notABuffer
  ensure (a.config.bufferSize != 0) .divisionByZero
  let bufferIdx := bufferOffset / a.config.bufferSize
  assertion assertions (decide (0 < a.config.bufferCount)) .noBufferCount
  assertion assertions (decide (bufferIdx < a.config.bufferCount)) .notInPool
  let bufferBit ← (indexToBitPos assertions bufferIdx).mapError .bitArray
  assertNotAvailable assertions a bufferBit
  let availability ←
    (bitArraySet assertions a.bufferAvailability udipeMaxBuffers bufferBit true).mapError .bitArray
  pure { a with bufferAvailability := availability }

/-! ## The allocator and its users -/

/-- An allocator, the buffers that have been allocated and not yet liberated, what the last `buffer_allocate`
returned, and the check that has failed. -/
structure BufferState where
  allocator : BufferAllocator
  live : List ℕ
  result : Option ℕ
  failure : Option BufferFailure

/-- One call. -/
inductive BufferEvent where
  | allocate
  | liberate (buffer : ℕ)
deriving DecidableEq, Repr

/-- The effect of a call; `none` when it cannot happen. Only a live buffer is liberated, and nothing follows a
failure. -/
def bufferStep (s : BufferState) (e : BufferEvent) : Option BufferState :=
  if s.failure.isSome then none
  else match e with
  | .allocate =>
      match bufferAllocate assertions s.allocator with
      | .error f => some { s with failure := some f }
      | .ok (buffer, allocator) =>
          some { s with allocator := allocator, live := buffer.toList ++ s.live, result := buffer }
  | .liberate buffer =>
      if buffer ∈ s.live then
        match bufferLiberate assertions s.allocator buffer with
        | .error f => some { s with failure := some f }
        | .ok allocator => some { s with allocator := allocator, live := s.live.erase buffer }
      else none

/-- The machine of one buffer allocator. -/
def bufferPool : Machine BufferState BufferEvent where
  step := bufferStep assertions

/-- An allocator of which no buffer has been allocated. -/
def BufferState.start (allocator : BufferAllocator) : BufferState := ⟨allocator, [], none, none⟩

end Udipe

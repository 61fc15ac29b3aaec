import Udipe.Memory.Buffer

/-!
# Live buffers and available ones

A bit of the availability array is set exactly when it stands for a buffer of the pool that is not live. Each call
keeps this law.
-/

namespace Udipe

open Checked PackedBits

variable {assertions : Bool} {a : BufferAllocator} {live : List ℕ}

/-- Buffer number `i`. -/
def BufferAllocator.address (a : BufferAllocator) (i : ℕ) : ℕ := a.memoryPool + i * a.config.bufferSize

/-- Buffer number `i` is available. -/
def BufferAllocator.Available (a : BufferAllocator) (i : ℕ) : Prop := bitAt a.bufferAvailability i = true

/-- The law of an allocator and its live buffers. -/
structure BufferLaw (a : BufferAllocator) (live : List ℕ) : Prop where
  size : a.bufferAvailability.length = bitArrayWords udipeMaxBuffers
  pool_ne : a.memoryPool ≠ 0
  size_pos : 0 < a.config.bufferSize
  count_pos : 0 < a.config.bufferCount
  count_le : a.config.bufferCount ≤ udipeMaxBuffers
  fits : a.config.bufferSize * a.config.bufferCount < 2 ^ 64
  nodup : live.Nodup
  available_iff : ∀ i < udipeMaxBuffers, a.Available i ↔ i < a.config.bufferCount ∧ a.address i ∉ live
  live_mem : ∀ b ∈ live, ∃ i < a.config.bufferCount, b = a.address i

theorem udipeMaxBuffers_lt : udipeMaxBuffers < sizeMax := by decide

/-! ## Initialization -/

theorem defaultBufferCount_le (l2Share bufferSize : ℕ) :
    defaultBufferCount l2Share bufferSize ≤ udipeMaxBuffers := by
  unfold defaultBufferCount
  generalize l2Share / bufferSize + (if l2Share % bufferSize ≠ 0 then 1 else 0) = bufferCount
  dsimp only
  split
  · assumption
  · exact le_rfl

theorem finishConfiguration_count {pageSize l1Share l2Share : ℕ} {config finished : BufferConfig}
    (h : finishConfiguration pageSize l1Share l2Share config = .ok finished) :
    finished.bufferCount ≤ udipeMaxBuffers := by
  unfold finishConfiguration at h
  split at h
  · obtain ⟨_, -, h⟩ := bind_eq_ok.mp h
    obtain rfl := pure_eq_ok.mp h
    exact defaultBufferCount_le _ _
  · obtain ⟨_, hcount, h⟩ := bind_eq_ok.mp h
    obtain rfl := pure_eq_ok.mp h
    exact of_decide_eq_true (ensure_eq_ok.mp hcount)

/-- The two fills make the first buffers available, and only them. -/
theorem initializeAvailability_spec (assertions : Bool) {words : List Word} {count : ℕ}
    (hsize : words.length = bitArrayWords udipeMaxBuffers) (hcount : count ≤ udipeMaxBuffers) :
    ∃ words', initializeAvailability assertions words count = .ok words' ∧
      words'.length = words.length ∧
      ∀ i < udipeMaxBuffers, (bitAt words' i = true ↔ i < count) := by
  have hmax := udipeMaxBuffers_lt
  -- the first fill sets the bits below the count, the second one clears the others
  obtain ⟨words₁, hfirst, hlen₁, hbits₁⟩ := bitArrayRangeSet_spec assertions hsize hmax.le
    (Nat.zero_le count) hcount true
  obtain ⟨words₂, hsecond, hlen₂, hbits₂⟩ := bitArrayRangeSet_spec assertions (hlen₁.trans hsize) hmax.le
    hcount le_rfl false
  refine ⟨words₂, ?_, hlen₂.trans hlen₁, fun i hi => ?_⟩
  · rw [initializeAvailability, indexToBitPos_eq (by omega), ok_bind]
    change (bitArrayRangeSet assertions words udipeMaxBuffers (bitPos 0) (bitPos count) true >>= _) = _
    rw [hfirst, ok_bind, bitArrayEnd_eq hmax, ok_bind, hsecond]
  · rw [hbits₂, hbits₁]
    by_cases hin : i < count
    · simp [hin]
    · simp [hin, hi]

/-- An allocator that has just been set up. -/
theorem bufferAllocatorInitialize_spec {pageSize l1Share l2Share address : ℕ} {config : BufferConfig}
    (h : bufferAllocatorInitialize assertions pageSize l1Share l2Share address config = .ok a)
    (hfits : a.config.bufferSize * a.config.bufferCount < 2 ^ 64) : BufferLaw a [] := by
  obtain ⟨finished, hfinished, h⟩ := bind_eq_ok.mp h
  obtain ⟨memoryPool, hallocate, h⟩ := bind_eq_ok.mp h
  obtain ⟨_, hpool, h⟩ := bind_eq_ok.mp h
  have hcount := finishConfiguration_count hfinished
  obtain ⟨words, hwords, hlen, hbits⟩ := initializeAvailability_spec assertions
    (List.length_replicate (n := bitArrayWords udipeMaxBuffers) (a := (0 : Word))) hcount
  dsimp only at h
  rw [mapError_of_eq_ok _ hwords, ok_bind] at h
  obtain rfl := pure_eq_ok.mp h
  obtain ⟨_, hsize, hallocate⟩ := bind_eq_ok.mp hallocate
  have hpositive : 0 < finished.bufferSize * finished.bufferCount :=
    (of_decide_eq_true (ensure_eq_ok.mp hsize)).trans_le (Nat.mod_le ..)
  exact {
    size := hlen.trans (List.length_replicate ..)
    pool_ne := by simpa using ensure_eq_ok.mp hpool
    size_pos := Nat.pos_of_mul_pos_right hpositive
    count_pos := Nat.pos_of_mul_pos_left hpositive
    count_le := hcount
    fits := hfits
    nodup := List.nodup_nil
    available_iff := fun i hi => by simpa [BufferAllocator.Available] using hbits i hi
    live_mem := by simp }

/-! ## One call -/

theorem BufferLaw.address_inj (h : BufferLaw a live) {i j : ℕ} (heq : a.address i = a.address j) : i = j :=
  Nat.eq_of_mul_eq_mul_right h.size_pos (Nat.add_left_cancel heq)

/-- The offset of a buffer does not wrap around. -/
theorem BufferLaw.offset_eq (h : BufferLaw a live) {i : ℕ} (hi : i < a.config.bufferCount) :
    wrapSize (i * a.config.bufferSize) = i * a.config.bufferSize := by
  refine Nat.mod_eq_of_lt (lt_of_le_of_lt ?_ h.fits)
  rw [Nat.mul_comm]
  exact Nat.mul_le_mul_left _ hi.le

/-- Buffer `i` is taken. -/
theorem BufferLaw.take (h : BufferLaw a live) {i : ℕ} {words : List Word} (hi : i < a.config.bufferCount)
    (hfree : a.address i ∉ live) (hlen : words.length = a.bufferAvailability.length)
    (hbits : ∀ j, bitAt words j = if j = i then false else bitAt a.bufferAvailability j) :
    BufferLaw { a with bufferAvailability := words } (a.address i :: live) := by
  refine { h with size := hlen.trans h.size, nodup := ?_, available_iff := ?_, live_mem := ?_ }
  · exact List.nodup_cons.mpr ⟨hfree, h.nodup⟩
  · intro j hj
    have hold := h.available_iff j hj
    unfold BufferAllocator.Available at *
    rw [hbits]
    change _ ↔ j < a.config.bufferCount ∧ a.address j ∉ a.address i :: live
    rw [List.mem_cons, not_or]
    by_cases hji : j = i
    · subst hji
      simp
    · have hne : a.address j ≠ a.address i := fun heq => hji (h.address_inj heq)
      simp [hji, hne, hold]
  · intro b hb
    rcases List.mem_cons.mp hb with rfl | hb
    · exact ⟨i, hi, rfl⟩
    · exact h.live_mem b hb

/-- Buffer `i` is given back. -/
theorem BufferLaw.giveBack (h : BufferLaw a live) {i : ℕ} {words : List Word}
    (hi : i < a.config.bufferCount) (hlen : words.length = a.bufferAvailability.length)
    (hbits : ∀ j, bitAt words j = if j = i then true else bitAt a.bufferAvailability j) :
    BufferLaw { a with bufferAvailability := words } (live.erase (a.address i)) := by
  refine { h with size := hlen.trans h.size, nodup := ?_, available_iff := ?_, live_mem := ?_ }
  · exact h.nodup.erase _
  · intro j hj
    have hold := h.available_iff j hj
    unfold BufferAllocator.Available at *
    rw [hbits]
    change _ ↔ j < a.config.bufferCount ∧ a.address j ∉ live.erase (a.address i)
    rw [h.nodup.mem_erase_iff]
    by_cases hji : j = i
    · subst hji
      simp [hi]
    · have hne : a.address j ≠ a.address i := fun heq => hji (h.address_inj heq)
      simp [hji, hne, hold]
  · exact fun b hb => h.live_mem b (List.mem_of_mem_erase hb)

/-- `buffer_allocate` returns the first buffer that is not live, or null when there is none. -/
theorem BufferLaw.bufferAllocate (h : BufferLaw a live) (assertions : Bool) :
    (∃ i < a.config.bufferCount, a.address i ∉ live ∧ (∀ j < i, a.address j ∈ live) ∧
      ∃ words, Udipe.bufferAllocate assertions a
          = .ok (some (a.address i), { a with bufferAvailability := words }) ∧
        BufferLaw { a with bufferAvailability := words } (a.address i :: live)) ∨
      ((∀ i < a.config.bufferCount, a.address i ∈ live) ∧
        Udipe.bufferAllocate assertions a = .ok (none, a)) := by
  rw [Udipe.bufferAllocate, assertion_of_true _ _ (decide_eq_true h.count_pos), ok_bind]
  rcases bitArrayFindFirst_spec assertions h.size.ge true with
    ⟨i, hi, hset, hfirst, hfind⟩ | ⟨hnone, hfind⟩
  · obtain ⟨hcount, hfree⟩ := (h.available_iff i hi).mp hset
    -- the first set bit is that of the lowest buffer that is not live
    refine .inl ⟨i, hcount, hfree, fun j hj => ?_, ?_⟩
    · by_contra hlive
      exact hfirst j hj ((h.available_iff j (hj.trans hi)).mpr ⟨hj.trans hcount, hlive⟩)
    · obtain ⟨words, hok, hlen, hbits⟩ :=
        bitArraySet_spec assertions h.size udipeMaxBuffers_lt.le hi false
      -- a position that was found is not the one that says that there is none
      have hword : (bitPos i).word ≠ sizeMax := by
        have hle : i / bitsPerWord ≤ i := Nat.div_le_self ..
        have hmax := udipeMaxBuffers_lt
        dsimp only [bitPos]
        omega
      have hindex : bitPosToIndex assertions (bitPos i) = .ok i :=
        bitPosToIndex_bitPos (hi.trans udipeMaxBuffers_lt).le
      refine ⟨words, ?_, h.take hcount hfree hlen hbits⟩
      rw [mapError_of_eq_ok _ hfind, ok_bind, if_neg hword, mapError_of_eq_ok _ hok, ok_bind,
        mapError_of_eq_ok _ hindex, ok_bind, h.offset_eq hcount,
        assertion_of_true _ _ (by simpa using h.pool_ne)]
      rfl
  · refine .inr ⟨fun i hi => ?_, ?_⟩
    · by_contra hfree
      have hmax := hi.trans_le h.count_le
      exact hnone i hmax ((h.available_iff i hmax).mpr ⟨hi, hfree⟩)
    · rw [mapError_of_eq_ok _ hfind, ok_bind]
      exact if_pos rfl

/-- The bit of a live buffer is clear. -/
theorem BufferLaw.assertNotAvailable (h : BufferLaw a live) (assertions : Bool) {i : ℕ}
    (hi : i < a.config.bufferCount) (hlive : a.address i ∈ live) :
    Udipe.assertNotAvailable assertions a (bitPos i) = .ok () := by
  have hmax : i < udipeMaxBuffers := hi.trans_le h.count_le
  have htaken : bitAt a.bufferAvailability i = false := by
    have hnot : ¬ a.Available i := fun havailable => ((h.available_iff i hmax).mp havailable).2 hlive
    simpa [BufferAllocator.Available] using hnot
  have hget := bitArrayGet_eq assertions h.size udipeMaxBuffers_lt.le hmax
  rw [htaken] at hget
  unfold Udipe.assertNotAvailable
  split
  · rw [mapError_of_eq_ok _ hget]
    rfl
  · rfl

/-- `buffer_liberate` makes the buffer available again. -/
theorem BufferLaw.bufferLiberate (h : BufferLaw a live) (assertions : Bool) {i : ℕ}
    (hi : i < a.config.bufferCount) (hlive : a.address i ∈ live) :
    ∃ words, Udipe.bufferLiberate assertions a (a.address i)
        = .ok { a with bufferAvailability := words } ∧
      (∀ j, bitAt words j = if j = i then true else bitAt a.bufferAvailability j) ∧
      BufferLaw { a with bufferAvailability := words } (live.erase (a.address i)) := by
  have hmax : i < udipeMaxBuffers := hi.trans_le h.count_le
  obtain ⟨words, hok, hlen, hbits⟩ := bitArraySet_spec assertions h.size udipeMaxBuffers_lt.le hmax true
  refine ⟨words, ?_, hbits, h.giveBack hi hlen hbits⟩
  -- the address gives back the number of the buffer, through the exact division
  have hoffset : a.address i - a.memoryPool = i * a.config.bufferSize := Nat.add_sub_cancel_left ..
  have hpool : a.memoryPool ≤ a.address i := Nat.le_add_right ..
  have hdivisor : a.config.bufferSize ≠ 0 := h.size_pos.ne'
  have hbit : indexToBitPos assertions i = .ok (bitPos i) :=
    indexToBitPos_eq (hmax.trans udipeMaxBuffers_lt)
  rw [Udipe.bufferLiberate, assertion_of_true _ _ (by simpa using h.pool_ne), ok_bind,
    assertion_of_true _ _ (decide_eq_true hpool), ok_bind]
  simp only [hoffset]
  rw [assertion_of_true _ _ (decide_eq_true h.size_pos), ok_bind,
    assertion_of_true _ _ (by simp), ok_bind, ensure_of_true _ (by simpa using hdivisor), ok_bind,
    Nat.mul_div_cancel _ h.size_pos, assertion_of_true _ _ (decide_eq_true h.count_pos), ok_bind,
    assertion_of_true _ _ (decide_eq_true hi), ok_bind, mapError_of_eq_ok _ hbit, ok_bind,
    h.assertNotAvailable assertions hi hlive, ok_bind, mapError_of_eq_ok _ hok]
  rfl

/-! ## Counting -/

theorem count_bits (words : List Word) (n : ℕ) :
    (bits words n).count true = (List.range n).countP (bitAt words) := by
  rw [bits, List.count, List.countP_map]
  exact List.countP_congr fun i _ => by simp

/-- The live buffers are those of the pool that are live. -/
theorem BufferLaw.length_live (h : BufferLaw a live) :
    live.length = (List.range a.config.bufferCount).countP fun i => decide (a.address i ∈ live) := by
  -- the live list is the list of the buffers of the pool that are in it, in another order
  have hperm : live.Perm (((List.range a.config.bufferCount).filter fun i =>
      decide (a.address i ∈ live)).map a.address) := by
    refine (List.perm_ext_iff_of_nodup h.nodup ?_).mpr fun b => ?_
    · exact (List.nodup_range.filter _).map fun i j heq => h.address_inj heq
    · simp only [List.mem_map, List.mem_filter, List.mem_range, decide_eq_true_eq]
      constructor
      · intro hb
        obtain ⟨i, hi, rfl⟩ := h.live_mem b hb
        exact ⟨i, ⟨hi, hb⟩, rfl⟩
      · rintro ⟨i, ⟨-, hi⟩, rfl⟩
        exact hi
  rw [List.countP_eq_length_filter]
  exact hperm.length_eq.trans (List.length_map ..)

/-- Each buffer of the pool is live or has its bit set. -/
theorem BufferLaw.count (h : BufferLaw a live) :
    live.length + (bits a.bufferAvailability udipeMaxBuffers).count true = a.config.bufferCount := by
  -- among all bits, the set ones are those of the buffers of the pool that are not live
  have havailable : (List.range udipeMaxBuffers).countP (bitAt a.bufferAvailability)
      = (List.range udipeMaxBuffers).countP fun i =>
          !decide (a.address i ∈ live) && decide (i < a.config.bufferCount) := by
    refine List.countP_congr fun i hi => ?_
    rw [Bool.and_eq_true, Bool.not_eq_true', decide_eq_false_iff_not, decide_eq_true_iff, and_comm]
    exact h.available_iff i (List.mem_range.mp hi)
  rw [count_bits, havailable, countP_range_below h.count_le, h.length_live]
  simpa using (List.length_eq_countP_add_countP
    (l := List.range a.config.bufferCount) fun i => decide (a.address i ∈ live)).symm

/-! ## Every sequence of calls -/

/-- The allocator has been set up as `a`, and its law holds. -/
def BufferInvariant (a : BufferAllocator) (s : BufferState) : Prop :=
  (∃ words, s.allocator = { a with bufferAvailability := words }) ∧ BufferLaw s.allocator s.live ∧
    s.failure = none

/-- What a call does: an allocation returns the first buffer that is not live and null if there is none, a
liberation makes its buffer available and no other. -/
def BufferCall (a : BufferAllocator) (s : BufferState) (e : BufferEvent) (s' : BufferState) : Prop :=
  match e with
  | .allocate =>
      (s'.result = none ↔ ∀ i < a.config.bufferCount, a.address i ∈ s.live) ∧
        s'.live = s'.result.toList ++ s.live ∧
        ∀ b, s'.result = some b → b ∉ s.live ∧ (∃ i < a.config.bufferCount, b = a.address i) ∧
          ∀ i < a.config.bufferCount, a.address i ∉ s.live → b ≤ a.address i
  | .liberate b =>
      s'.live = s.live.erase b ∧
        ∀ i < udipeMaxBuffers, s'.allocator.Available i ↔ s.allocator.Available i ∨ a.address i = b

theorem BufferInvariant.step {s s' : BufferState} {e : BufferEvent} (h : BufferInvariant a s)
    (hstep : (bufferPool assertions).step s e = some s') : BufferInvariant a s' ∧ BufferCall a s e s' := by
  obtain ⟨⟨words, hallocator⟩, hlaw, hfailure⟩ := h
  obtain ⟨allocator, live, result, failure⟩ := s
  subst hallocator hfailure
  cases e with
  | allocate =>
      rcases hlaw.bufferAllocate assertions with ⟨i, hi, hfree, hbelow, words', hok, hlaw'⟩ | ⟨hall, hok⟩
      · simp only [bufferPool, bufferStep, hok, Option.isSome_none, Bool.false_eq_true, if_false] at hstep
        obtain rfl := Option.some.inj hstep
        refine ⟨⟨⟨words', rfl⟩, hlaw', rfl⟩, ?_, rfl, fun b hb => ?_⟩
        · exact iff_of_false (by simp) fun hall => hfree (hall i hi)
        · obtain rfl := Option.some.inj hb
          refine ⟨hfree, ⟨i, hi, rfl⟩, fun j hj hjfree => ?_⟩
          -- the buffers below the answer are live, and addresses grow with the number
          have hle : i ≤ j := by
            by_contra hlt
            exact hjfree (hbelow j (not_le.mp hlt))
          exact Nat.add_le_add_left (Nat.mul_le_mul_right _ hle) _
      · simp only [bufferPool, bufferStep, hok, Option.isSome_none, Bool.false_eq_true, if_false] at hstep
        obtain rfl := Option.some.inj hstep
        exact ⟨⟨⟨words, rfl⟩, hlaw, rfl⟩, iff_of_true rfl hall, rfl, fun b hb => by simp at hb⟩
  | liberate b =>
      simp only [bufferPool, bufferStep, Option.isSome_none, Bool.false_eq_true, if_false] at hstep
      split at hstep
      · rename_i hlive
        obtain ⟨i, hi, rfl⟩ := hlaw.live_mem b hlive
        obtain ⟨words', hok, hbits, hlaw'⟩ := hlaw.bufferLiberate assertions hi hlive
        rw [hok] at hstep
        obtain rfl := Option.some.inj hstep
        refine ⟨⟨⟨words', rfl⟩, hlaw', rfl⟩, rfl, fun j _ => ?_⟩
        have hsame : a.address j = a.address i ↔ j = i :=
          ⟨fun heq => hlaw.address_inj heq, fun heq => by rw [heq]⟩
        change bitAt words' j = true ↔ bitAt words j = true ∨ a.address j = a.address i
        rw [hbits, hsame]
        by_cases hji : j = i
        · simp [hji]
        · simp [hji]
      · cases hstep

/-- Two buffers of the pool do not overlap, and lie in it. -/
theorem BufferLaw.disjoint (h : BufferLaw a live) {b b' : ℕ} (hb : b ∈ live) (hb' : b' ∈ live)
    (hne : b ≠ b') : b + a.config.bufferSize ≤ b' ∨ b' + a.config.bufferSize ≤ b := by
  obtain ⟨i, -, rfl⟩ := h.live_mem b hb
  obtain ⟨j, -, rfl⟩ := h.live_mem b' hb'
  have hgap {i j : ℕ} (hlt : i < j) : a.address i + a.config.bufferSize ≤ a.address j := by
    unfold BufferAllocator.address
    rw [Nat.add_assoc, ← Nat.succ_mul]
    exact Nat.add_le_add_left (Nat.mul_le_mul_right _ hlt) _
  rcases Nat.lt_trichotomy i j with hlt | rfl | hlt
  · exact .inl (hgap hlt)
  · exact absurd rfl hne
  · exact .inr (hgap hlt)

theorem BufferAllocator.address_le (a : BufferAllocator) {i : ℕ} (hi : i < a.config.bufferCount) :
    a.address i + a.config.bufferSize
      ≤ a.memoryPool + a.config.bufferCount * a.config.bufferSize := by
  unfold BufferAllocator.address
  rw [Nat.add_assoc, ← Nat.succ_mul]
  exact Nat.add_le_add_left (Nat.mul_le_mul_right _ hi) _

/-- Over every sequence of calls on an allocator that has been set up: no check fails, live buffers are distinct
parts of the pool that do not overlap, each buffer is either live or available, and each call does what it
should. -/
theorem buffer_allocator_correct {pageSize l1Share l2Share address : ℕ} {config : BufferConfig}
    (hinit :
      bufferAllocatorInitialize assertions pageSize l1Share l2Share address config = .ok a)
    (hfits : a.config.bufferSize * a.config.bufferCount < 2 ^ 64) {es : List BufferEvent}
    {s : BufferState} (hrun : (bufferPool assertions).run (BufferState.start a) es = some s) :
    s.failure = none ∧ s.live.Nodup ∧
      (∀ b ∈ s.live, ∃ i < a.config.bufferCount, b = a.memoryPool + i * a.config.bufferSize ∧
        b + a.config.bufferSize ≤ a.memoryPool + a.config.bufferCount * a.config.bufferSize) ∧
      (∀ b ∈ s.live, ∀ b' ∈ s.live, b ≠ b' →
        b + a.config.bufferSize ≤ b' ∨ b' + a.config.bufferSize ≤ b) ∧
      s.live.length + (bits s.allocator.bufferAvailability udipeMaxBuffers).count true
        = a.config.bufferCount ∧
      (bufferPool assertions).Along (BufferCall a) (BufferState.start a) es := by
  have hstart : BufferInvariant a (BufferState.start a) :=
    ⟨⟨a.bufferAvailability, rfl⟩, bufferAllocatorInitialize_spec hinit hfits, rfl⟩
  have hinvariant : BufferInvariant a s :=
    Machine.invariant_of_run (fun _ _ _ h hstep => (h.step hstep).1) hstart hrun
  obtain ⟨⟨words, hallocator⟩, hlaw, hfailure⟩ := hinvariant
  obtain ⟨allocator, live, result, failure⟩ := s
  subst hallocator
  refine ⟨hfailure, hlaw.nodup, fun b hb => ?_, fun b hb b' hb' => hlaw.disjoint hb hb', hlaw.count, ?_⟩
  · obtain ⟨i, hi, rfl⟩ := hlaw.live_mem b hb
    exact ⟨i, hi, rfl, a.address_le hi⟩
  · exact Machine.along_of_invariant (I := BufferInvariant a) (C := fun _ _ _ => True)
      (fun _ _ _ h _ hstep => (h.step hstep).1) (fun _ _ _ h _ hstep => (h.step hstep).2) hstart
      (Machine.along_true _ _)

/-- Three buffers of 9000 bytes, in pages of 4096 bytes. -/
def threeBuffers : BufferAllocator := ⟨65536, ⟨12288, 3⟩, [7]⟩

/-- Two buffers are allocated, the first one is liberated, and three allocations follow. -/
def fillThreeBuffers : List BufferEvent :=
  [.allocate, .allocate, .liberate 65536, .allocate, .allocate, .allocate]

theorem buffer_allocator_correct_threeBuffers : ∃ s,
    (bufferPool true).run (BufferState.start threeBuffers) fillThreeBuffers = some s ∧
      s.live = [90112, 65536, 77824] ∧ s.result = none ∧ s.failure = none := by
  have hinit : bufferAllocatorInitialize true 4096 26214 209715 65536 ⟨9000, 3⟩
      = .ok threeBuffers := by decide +kernel
  have hend : ((bufferPool true).run (BufferState.start threeBuffers) fillThreeBuffers).map
      (fun s => (s.live, s.result)) = some ([90112, 65536, 77824], none) := by decide +kernel
  obtain ⟨s, hrun, hs⟩ := Option.map_eq_some_iff.mp hend
  rw [Prod.mk.injEq] at hs
  exact ⟨s, hrun, hs.1, hs.2, (buffer_allocator_correct hinit (by decide) hrun).1⟩

end Udipe

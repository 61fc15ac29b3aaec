import Udipe.Benchmark.Magnitudes

/-!
# Subtraction with underflow

`accumulator_lt_nonzero_subtrahend` compares magnitudes by looking at no more than two words, and
`accumulator_subtract_with_underflow` subtracts the accumulator from a greater addend.
-/

namespace Udipe

open Function Finset Checked

variable (asserts : Bool) {acc : Accumulator} {addend : UnsignedAddend}

/-! ## The comparison -/

namespace UnsignedAddend

theorem value_eq (addend : UnsignedAddend) :
    addend.value
      = (addend.lowWord.toNat + addend.highWord.toNat * 2 ^ 64) * (2 ^ 64) ^ addend.lowWordIdx := by
  rw [value, pow_succ]
  ring

/-- An addend is below the weight of the word after its high word. -/
theorem value_lt (addend : UnsignedAddend) : addend.value < (2 ^ 64) ^ (addend.lowWordIdx + 2) := by
  have hlow := addend.lowWord.isLt
  have hhigh := addend.highWord.isLt
  have hpos : 0 < ((2 : ℕ) ^ 64) ^ addend.lowWordIdx := Nat.pow_pos (Nat.two_pow_pos 64)
  rw [value_eq, pow_add, Nat.mul_comm ((2 ^ 64) ^ _)]
  exact Nat.mul_lt_mul_of_pos_right (by omega) hpos

theorem Valid.words_ne_zero (h : addend.Valid) : addend.lowWord ||| addend.highWord ≠ 0#64 := by
  intro hzero
  obtain ⟨hlow, hhigh⟩ := BitVec.or_eq_zero_iff.mp hzero
  have hpos := h.value_pos
  simp [value, hlow, hhigh] at hpos

/-- An addend that is not zero is at least the weight of its low word. -/
theorem Valid.le_value (h : addend.Valid) : (2 ^ 64) ^ addend.lowWordIdx ≤ addend.value := by
  rw [value_eq]
  refine Nat.le_mul_of_pos_left _ (Nat.pos_of_ne_zero fun hzero => ?_)
  have hpos := h.value_pos
  rw [value_eq, hzero] at hpos
  omega

end UnsignedAddend

namespace Accumulator.Valid

theorem magnitude_lt_pow (h : acc.Valid) {n : ℕ} (hn : acc.highestWordIdx < n) :
    acc.magnitude < (2 ^ 64) ^ n := by
  rw [magnitude_eq_positional]
  exact h.top.value_lt acc.digits_lt h.inBounds hn

theorem pow_le_magnitude (h : acc.Valid) (hne : acc.highestWordIdx ≠ 0) :
    (2 ^ 64) ^ acc.highestWordIdx ≤ acc.magnitude := by
  rw [magnitude_eq_positional]
  exact h.top.le_value h.inBounds hne

/-- Only the words up to the highest one count. -/
theorem magnitude_eq (h : acc.Valid) :
    acc.magnitude = positional (2 ^ 64) acc.digits acc.highestWordIdx
      + acc.digits acc.highestWordIdx * (2 ^ 64) ^ acc.highestWordIdx := by
  rw [magnitude_eq_positional, h.top.value_eq h.inBounds, positional_succ]

end Accumulator.Valid

/-- A number that starts with `d` above the digit of weight `w`, compared with a multiple of `w`. -/
theorem add_mul_lt_mul_iff {r d x w : ℕ} (hr : r < w) : r + d * w < x * w ↔ d < x := by
  have hpos : 0 < w := by omega
  rw [← Nat.div_lt_iff_lt_mul hpos, Nat.add_mul_div_right _ _ hpos, Nat.div_eq_of_lt hr, Nat.zero_add]

/-- The comparison is that of the magnitudes. -/
theorem accumulatorLtNonzeroSubtrahend_spec (hacc : acc.Valid) (haddend : addend.Valid) :
    accumulatorLtNonzeroSubtrahend asserts acc addend
      = .ok (decide (acc.magnitude < addend.value)) := by
  rw [accumulatorLtNonzeroSubtrahend]
  by_cases habove : addend.lowWordIdx + 1 < acc.highestWordIdx
  · have hge : ¬ acc.magnitude < addend.value := by
      have hle := hacc.pow_le_magnitude (by omega)
      have hpow : ((2 : ℕ) ^ 64) ^ (addend.lowWordIdx + 2) ≤ (2 ^ 64) ^ acc.highestWordIdx :=
        Nat.pow_le_pow_right (by norm_num) habove
      exact Nat.not_lt.mpr ((addend.value_lt.le.trans hpow).trans hle)
    rw [if_pos habove, decide_eq_false hge]
    rfl
  rw [if_neg habove]
  by_cases hbelow : acc.highestWordIdx < addend.lowWordIdx
  · have hlt : acc.magnitude < addend.value :=
      (hacc.magnitude_lt_pow hbelow).trans_le haddend.le_value
    rw [if_pos hbelow, assertion_of_true asserts _ (decide_eq_true haddend.words_ne_zero), ok_bind,
      decide_eq_true hlt]
    rfl
  rw [if_neg hbelow]
  have hlow := addend.lowWord.isLt
  by_cases haligned : acc.highestWordIdx = addend.lowWordIdx
  · rw [assertion_of_true asserts _ (by simp [haligned]), ok_bind, acc.word_of_lt hacc.inBounds, ok_bind,
      if_pos haligned]
    have hrest : positional (2 ^ 64) acc.digits acc.highestWordIdx < (2 ^ 64) ^ addend.lowWordIdx :=
      haligned ▸ positional_lt fun i _ => acc.digits_lt i
    have hcompare : acc.magnitude < addend.value
        ↔ acc.digits acc.highestWordIdx
          < addend.lowWord.toNat + addend.highWord.toNat * 2 ^ 64 := by
      rw [hacc.magnitude_eq, addend.value_eq, ← haligned]
      exact add_mul_lt_mul_iff (haligned ▸ hrest)
    have hdigit := acc.digits_lt acc.highestWordIdx
    by_cases hhigh : addend.highWord = 0#64
    · rw [if_neg (not_not.mpr hhigh)]
      simp only [hcompare, hhigh, BitVec.toNat_ofNat, Nat.zero_mod, Nat.zero_mul, Nat.add_zero]
      rfl
    · have hpos : addend.highWord.toNat ≠ 0 := fun h => hhigh (BitVec.eq_of_toNat_eq h)
      rw [if_pos hhigh, decide_eq_true (hcompare.mpr (by omega))]
      rfl
  · have hhighIdx : acc.highestWordIdx = addend.lowWordIdx + 1 := by omega
    have hlowIdx : acc.highestWordIdx - 1 = addend.lowWordIdx := by omega
    have hbound := hacc.inBounds
    rw [assertion_of_true asserts _ (by simp [hhighIdx]), ok_bind, acc.word_of_lt hacc.inBounds, ok_bind,
      if_neg haligned, assertion_of_true asserts _ (decide_eq_true hhighIdx), ok_bind,
      assertion_of_true asserts _ (decide_eq_true (by omega)), ok_bind,
      acc.word_of_lt (show acc.highestWordIdx - 1 < _ by omega), ok_bind, hlowIdx]
    -- both sides are two words at `low_word_idx`, with something below on the left
    have hrest : positional (2 ^ 64) acc.digits addend.lowWordIdx < (2 ^ 64) ^ addend.lowWordIdx :=
      positional_lt fun i _ => acc.digits_lt i
    have hsplit : acc.magnitude = positional (2 ^ 64) acc.digits addend.lowWordIdx
        + (acc.digits addend.lowWordIdx + acc.digits acc.highestWordIdx * 2 ^ 64)
          * (2 ^ 64) ^ addend.lowWordIdx := by
      rw [hacc.magnitude_eq, hhighIdx, positional_succ, pow_succ]
      ring
    have hcompare : acc.magnitude < addend.value
        ↔ acc.digits addend.lowWordIdx + acc.digits acc.highestWordIdx * 2 ^ 64
          < addend.lowWord.toNat + addend.highWord.toNat * 2 ^ 64 := by
      rw [hsplit, addend.value_eq]
      exact add_mul_lt_mul_iff hrest
    have hdigit := acc.digits_lt addend.lowWordIdx
    simp only [BitVec.lt_def, hcompare]
    rw [show acc.digits addend.lowWordIdx = (acc.words addend.lowWordIdx).toNat from rfl,
      show acc.digits acc.highestWordIdx = (acc.words acc.highestWordIdx).toNat from rfl] at *
    split
    · rw [decide_eq_false (by omega)]
      rfl
    · split
      · rw [decide_eq_true (by omega)]
        rfl
      · have heq : (acc.words acc.highestWordIdx).toNat = addend.highWord.toNat := by omega
        rw [assertion_of_true asserts _ (decide_eq_true (BitVec.eq_of_toNat_eq heq)), ok_bind, heq]
        simp only [Nat.add_lt_add_iff_right]
        rfl

theorem assertLtNonzeroSubtrahend_of_lt (hacc : acc.Valid) (haddend : addend.Valid)
    (hlt : acc.magnitude < addend.value) : assertLtNonzeroSubtrahend asserts acc addend = .ok () := by
  cases asserts
  · rfl
  · rw [assertLtNonzeroSubtrahend, if_pos rfl, accumulatorLtNonzeroSubtrahend_spec true hacc haddend,
      ok_bind, ensure_of_true _ (decide_eq_true hlt)]

/-! ## Subtracting the accumulator from an addend -/

/-- What the loop has done before it comes to `wordIdx`: the words below are those of the difference,
with a borrow. -/
structure UnderflowLoopInvariant (acc : Accumulator) (minuend : UnsignedAddend) (wordIdx : ℕ)
    (s : UnderflowLoop) : Prop where
  value : positional (2 ^ 64) (fun i => (s.words i).toNat) wordIdx
      + positional (2 ^ 64) acc.digits wordIdx
    = positional (2 ^ 64) (fun i => (minuend.wordAt i).toNat) wordIdx
      + s.carry.toNat * (2 ^ 64) ^ wordIdx
  rest : ∀ i, wordIdx ≤ i → s.words i = acc.words i
  zero_above : ∀ i, s.highestWordIdx < i → i < wordIdx → s.words i = 0#64
  ne_zero : s.highestWordIdx ≠ 0 → s.words s.highestWordIdx ≠ 0#64
  highest_le : s.highestWordIdx ≤ wordIdx - 1

theorem underflowLoopBody_invariant {minuend : UnsignedAddend} {s : UnderflowLoop} {wordIdx : ℕ}
    (h : UnderflowLoopInvariant acc minuend wordIdx s) :
    UnderflowLoopInvariant acc minuend (wordIdx + 1) (underflowLoopBody minuend s wordIdx) := by
  have hword := subtractWithCarryU64_spec s.carry (minuend.wordAt wordIdx) (s.words wordIdx)
  simp only [underflowLoopBody]
  set difference := (subtractWithCarryU64 s.carry (minuend.wordAt wordIdx) (s.words wordIdx)).1
  set carry := (subtractWithCarryU64 s.carry (minuend.wordAt wordIdx) (s.words wordIdx)).2
  refine ⟨?_, fun i hi => ?_, fun i hi hlt => ?_, fun h0 => ?_, ?_⟩ <;> dsimp only at *
  · have hlow : positional (2 ^ 64) (fun i => (update s.words wordIdx difference i).toNat) wordIdx
        = positional (2 ^ 64) (fun i => (s.words i).toNat) wordIdx :=
      positional_congr fun i hi => by rw [update_of_ne (by omega)]
    have hacc : acc.digits wordIdx = (s.words wordIdx).toNat := by
      rw [Accumulator.digits, h.rest wordIdx le_rfl]
    have hvalue := h.value
    rw [positional_succ, positional_succ, positional_succ, hlow, update_self, hacc,
      pow_succ (2 ^ 64) wordIdx]
    generalize ((2 : ℕ) ^ 64) ^ wordIdx = weight at hvalue ⊢
    have hweighted : difference.toNat * weight + (s.words wordIdx).toNat * weight
        + s.carry.toNat * weight
        = (minuend.wordAt wordIdx).toNat * weight + carry.toNat * (weight * 2 ^ 64) := by
      rw [← Nat.add_mul, ← Nat.add_mul, hword]
      ring
    omega
  · rw [update_of_ne (by omega), h.rest i (by omega)]
  · split at hi
    · omega
    · rename_i hdifference
      rcases Nat.lt_succ_iff_lt_or_eq.mp hlt with hlt | rfl
      · rw [update_of_ne (by omega), h.zero_above i hi hlt]
      · rw [update_self, not_not.mp hdifference]
  · by_cases hdifference : difference ≠ 0#64
    · rwa [if_pos hdifference, update_self]
    · rw [if_neg hdifference] at h0 ⊢
      have hle := h.highest_le
      rw [update_of_ne (by omega)]
      exact h.ne_zero h0
  · have hle := h.highest_le
    split <;> omega

/-- The words of a minuend up to its highest one. -/
theorem UnsignedAddend.positional_wordAt (minuend : UnsignedAddend) :
    positional (2 ^ 64) (fun i => (minuend.wordAt i).toNat)
        (minuend.lowWordIdx + (if minuend.highWord ≠ 0#64 then 1 else 0) + 1)
      = minuend.value := by
  have hbelow : positional (2 ^ 64) (fun i => (minuend.wordAt i).toNat) minuend.lowWordIdx = 0 := by
    rw [positional_eq_of_zero (Nat.zero_le _) fun i _ hi => by rw [wordAt, if_pos hi]; rfl]
    exact positional_zero ..
  have hlow : minuend.wordAt minuend.lowWordIdx = minuend.lowWord := by simp [wordAt]
  have hhigh : minuend.wordAt (minuend.lowWordIdx + 1) = minuend.highWord := by simp [wordAt]
  rw [value]
  split
  · rw [positional_succ, positional_succ, hbelow, hlow, hhigh, Nat.zero_add]
  · rename_i hzero
    rw [Nat.add_zero, positional_succ, hbelow, hlow, not_not.mp hzero]
    simp

/-- Subtracting the accumulator from a greater addend. -/
theorem accumulatorSubtractWithUnderflow_spec (hacc : acc.Valid) (haddend : addend.Valid)
    (hlt : acc.magnitude < addend.value) :
    ∃ acc', accumulatorSubtractWithUnderflow asserts acc addend = .ok acc' ∧ acc'.Valid ∧
      acc'.magnitude + acc.magnitude = addend.value ∧ acc'.negative = !acc.negative := by
  set top := addend.lowWordIdx + (if addend.highWord ≠ 0#64 then 1 else 0) with htop
  have hminuend : positional (2 ^ 64) (fun i => (addend.wordAt i).toNat) (top + 1) = addend.value :=
    addend.positional_wordAt
  have hin : top < numAccumulatorWords := by
    have := haddend.highWordIdx_lt
    split at htop <;> omega
  have hbound : addend.value < (2 ^ 64) ^ (top + 1) :=
    hminuend ▸ positional_lt fun i _ => (addend.wordAt i).isLt
  -- a smaller number has no more words
  have hhighest : acc.highestWordIdx ≤ top := by
    by_contra hgt
    have hpow : ((2 : ℕ) ^ 64) ^ (top + 1) ≤ (2 ^ 64) ^ acc.highestWordIdx :=
      Nat.pow_le_pow_right (by norm_num) (by omega)
    have hle := hacc.pow_le_magnitude (by omega)
    omega
  have hmagnitude : positional (2 ^ 64) acc.digits (top + 1) = acc.magnitude := by
    rw [acc.magnitude_eq_positional]
    exact (positional_eq_of_zero hin fun i hi _ => hacc.top.zero_above i (by omega)).symm
  set s := forRange 0 (top + 1) ⟨acc.words, false, 0⟩ (underflowLoopBody addend) with hs
  have hinv : UnderflowLoopInvariant acc addend (top + 1) s := by
    have h := forRange_induction 0 (top + 1) ⟨acc.words, false, 0⟩ (underflowLoopBody addend)
      (UnderflowLoopInvariant acc addend)
      ⟨by simp, fun _ _ => rfl, fun i _ hi => absurd hi (Nat.not_lt_zero i),
        fun h0 => absurd rfl h0, le_rfl⟩
      fun i s _ _ h => underflowLoopBody_invariant h
    rwa [Nat.zero_add] at h
  have hvalue := hinv.value
  rw [hminuend, hmagnitude] at hvalue
  have hdifference : positional (2 ^ 64) (fun i => (s.words i).toNat) (top + 1)
      < (2 ^ 64) ^ (top + 1) := positional_lt fun i _ => (s.words i).isLt
  have hcarry : s.carry = false := by
    cases hc : s.carry with
    | false => rfl
    | true =>
        rw [hc, Bool.toNat_true, Nat.one_mul] at hvalue
        omega
  rw [hcarry, Bool.toNat_false, Nat.zero_mul, Nat.add_zero] at hvalue
  have hzero : ∀ i, s.highestWordIdx < i → s.words i = 0#64 := fun i hi => by
    rcases Nat.lt_or_ge i (top + 1) with hlt | hge
    · exact hinv.zero_above i hi hlt
    · rw [hinv.rest i hge, acc.words_eq_zero_iff]
      exact hacc.top.zero_above i (by omega)
  let acc' : Accumulator := ⟨s.words, s.highestWordIdx, !acc.negative⟩
  have hresult : acc'.magnitude = positional (2 ^ 64) (fun i => (s.words i).toNat) (top + 1) := by
    rw [acc'.magnitude_eq_positional]
    have hle := hinv.highest_le
    exact positional_eq_of_zero hin fun i hi _ =>
      (acc'.words_eq_zero_iff i).mp (hzero i (by omega))
  refine ⟨acc', ?_, ⟨⟨fun i hi => (acc'.words_eq_zero_iff i).mp (hzero i hi), fun h0 hdigit => ?_⟩, ?_⟩,
    by omega, rfl⟩
  · have hlowIdx : addend.lowWordIdx < numAccumulatorWords := by
      have := haddend.highWordIdx_lt
      omega
    rw [accumulatorSubtractWithUnderflow,
      assertion_of_true asserts _ (decide_eq_true haddend.words_ne_zero), ok_bind,
      assertLtNonzeroSubtrahend_of_lt asserts hacc haddend hlt, ok_bind,
      assertion_of_true asserts _ (decide_eq_true hlowIdx), ok_bind]
    simp only [← htop, assertion_of_true asserts _ (decide_eq_true hhighest), ok_bind,
      ensure_of_true _ (decide_eq_true hin), ← hs, hcarry]
    rw [assertion_of_true asserts _ (by rfl), ok_bind]
    rfl
  · exact hinv.ne_zero h0 ((acc'.words_eq_zero_iff _).mpr hdigit)
  · have hle := hinv.highest_le
    exact hle.trans_lt (by omega)

end Udipe

import Udipe.Lib.FloatFormat
import Udipe.Lib.Positional

/-!
# Rounding a number that is given in words

The words of a number are added as floating point numbers, lowest word first: each word is rounded,
scaled and added to a rounded running sum. The result is faithful, although it is rounded once for
each word: the sum of the lower words is below the unit of the next word, so that it cannot change
more than the last bit.
-/

namespace FloatFormat

variable {F : FloatFormat} {k : ℤ} {r s x : ℚ} {w : ℕ}

theorem zpow_prec_add_lt (hw : 2 ^ F.prec < w) : (2 : ℚ) ^ (F.prec + k) < w * 2 ^ k := by
  rw [zpow_add₀ two_ne_zero, zpow_natCast]
  have : ((2 ^ F.prec : ℕ) : ℚ) < w := by exact_mod_cast hw
  push_cast at this
  gcongr

/-- Above `2 ^ (prec + k)` the numbers of the format are even multiples of `2 ^ k`. -/
theorem Representable.exists_even_multiple (hx : F.Representable x) (h : 2 ^ (F.prec + k) ≤ |x|) :
    ∃ n : ℤ, x = 2 * n * 2 ^ k := by
  obtain ⟨n, hn⟩ := hx.exists_multiple h
  refine ⟨n, ?_⟩
  have hexp : F.prec + k + 1 - F.prec = k + 1 := by omega
  rw [hn, hexp, zpow_add_one₀ two_ne_zero]
  ring

/-- A word with more than `prec` bits that is rounded up is not changed by what is at most its unit:
if the unit is half of the last bit, the word was a tie, and its significand is even. -/
theorem round_add_of_rounded_up (hk : F.emin ≤ k) (hw : 2 ^ F.prec < w)
    (hup : w * 2 ^ k < F.round (w * 2 ^ k)) (hr0 : 0 ≤ r) (hr : r ≤ 2 ^ k) :
    F.round (F.round (w * 2 ^ k) + r) = F.round (w * 2 ^ k) := by
  have hB : (0 : ℚ) < 2 ^ k := zpow_pos two_pos k
  have hlarge : (2 : ℚ) ^ (F.prec + k) < w * 2 ^ k := zpow_prec_add_lt hw
  have hword : (0 : ℚ) < w * 2 ^ k := (zpow_pos two_pos _).trans hlarge
  have hcrep := representable_round (F := F) (w * 2 ^ k)
  have hround : F.round (w * 2 ^ k) = roundHalfEven (w * 2 ^ k / F.ulp (w * 2 ^ k))
    * F.ulp (w * 2 ^ k) := rfl
  generalize hc : F.round (w * 2 ^ k) = c at *
  have hcpos : 0 < c := hword.trans hup
  have hy : 0 < c + r := by linarith
  have hye : k + 1 ≤ F.ulpExponent (c + r) := by
    refine le_ulpExponent ?_
    have hexp : k + 1 + F.prec - 1 = F.prec + k := by omega
    rw [abs_of_pos hy, hexp]
    linarith
  generalize he : F.ulpExponent (c + r) = e at *
  -- `c` is in the binade of the sum: it is a multiple of `2 ^ (k + 1)`, and `r` is smaller
  have hbinade : 2 ^ (e + F.prec - 1) ≤ c := by
    have hle : 2 ^ (e + F.prec - 1) ≤ c + r := by
      have := zpow_le_abs_of_emin_lt (F := F) hy.ne' (by omega)
      rwa [he, abs_of_pos hy] at this
    by_contra hlt
    push Not at hlt
    obtain ⟨n, hn⟩ := hcrep.exists_even_multiple (k := k) (by
      rw [abs_of_pos hcpos]
      linarith)
    obtain ⟨j, hj⟩ : ∃ j : ℕ, e + F.prec - 1 = j + (k + 1) := by
      have := F.prec_pos
      exact ⟨(e + F.prec - 1 - (k + 1)).toNat, by omega⟩
    have hsplit : (2 : ℚ) ^ (e + F.prec - 1) = 2 * (2 ^ j : ℤ) * 2 ^ k := by
      rw [hj, zpow_add₀ two_ne_zero, zpow_add_one₀ two_ne_zero, zpow_natCast]
      push_cast
      ring
    rw [hsplit, hn] at hlt hle
    have hlt' : (n : ℚ) < (2 ^ j : ℤ) := by nlinarith
    have hsucc : (n : ℚ) + 1 ≤ (2 ^ j : ℤ) := by exact_mod_cast Int.cast_lt.mp hlt'
    nlinarith
  obtain ⟨N, hN⟩ := hcrep.exists_multiple (k := e + F.prec - 1) (by rwa [abs_of_pos hcpos])
  rw [show e + F.prec - 1 + 1 - F.prec = e by omega] at hN
  have hpos : (0 : ℚ) < 2 ^ e := zpow_pos two_pos e
  have hfract : (c + r) / 2 ^ e - N = r / 2 ^ e := by
    rw [hN, add_div, mul_div_cancel_right₀ _ hpos.ne']
    ring
  have hkeep : roundHalfEven ((c + r) / 2 ^ e) = N := by
    rcases hye.eq_or_lt with heq | hlt
    · -- the unit is half of the last bit
      have hulp : F.ulp (w * 2 ^ k) = 2 ^ e := by
        have hle : F.ulpExponent (w * 2 ^ k) ≤ e := by
          rw [← he]
          refine ulpExponent_mono hword.ne' ?_
          rw [abs_of_pos hword, abs_of_pos hy]
          linarith
        have hge : e ≤ F.ulpExponent (w * 2 ^ k) := by
          rw [← heq]
          refine le_ulpExponent ?_
          rw [abs_of_pos hword, show k + 1 + F.prec - 1 = F.prec + k by omega]
          exact hlarge.le
        rw [ulp, le_antisymm hle hge]
      have hhalf : (w : ℚ) * 2 ^ k / 2 ^ e = w / 2 := by
        rw [← heq, zpow_add_one₀ two_ne_zero]
        field_simp
      rw [hulp, hhalf] at hround
      have hNround : roundHalfEven (w / 2) = N := by
        have : (roundHalfEven (w / 2) : ℚ) = N := mul_right_cancel₀ hpos.ne' (hround ▸ hN)
        exact_mod_cast this
      have htie : |(roundHalfEven (w / 2) : ℚ) - w / 2| = 1 / 2 := by
        have hgt : (w : ℚ) / 2 < N := by
          rw [← hhalf, div_lt_iff₀ hpos, ← hN]
          exact hup
        have herror := (abs_le.mp (abs_roundHalfEven_sub_le ((w : ℚ) / 2))).2
        rw [hNround] at herror ⊢
        have hlow : (w : ℤ) < 2 * N := by
          have : (w : ℚ) < 2 * N := by linarith
          exact_mod_cast this
        have hhigh : 2 * N ≤ (w : ℤ) + 1 := by
          have : 2 * (N : ℚ) ≤ w + 1 := by linarith
          exact_mod_cast this
        have hwN : (w : ℤ) = 2 * N - 1 := by omega
        have hwN' : (w : ℚ) = 2 * N - 1 := by exact_mod_cast hwN
        rw [hwN', abs_of_nonneg (by linarith)]
        ring
      have heven : Even N := hNround ▸ even_roundHalfEven htie
      refine roundHalfEven_of_even heven ?_
      rw [hfract, abs_of_nonneg (by positivity), div_le_iff₀ hpos, ← heq, zpow_add_one₀ two_ne_zero]
      linarith
    · refine roundHalfEven_of_lt ?_
      rw [hfract, abs_of_nonneg (by positivity), div_lt_iff₀ hpos]
      have hle : (2 : ℚ) ^ (k + 2) ≤ 2 ^ e := zpow_le_zpow_right₀ one_le_two (by omega)
      rw [zpow_add₀ two_ne_zero] at hle
      norm_num at hle
      linarith
  rw [round, ulp, he, hkeep, ← hN]

/-- Between a word of at most `prec` bits and the next one, the numbers of the format are the word
plus a number of the format. -/
theorem representable_sub_word (hk : F.emin + F.prec ≤ k + 1) (hw : w ≠ 0)
    (hx : F.Representable x) (hlow : w * 2 ^ k ≤ x) (hhigh : x - w * 2 ^ k ≤ 2 ^ k) :
    F.Representable (x - w * 2 ^ k) := by
  have hB : (0 : ℚ) < 2 ^ k := zpow_pos two_pos k
  have hone : (1 : ℚ) ≤ w := by exact_mod_cast Nat.one_le_iff_ne_zero.mpr hw
  have hxB : 2 ^ k ≤ |x| := by
    rw [abs_of_nonneg (by nlinarith)]
    nlinarith
  obtain ⟨n, hn⟩ := hx.exists_multiple hxB
  obtain ⟨p, hp⟩ := Nat.exists_eq_add_of_lt F.prec_pos
  have hunit : (2 : ℚ) ^ k = 2 ^ p * 2 ^ (k + 1 - F.prec) := by
    rw [← zpow_natCast, ← zpow_add₀ two_ne_zero]
    congr 1
    omega
  have hsub : x - w * 2 ^ k = ((n - w * 2 ^ p : ℤ) : ℚ) * 2 ^ (k + 1 - F.prec) := by
    rw [hn, hunit]
    push_cast
    ring
  rw [hsub]
  refine representable_of_le ?_ (by omega)
  have hpos : (0 : ℚ) < 2 ^ (k + 1 - F.prec : ℤ) := zpow_pos two_pos _
  have hlow' : (0 : ℤ) ≤ n - w * 2 ^ p := by
    have := sub_nonneg.mpr hlow
    rw [hsub] at this
    exact_mod_cast nonneg_of_mul_nonneg_left this hpos
  have hhigh' : n - w * 2 ^ p ≤ 2 ^ p := by
    rw [hsub, hunit] at hhigh
    exact_mod_cast le_of_mul_le_mul_right hhigh hpos
  rw [abs_of_nonneg hlow']
  exact hhigh'.trans (pow_le_pow_right₀ one_le_two (by omega))

/-- Adding the next word to a faithful sum of the lower ones. -/
theorem Faithful.add_word (hk : F.emin + F.prec ≤ k + 1) (hs0 : 0 ≤ s) (hs : s < 2 ^ k)
    (h : F.Faithful r s) (w : ℕ) :
    F.Faithful (F.round (F.round (w * 2 ^ k) + r)) (w * 2 ^ k + s) := by
  have hp := F.prec_pos
  have hB : (0 : ℚ) < 2 ^ k := zpow_pos two_pos k
  have hr0 : 0 ≤ r := h.nonneg hs0
  have hrB : r ≤ 2 ^ k := h.le_of_ge _ (representable_zpow (by omega)) hs.le
  rcases le_or_gt w (2 ^ F.prec) with hsmall | hlarge
  · -- the word is exact, and what the bounds of the sum leave of it are bounds of the lower words
    rw [round_of_representable (representable_natCast_mul_zpow hsmall (by omega))]
    refine ⟨representable_round _, fun x hx hle => hx.le_round ?_, fun x hx hge => hx.round_le ?_⟩
    · rcases le_or_gt x (w * 2 ^ k) with hxw | hxw
      · linarith
      rcases eq_or_ne w 0 with rfl | hw
      · simp only [Nat.cast_zero, zero_mul, zero_add] at hle ⊢
        exact h.le_of_le x hx hle
      · have := h.le_of_le _ (representable_sub_word hk hw hx hxw.le (by linarith)) (by linarith)
        linarith
    · rcases le_or_gt (2 ^ k) (x - w * 2 ^ k) with hxw | hxw
      · linarith
      rcases eq_or_ne w 0 with rfl | hw
      · simp only [Nat.cast_zero, zero_mul, zero_add] at hge ⊢
        exact h.le_of_ge x hx hge
      · have := h.le_of_ge _ (representable_sub_word hk hw hx (by linarith) hxw.le) (by linarith)
        linarith
  · -- the numbers of the format are further apart than the lower words can reach
    have hword : (2 : ℚ) ^ (F.prec + k) < w * 2 ^ k := zpow_prec_add_lt hlarge
    have hapart : ∀ x, F.Representable x → w * 2 ^ k < x → (w + 1) * 2 ^ k ≤ x := by
      intro x hx hlt
      obtain ⟨n, hn⟩ :=
        hx.exists_even_multiple (k := k) (hword.le.trans (hlt.le.trans (le_abs_self x)))
      have hlt' : (w : ℤ) < 2 * n := by
        rw [hn, mul_lt_mul_iff_left₀ hB] at hlt
        exact_mod_cast hlt
      have hsucc : (w : ℚ) + 1 ≤ 2 * n := by exact_mod_cast Int.add_one_le_of_lt hlt'
      rw [hn]
      gcongr
    refine ⟨representable_round _, fun x hx hle => ?_, fun x hx hge => ?_⟩
    · have hxw : x ≤ w * 2 ^ k := by
        by_contra hlt
        have := hapart x hx (not_le.mp hlt)
        linarith
      exact hx.le_round (by linarith [hx.le_round hxw])
    · rcases hs0.eq_or_lt with rfl | hspos
      · rw [h.eq_of_representable representable_zero, add_zero] at *
        exact hx.round_le (hx.round_le hge)
      rcases lt_or_ge ((w : ℚ) * 2 ^ k) (F.round (w * 2 ^ k)) with hup | hdown
      · rw [round_add_of_rounded_up (by omega) hlarge hup hr0 hrB]
        exact hx.round_le (by linarith)
      · have := hapart x hx (by linarith)
        exact hx.round_le (by linarith)

/-- The rounded sum of the first `n` words, where the lowest bit of the first one is `2 ^ unit`. -/
def wordSum (F : FloatFormat) (unit : ℤ) (bits : ℕ) (words : ℕ → ℕ) : ℕ → ℚ
  | 0 => 0
  | n + 1 => F.round (F.round (words n * 2 ^ (unit + bits * n)) + wordSum F unit bits words n)

theorem faithful_wordSum {unit : ℤ} {bits : ℕ} {words : ℕ → ℕ} (hunit : F.emin ≤ unit)
    (hbits : F.prec ≤ bits + 1) (hwords : ∀ i, words i < 2 ^ bits) (n : ℕ) :
    F.Faithful (F.wordSum unit bits words n) (positional (2 ^ bits) words n * 2 ^ unit) := by
  induction n with
  | zero => simpa [wordSum] using faithful_round (F := F) 0
  | succ n ih =>
      have hweight : (2 : ℚ) ^ (unit + bits * n) = 2 ^ (bits * n) * 2 ^ unit := by
        rw [add_comm, zpow_add₀ two_ne_zero, ← Nat.cast_mul, zpow_natCast]
      have hvalue : ((positional (2 ^ bits) words (n + 1) : ℕ) : ℚ) * 2 ^ unit
          = words n * 2 ^ (unit + bits * n) + positional (2 ^ bits) words n * 2 ^ unit := by
        rw [positional_succ, hweight]
        push_cast
        ring
      rw [hvalue]
      cases n with
      | zero =>
          -- the first word is only rounded
          simp only [wordSum, positional_zero, Nat.cast_zero, zero_mul, add_zero]
          rw [round_of_representable (representable_round _)]
          exact faithful_round _
      | succ n =>
          have hlt : positional (2 ^ bits) words (n + 1) < (2 ^ bits) ^ (n + 1) :=
            positional_lt fun i _ => hwords i
          refine ih.add_word ?_ (by positivity) ?_ (words (n + 1))
          · push_cast
            nlinarith [Int.natCast_nonneg bits, Int.natCast_nonneg n]
          · rw [hweight, pow_mul]
            have : ((positional (2 ^ bits) words (n + 1) : ℕ) : ℚ) < (2 ^ bits) ^ (n + 1) := by
              exact_mod_cast hlt
            gcongr

end FloatFormat

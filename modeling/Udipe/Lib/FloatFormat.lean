import Mathlib.Algebra.Order.Field.Power
import Mathlib.Data.Int.Log
import Mathlib.Data.Rat.Floor
import Mathlib.Algebra.Order.Round
import Mathlib.Algebra.Ring.Int.Parity
import Mathlib.Tactic.FieldSimp
import Mathlib.Tactic.GCongr
import Mathlib.Tactic.Linarith
import Mathlib.Tactic.Positivity
import Mathlib.Tactic.Ring

/-!
# Binary floating point formats

A format has `prec` significant bits and no exponent below `emin`. `FloatFormat.round` rounds to the
nearest number of the format, ties to the one with an even significand, without an upper bound on the
exponent. What most proofs need is that rounding is monotone and keeps the numbers of the format;
`FloatFormat.Faithful` is what follows for a result that is one of the two neighbours of the exact
one.
-/

/-! ## Rounding to an integer -/

/-- The nearest integer, ties to even. -/
def roundHalfEven (x : ℚ) : ℤ :=
  if x - ⌊x⌋ < 1 / 2 then ⌊x⌋
  else if 1 / 2 < x - ⌊x⌋ then ⌊x⌋ + 1
  else if Even ⌊x⌋ then ⌊x⌋ else ⌊x⌋ + 1

section HalfEven

variable {x y : ℚ} {n : ℤ}

theorem floor_le_roundHalfEven (x : ℚ) : ⌊x⌋ ≤ roundHalfEven x := by
  unfold roundHalfEven
  split_ifs <;> omega

theorem roundHalfEven_le_floor_add_one (x : ℚ) : roundHalfEven x ≤ ⌊x⌋ + 1 := by
  unfold roundHalfEven
  split_ifs <;> omega

@[simp] theorem roundHalfEven_intCast (n : ℤ) : roundHalfEven (n : ℚ) = n := by
  simp [roundHalfEven]

theorem le_roundHalfEven (h : (n : ℚ) ≤ x) : n ≤ roundHalfEven x :=
  (Int.le_floor.mpr h).trans (floor_le_roundHalfEven x)

theorem roundHalfEven_le (h : x ≤ n) : roundHalfEven x ≤ n := by
  rcases h.eq_or_lt with rfl | hlt
  · exact (roundHalfEven_intCast n).le
  · have hfloor : ⌊x⌋ < n := Int.floor_lt.mpr hlt
    have := roundHalfEven_le_floor_add_one x
    omega

theorem roundHalfEven_mono (h : x ≤ y) : roundHalfEven x ≤ roundHalfEven y := by
  rcases (Int.floor_le_floor h).eq_or_lt with heq | hlt
  · -- in one unit interval, the three cases come in the order of the fractional part
    have hfract : x - ⌊x⌋ ≤ y - ⌊y⌋ := by rw [heq]; linarith
    unfold roundHalfEven
    rw [← heq] at hfract ⊢
    split_ifs <;> first | omega | linarith
  · have := roundHalfEven_le_floor_add_one x
    have := floor_le_roundHalfEven y
    omega

theorem abs_roundHalfEven_sub_le (x : ℚ) : |roundHalfEven x - x| ≤ 1 / 2 := by
  have hlow := Int.floor_le x
  have hhigh := Int.lt_floor_add_one x
  unfold roundHalfEven
  rw [abs_le]
  split_ifs <;> push_cast <;> constructor <;> linarith

theorem roundHalfEven_neg (x : ℚ) : roundHalfEven (-x) = -roundHalfEven x := by
  by_cases hint : x = ⌊x⌋
  · rw [hint, ← Int.cast_neg, roundHalfEven_intCast, roundHalfEven_intCast]
  have hlow : (⌊x⌋ : ℚ) < x := lt_of_le_of_ne (Int.floor_le x) (Ne.symm hint)
  have hhigh := Int.lt_floor_add_one x
  have hfloor : ⌊-x⌋ = -⌊x⌋ - 1 := by
    rw [Int.floor_eq_iff]
    push_cast
    constructor <;> linarith
  unfold roundHalfEven
  rw [hfloor]
  push_cast
  have hparity : Even (-⌊x⌋ - 1) ↔ ¬ Even ⌊x⌋ := by
    rw [Int.even_sub_one, even_neg]
  simp only [hparity]
  split_ifs <;> first | omega | linarith

/-- What is at most half a unit away from an even integer rounds to it. -/
theorem roundHalfEven_of_even (hn : Even n) (h : |x - n| ≤ 1 / 2) : roundHalfEven x = n := by
  obtain ⟨hlow, hhigh⟩ := abs_le.mp h
  rcases le_or_gt (n : ℚ) x with hge | hlt
  · have hfloor : ⌊x⌋ = n := by
      rw [Int.floor_eq_iff]
      constructor <;> linarith
    unfold roundHalfEven
    rw [hfloor]
    split_ifs <;> first | rfl | linarith
  · have hfloor : ⌊x⌋ = n - 1 := by
      rw [Int.floor_eq_iff]
      push_cast
      constructor <;> linarith
    have hodd : ¬ Even (n - 1) := by rwa [Int.even_sub_one, not_not]
    unfold roundHalfEven
    rw [hfloor, if_neg hodd]
    push_cast
    split_ifs <;> first | omega | linarith

/-- What is less than half a unit away from an integer rounds to it. -/
theorem roundHalfEven_of_lt (h : |x - n| < 1 / 2) : roundHalfEven x = n := by
  obtain ⟨hlow, hhigh⟩ := abs_lt.mp h
  have herror := abs_le.mp (abs_roundHalfEven_sub_le x)
  have hupper : (roundHalfEven x : ℚ) < n + 1 := by linarith
  have hlower : (n : ℚ) - 1 < roundHalfEven x := by linarith
  have : roundHalfEven x < n + 1 := by exact_mod_cast hupper
  have : n - 1 < roundHalfEven x := by exact_mod_cast hlower
  omega

/-- A tie rounds to an even integer. -/
theorem even_roundHalfEven (h : |roundHalfEven x - x| = 1 / 2) : Even (roundHalfEven x) := by
  have hlow := Int.floor_le x
  have hhigh := Int.lt_floor_add_one x
  by_cases heven : Even ⌊x⌋
  · have hclose : |x - ⌊x⌋| ≤ 1 / 2 := by
      unfold roundHalfEven at h
      rw [abs_of_nonneg (by linarith)]
      split_ifs at h
      · linarith
      · push_cast at h
        rw [abs_of_nonneg (by linarith)] at h
        linarith
      · linarith
    rwa [roundHalfEven_of_even heven hclose]
  · have hodd : Even (⌊x⌋ + 1) := Int.even_add_one.mpr heven
    have hclose : |x - (⌊x⌋ + 1 : ℤ)| ≤ 1 / 2 := by
      unfold roundHalfEven at h
      push_cast
      rw [abs_of_nonpos (by linarith)]
      split_ifs at h
      · rw [abs_of_nonpos (by linarith)] at h
        linarith
      · linarith
      · linarith
    rwa [roundHalfEven_of_even hodd hclose]

end HalfEven

/-! ## Formats -/

/-- A binary floating point format without an upper bound on the exponent. -/
structure FloatFormat where
  prec : ℕ
  emin : ℤ
  prec_pos : 0 < prec

namespace FloatFormat

variable (F : FloatFormat) {x y r s : ℚ} {k : ℤ}

/-- The numbers of the format. -/
def Representable (x : ℚ) : Prop :=
  ∃ m e : ℤ, |m| < 2 ^ F.prec ∧ F.emin ≤ e ∧ x = m * 2 ^ e

/-- The exponent of the last significant bit of a number of the size of `x`. -/
def ulpExponent (x : ℚ) : ℤ := max F.emin (Int.log 2 |x| + 1 - F.prec)

/-- The unit in the last place. -/
def ulp (x : ℚ) : ℚ := 2 ^ F.ulpExponent x

/-- Rounding to nearest, ties to even. -/
def round (x : ℚ) : ℚ := roundHalfEven (x / F.ulp x) * F.ulp x

variable {F}

theorem ulp_pos (x : ℚ) : 0 < F.ulp x := zpow_pos two_pos _

theorem emin_le_ulpExponent (x : ℚ) : F.emin ≤ F.ulpExponent x := le_max_left _ _

@[simp] theorem ulp_neg (x : ℚ) : F.ulp (-x) = F.ulp x := by simp [ulp, ulpExponent]

@[simp] theorem round_neg (x : ℚ) : F.round (-x) = -F.round x := by
  rw [round, round, ulp_neg, neg_div, roundHalfEven_neg]
  push_cast
  ring

@[simp] theorem round_zero : F.round 0 = 0 := by
  have : roundHalfEven 0 = 0 := roundHalfEven_intCast 0
  simp [round, this]

theorem Representable.neg (h : F.Representable x) : F.Representable (-x) := by
  obtain ⟨m, e, hm, he, rfl⟩ := h
  exact ⟨-m, e, by rwa [abs_neg], he, by push_cast; ring⟩

theorem representable_zero : F.Representable 0 :=
  ⟨0, F.emin, by simp, le_rfl, by simp⟩

/-- The significand may also be `2 ^ prec`, with the next exponent. -/
theorem representable_of_le {m e : ℤ} (hm : |m| ≤ 2 ^ F.prec) (he : F.emin ≤ e) :
    F.Representable (m * 2 ^ e) := by
  rcases hm.lt_or_eq with hlt | heq
  · exact ⟨m, e, hlt, he, rfl⟩
  have hpow : (2 : ℤ) ^ F.prec = 2 ^ (F.prec - 1) * 2 := by
    rw [← pow_succ, Nat.sub_add_cancel F.prec_pos]
  have hdouble : (2 : ℚ) ^ e * 2 = 2 ^ (e + 1) := by rw [zpow_add_one₀ two_ne_zero]
  have hsmall : |(2 : ℤ) ^ (F.prec - 1)| < 2 ^ F.prec := by
    rw [abs_of_pos (by positivity)]
    exact pow_lt_pow_right₀ one_lt_two (Nat.sub_lt F.prec_pos one_pos)
  rw [hpow] at heq
  rcases eq_or_eq_neg_of_abs_eq heq with rfl | rfl
  · refine ⟨2 ^ (F.prec - 1), e + 1, hsmall, by omega, ?_⟩
    rw [← hdouble]
    push_cast
    ring
  · refine ⟨-2 ^ (F.prec - 1), e + 1, by rwa [abs_neg], by omega, ?_⟩
    rw [← hdouble]
    push_cast
    ring

theorem representable_zpow (h : F.emin ≤ k) : F.Representable (2 ^ k) := by
  have hone : |(1 : ℤ)| ≤ 2 ^ F.prec := by simpa using one_le_pow₀ one_le_two
  simpa using representable_of_le hone h

/-- A natural number of at most `prec` bits, times a power of two. -/
theorem representable_natCast_mul_zpow {n : ℕ} (hn : n ≤ 2 ^ F.prec) (hk : F.emin ≤ k) :
    F.Representable (n * 2 ^ k) := by
  have habs : |(n : ℤ)| ≤ 2 ^ F.prec := by
    rw [Nat.abs_cast]
    exact_mod_cast hn
  simpa using representable_of_le habs hk

/-! ## The size of a unit in the last place -/

theorem abs_lt_zpow_ulpExponent (x : ℚ) : |x| < 2 ^ (F.ulpExponent x + F.prec) := by
  calc |x| < (2 : ℕ) ^ (Int.log 2 |x| + 1) := Int.lt_zpow_succ_log_self one_lt_two _
    _ ≤ 2 ^ (F.ulpExponent x + F.prec) := by
        push_cast
        have : Int.log 2 |x| + 1 - F.prec ≤ F.ulpExponent x := le_max_right _ _
        exact zpow_le_zpow_right₀ one_le_two (by omega)

/-- Above the subnormal range a number has `prec` significant bits. -/
theorem zpow_le_abs_of_emin_lt (hx : x ≠ 0) (h : F.emin < F.ulpExponent x) :
    2 ^ (F.ulpExponent x + F.prec - 1) ≤ |x| := by
  have hexp : F.ulpExponent x = Int.log 2 |x| + 1 - F.prec := by
    rcases max_choice F.emin (Int.log 2 |x| + 1 - F.prec) with heq | heq
    · exact absurd heq (ne_of_gt h)
    · exact heq
  have hlog : F.ulpExponent x + F.prec - 1 = Int.log 2 |x| := by omega
  rw [hlog]
  exact_mod_cast Int.zpow_log_le_self one_lt_two (abs_pos.mpr hx)

theorem ulpExponent_mono (hx : x ≠ 0) (h : |x| ≤ |y|) : F.ulpExponent x ≤ F.ulpExponent y := by
  have hlog : Int.log 2 |x| ≤ Int.log 2 |y| := Int.log_mono_right (abs_pos.mpr hx) h
  exact max_le_max le_rfl (by omega)

theorem ulpExponent_le (hx : x ≠ 0) (he : F.emin ≤ k) (h : |x| < 2 ^ (k + F.prec)) :
    F.ulpExponent x ≤ k := by
  have hlog : Int.log 2 |x| < k + F.prec :=
    (Int.lt_zpow_iff_log_lt one_lt_two (abs_pos.mpr hx)).mp (by exact_mod_cast h)
  exact max_le he (by omega)

theorem le_ulpExponent (h : 2 ^ (k + F.prec - 1) ≤ |x|) : k ≤ F.ulpExponent x := by
  have hlog : k + F.prec - 1 ≤ Int.log 2 |x| :=
    (Int.zpow_le_iff_le_log one_lt_two ((zpow_pos two_pos _).trans_le h)).mp (by exact_mod_cast h)
  exact le_max_of_le_right (by omega)

/-- A number of the format is a multiple of the unit in the last place of every smaller number. -/
theorem Representable.exists_multiple (h : F.Representable x) (hk : 2 ^ k ≤ |x|) :
    ∃ n : ℤ, x = n * 2 ^ (k + 1 - F.prec) := by
  obtain ⟨m, e, hm, he, rfl⟩ := h
  have habs : |(m : ℚ) * 2 ^ e| < 2 ^ (F.prec + e) := by
    rw [abs_mul, abs_of_pos (zpow_pos (two_pos : (0 : ℚ) < 2) e), zpow_add₀ two_ne_zero,
      zpow_natCast]
    have hm' : |(m : ℚ)| < 2 ^ F.prec := by exact_mod_cast hm
    gcongr
  have hexp : k < F.prec + e := (zpow_lt_zpow_iff_right₀ one_lt_two).mp (hk.trans_lt habs)
  obtain ⟨j, hj⟩ : ∃ j : ℕ, e = (k + 1 - F.prec) + j :=
    ⟨(e - (k + 1 - F.prec)).toNat, by omega⟩
  refine ⟨m * 2 ^ j, ?_⟩
  rw [hj, zpow_add₀ two_ne_zero, zpow_natCast]
  push_cast
  ring

/-! ## Rounding keeps the numbers of the format -/

theorem round_of_representable (h : F.Representable x) : F.round x = x := by
  obtain ⟨m, e, hm, he, hx⟩ := h
  rcases eq_or_ne x 0 with rfl | hne
  · exact round_zero
  have hexp : F.ulpExponent x ≤ e := by
    refine ulpExponent_le hne he ?_
    rw [hx, abs_mul, abs_of_pos (zpow_pos (two_pos : (0 : ℚ) < 2) e), add_comm,
      zpow_add₀ two_ne_zero, zpow_natCast]
    have hm' : |(m : ℚ)| < 2 ^ F.prec := by exact_mod_cast hm
    gcongr
  obtain ⟨j, hj⟩ : ∃ j : ℕ, e = F.ulpExponent x + j := ⟨(e - F.ulpExponent x).toNat, by omega⟩
  have hquotient : x / F.ulp x = ((m * 2 ^ j : ℤ) : ℚ) := by
    rw [div_eq_iff (ulp_pos x).ne', ulp]
    nth_rewrite 1 [hx]
    rw [hj, zpow_add₀ two_ne_zero, zpow_natCast]
    push_cast
    ring
  rw [round, hquotient, roundHalfEven_intCast, ← hquotient, div_mul_cancel₀ _ (ulp_pos x).ne']

theorem representable_round (x : ℚ) : F.Representable (F.round x) := by
  refine representable_of_le ?_ (emin_le_ulpExponent x)
  -- the quotient is below `2 ^ prec`, and rounding does not pass an integer
  have hquotient : |x / F.ulp x| ≤ ((2 ^ F.prec : ℤ) : ℚ) := by
    rw [abs_div, abs_of_pos (ulp_pos x), div_le_iff₀ (ulp_pos x), ulp]
    have := (abs_lt_zpow_ulpExponent (F := F) x).le
    rw [add_comm, zpow_add₀ two_ne_zero, zpow_natCast] at this
    exact_mod_cast this
  rw [abs_le] at hquotient ⊢
  refine ⟨le_roundHalfEven ?_, roundHalfEven_le hquotient.2⟩
  exact_mod_cast hquotient.1

/-! ## Rounding is monotone -/

theorem round_nonneg (h : 0 ≤ x) : 0 ≤ F.round x := by
  have hquotient : ((0 : ℤ) : ℚ) ≤ x / F.ulp x := by
    simpa using div_nonneg h (ulp_pos x).le
  exact mul_nonneg (by exact_mod_cast le_roundHalfEven hquotient) (ulp_pos x).le

theorem round_nonpos (h : x ≤ 0) : F.round x ≤ 0 := by
  have := round_nonneg (F := F) (neg_nonneg.mpr h)
  rwa [round_neg, Left.nonneg_neg_iff] at this

private theorem round_mono_of_pos (hx : 0 < x) (h : x ≤ y) : F.round x ≤ F.round y := by
  have hy : 0 < y := hx.trans_le h
  have habs : |x| ≤ |y| := by rwa [abs_of_pos hx, abs_of_pos hy]
  rcases (ulpExponent_mono (F := F) hx.ne' habs).eq_or_lt with heq | hlt
  · rw [round, round, ulp, ulp, heq]
    have hquotient : x / 2 ^ F.ulpExponent y ≤ y / 2 ^ F.ulpExponent y := by gcongr
    gcongr
    exact roundHalfEven_mono hquotient
  · -- `2 ^ (prec + e)` separates the two numbers, and no rounding passes it
    have hxle : F.round x ≤ 2 ^ (F.ulpExponent x + F.prec) := by
      have hquotient : x / F.ulp x ≤ ((2 ^ F.prec : ℤ) : ℚ) := by
        rw [div_le_iff₀ (ulp_pos x), ulp]
        have := (abs_lt_zpow_ulpExponent (F := F) x).le
        rw [abs_of_pos hx, add_comm, zpow_add₀ two_ne_zero, zpow_natCast] at this
        exact_mod_cast this
      rw [round, add_comm, zpow_add₀ two_ne_zero, zpow_natCast, ← ulp]
      refine mul_le_mul_of_nonneg_right ?_ (ulp_pos x).le
      exact_mod_cast roundHalfEven_le hquotient
    have hyge : 2 ^ (F.ulpExponent y + F.prec - 1) ≤ F.round y := by
      obtain ⟨p, hp⟩ := Nat.exists_eq_add_of_lt F.prec_pos
      have hsplit : F.ulpExponent y + F.prec - 1 = p + F.ulpExponent y := by omega
      have hquotient : ((2 ^ p : ℤ) : ℚ) ≤ y / F.ulp y := by
        rw [le_div_iff₀ (ulp_pos y), ulp]
        have := zpow_le_abs_of_emin_lt (F := F) hy.ne'
          ((emin_le_ulpExponent x).trans_lt hlt)
        rw [hsplit, abs_of_pos hy, zpow_add₀ two_ne_zero, zpow_natCast] at this
        exact_mod_cast this
      rw [round, hsplit, zpow_add₀ two_ne_zero, zpow_natCast, ← ulp]
      refine mul_le_mul_of_nonneg_right ?_ (ulp_pos y).le
      exact_mod_cast le_roundHalfEven hquotient
    have hbetween : (2 : ℚ) ^ (F.ulpExponent x + F.prec) ≤ 2 ^ (F.ulpExponent y + F.prec - 1) :=
      zpow_le_zpow_right₀ one_le_two (by omega)
    exact hxle.trans (hbetween.trans hyge)

theorem round_mono (h : x ≤ y) : F.round x ≤ F.round y := by
  rcases lt_or_ge 0 x with hx | hx
  · exact round_mono_of_pos hx h
  rcases lt_or_ge y 0 with hy | hy
  · have := round_mono_of_pos (F := F) (neg_pos.mpr hy) (neg_le_neg h)
    rwa [round_neg, round_neg, neg_le_neg_iff] at this
  · exact (round_nonpos hx).trans (round_nonneg hy)

theorem Representable.le_round (hr : F.Representable r) (h : r ≤ x) : r ≤ F.round x := by
  rw [← round_of_representable hr]
  exact round_mono h

theorem Representable.round_le (hr : F.Representable r) (h : x ≤ r) : F.round x ≤ r := by
  rw [← round_of_representable hr]
  exact round_mono h

/-- Scaling a rounded natural number by a power of two is rounding the scaled number. -/
theorem round_natCast_mul_zpow (hemin : F.emin ≤ 0) (n : ℕ) (hk : F.emin ≤ k) :
    F.round n * 2 ^ k = F.round (n * 2 ^ k) := by
  rcases le_or_gt n (2 ^ F.prec) with hsmall | hlarge
  · have hn : F.Representable n := by
      simpa using representable_natCast_mul_zpow hsmall hemin
    rw [round_of_representable hn,
      round_of_representable (representable_natCast_mul_zpow hsmall hk)]
  have hpos : (0 : ℚ) < 2 ^ k := zpow_pos two_pos k
  have hbig : ((2 : ℚ) ^ F.prec) < n := by exact_mod_cast hlarge
  have hn : (0 : ℚ) < n := (pow_pos two_pos _).trans hbig
  have hone : 1 ≤ F.ulpExponent n := by
    refine le_ulpExponent ?_
    rw [abs_of_pos hn, add_sub_cancel_left, zpow_natCast]
    exact hbig.le
  -- both have `prec` significant bits
  have hulp : F.ulpExponent (n * 2 ^ k) = F.ulpExponent n + k := by
    have habs : |(n : ℚ) * 2 ^ k| = |(n : ℚ)| * 2 ^ k := by rw [abs_mul, abs_of_pos hpos]
    refine le_antisymm (ulpExponent_le (mul_pos hn hpos).ne' (by omega) ?_) (le_ulpExponent ?_)
    · rw [habs, add_right_comm, zpow_add₀ two_ne_zero]
      exact mul_lt_mul_of_pos_right (abs_lt_zpow_ulpExponent _) hpos
    · have hexp : F.ulpExponent n + k + F.prec - 1 = F.ulpExponent n + F.prec - 1 + k := by omega
      rw [habs, hexp, zpow_add₀ two_ne_zero]
      exact mul_le_mul_of_nonneg_right (zpow_le_abs_of_emin_lt hn.ne' (by omega)) hpos.le
  rw [round, round, ulp, ulp, hulp, zpow_add₀ two_ne_zero, mul_div_mul_right _ _ hpos.ne', mul_assoc]

/-! ## Rounding errors -/

theorem abs_round_sub_le (x : ℚ) : |F.round x - x| ≤ F.ulp x / 2 := by
  have hsplit : F.round x - x = (roundHalfEven (x / F.ulp x) - x / F.ulp x) * F.ulp x := by
    rw [sub_mul, div_mul_cancel₀ _ (ulp_pos x).ne']
    rfl
  rw [hsplit, abs_mul, abs_of_pos (ulp_pos x)]
  calc |(roundHalfEven (x / F.ulp x) : ℚ) - x / F.ulp x| * F.ulp x
      ≤ 1 / 2 * F.ulp x :=
        mul_le_mul_of_nonneg_right (abs_roundHalfEven_sub_le _) (ulp_pos x).le
    _ = F.ulp x / 2 := by ring

/-- Relative to a number with `prec` significant bits, a unit in the last place is small. -/
theorem ulp_le (h : 2 ^ (F.emin + F.prec - 1) ≤ |x|) : F.ulp x ≤ 2 ^ (1 - F.prec : ℤ) * |x| := by
  have hx : x ≠ 0 := abs_pos.mp ((zpow_pos two_pos _).trans_le h)
  have hle : 2 ^ (F.ulpExponent x + F.prec - 1) ≤ |x| := by
    rcases (emin_le_ulpExponent (F := F) x).eq_or_lt with heq | hlt
    · rwa [← heq]
    · exact zpow_le_abs_of_emin_lt hx hlt
  have hsplit : F.ulp x = 2 ^ (1 - F.prec : ℤ) * 2 ^ (F.ulpExponent x + F.prec - 1) := by
    rw [ulp, ← zpow_add₀ two_ne_zero]
    congr 1
    omega
  rw [hsplit]
  gcongr

theorem abs_round_sub_le_mul (h : 2 ^ (F.emin + F.prec - 1) ≤ |x|) :
    |F.round x - x| ≤ 2 ^ (-F.prec : ℤ) * |x| := by
  have hhalf : (2 : ℚ) ^ (1 - F.prec : ℤ) = 2 ^ (-F.prec : ℤ) * 2 := by
    rw [sub_eq_neg_add, zpow_add_one₀ two_ne_zero]
  have := (abs_round_sub_le x).trans (div_le_div_of_nonneg_right (ulp_le h) two_pos.le)
  rw [hhalf] at this
  linarith

/-! ## Faithful results -/

/-- `r` is one of the numbers of the format next to `s`, and `s` itself when `s` is one. -/
structure Faithful (F : FloatFormat) (r s : ℚ) : Prop where
  representable : F.Representable r
  le_of_le : ∀ x, F.Representable x → x ≤ s → x ≤ r
  le_of_ge : ∀ x, F.Representable x → s ≤ x → r ≤ x

theorem faithful_round (x : ℚ) : F.Faithful (F.round x) x :=
  ⟨representable_round x, fun _ hr h => hr.le_round h, fun _ hr h => hr.round_le h⟩

namespace Faithful

theorem eq_of_representable (h : F.Faithful r s) (hs : F.Representable s) : r = s :=
  le_antisymm (h.le_of_ge s hs le_rfl) (h.le_of_le s hs le_rfl)

theorem neg (h : F.Faithful r s) : F.Faithful (-r) (-s) where
  representable := h.representable.neg
  le_of_le _ hx hle := le_neg_of_le_neg (h.le_of_ge _ hx.neg (le_neg_of_le_neg hle))
  le_of_ge _ hx hle := neg_le_of_neg_le (h.le_of_le _ hx.neg (neg_le_of_neg_le hle))

theorem nonneg (h : F.Faithful r s) (hs : 0 ≤ s) : 0 ≤ r := h.le_of_le 0 representable_zero hs

/-- A faithful result is less than one unit in the last place away. -/
theorem abs_sub_lt (h : F.Faithful r s) : |r - s| < F.ulp s := by
  have hpos := ulp_pos (F := F) s
  have hbelow : (⌊s / F.ulp s⌋ : ℚ) * F.ulp s ≤ s := by
    rw [← le_div_iff₀ hpos]
    exact Int.floor_le _
  have habove : s < (⌊s / F.ulp s⌋ + 1) * F.ulp s := by
    rw [← div_lt_iff₀ hpos]
    exact Int.lt_floor_add_one _
  -- both multiples around `s` are numbers of the format
  have hquotient : |s / F.ulp s| < ((2 ^ F.prec : ℤ) : ℚ) := by
    rw [abs_div, abs_of_pos hpos, div_lt_iff₀ hpos, ulp]
    have := abs_lt_zpow_ulpExponent (F := F) s
    rw [add_comm, zpow_add₀ two_ne_zero, zpow_natCast] at this
    exact_mod_cast this
  obtain ⟨hlow, hhigh⟩ := abs_lt.mp hquotient
  have hfloor_lt : ⌊s / F.ulp s⌋ < 2 ^ F.prec := Int.floor_lt.mpr hhigh
  have hle_floor : -2 ^ F.prec ≤ ⌊s / F.ulp s⌋ := Int.le_floor.mpr (by exact_mod_cast hlow.le)
  have hr_low : (⌊s / F.ulp s⌋ : ℚ) * F.ulp s ≤ r := by
    refine h.le_of_le _ (representable_of_le ?_ (emin_le_ulpExponent s)) hbelow
    exact abs_le.mpr ⟨hle_floor, hfloor_lt.le⟩
  have hr_high : r ≤ (⌊s / F.ulp s⌋ + 1) * F.ulp s := by
    refine h.le_of_ge _ ?_ habove.le
    have hsucc : |⌊s / F.ulp s⌋ + 1| ≤ 2 ^ F.prec := abs_le.mpr ⟨by omega, by omega⟩
    exact_mod_cast representable_of_le hsucc (emin_le_ulpExponent s)
  rcases hbelow.eq_or_lt with heq | hlt
  · -- a number of the format is its own result
    have hs : F.Representable s := by
      rw [← heq]
      exact representable_of_le (abs_le.mpr ⟨hle_floor, hfloor_lt.le⟩) (emin_le_ulpExponent _)
    rwa [h.eq_of_representable hs, sub_self, abs_zero]
  · rw [abs_lt]
    constructor <;> linarith

/-- Exact results are multiples of the smallest number of the format in sums and products of its
numbers. Below the normal range such a multiple is itself a number of the format. -/
theorem abs_sub_le_mul (h : F.Faithful r s) {n : ℤ} (hs : s = n * 2 ^ F.emin) :
    |r - s| ≤ 2 ^ (1 - F.prec : ℤ) * |s| := by
  rcases lt_or_ge |s| (2 ^ (F.emin + F.prec - 1)) with hlt | hge
  · have hn : |n| ≤ 2 ^ F.prec := by
      have hpow : (2 : ℚ) ^ (F.emin + F.prec - 1) ≤ 2 ^ (F.prec : ℤ) * 2 ^ F.emin := by
        rw [← zpow_add₀ two_ne_zero]
        exact zpow_le_zpow_right₀ one_le_two (by omega)
      have := hlt.le.trans hpow
      rw [hs, abs_mul, abs_of_pos (zpow_pos (two_pos : (0 : ℚ) < 2) F.emin),
        mul_le_mul_iff_left₀ (zpow_pos two_pos _), zpow_natCast] at this
      exact_mod_cast this
    have hexact : r = s := h.eq_of_representable (hs ▸ representable_of_le hn le_rfl)
    rw [hexact, sub_self, abs_zero]
    positivity
  · exact h.abs_sub_lt.le.trans (ulp_le hge)

end Faithful

end FloatFormat

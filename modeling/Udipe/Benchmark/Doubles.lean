import Udipe.Benchmark.Accumulator
import Udipe.Lib.FloatFormat

/-!
# `double` arithmetic

What the operations of C do on `double`: the exact result is rounded to nearest, and becomes an
infinity when the rounded number has no finite exponent. The two zeros are one number here.
-/

namespace Udipe

open FloatFormat

/-- The numbers of `binary64`, but for the bound on their exponents. -/
def binary64 : FloatFormat := ⟨53, -1074, by decide⟩

/-- A `double`. -/
inductive Double where
  | finite (value : ℚ)
  | infinite (negative : Bool)
  | nan
deriving DecidableEq, Repr

namespace Double

/-- A rounded number as a `double`. -/
def ofRounded (r : ℚ) : Double :=
  if |r| < 2 ^ 1024 then .finite r else .infinite (decide (r < 0))

/-- The result of an operation whose exact result is `x`. -/
def ofExact (x : ℚ) : Double := ofRounded (binary64.round x)

/-- `-x`. -/
def neg : Double → Double
  | .finite x => .finite (-x)
  | .infinite negative => .infinite (!negative)
  | .nan => .nan

/-- `x + y`. -/
def add : Double → Double → Double
  | .finite x, .finite y => ofExact (x + y)
  | .infinite s, .infinite t => if s = t then .infinite s else .nan
  | .infinite s, .finite _ => .infinite s
  | .finite _, .infinite t => .infinite t
  | .nan, _ => .nan
  | _, .nan => .nan

/-- `x * y`. -/
def mul : Double → Double → Double
  | .finite x, .finite y => ofExact (x * y)
  | .infinite s, .infinite t => .infinite (s ^^ t)
  | .infinite s, .finite y => if y = 0 then .nan else .infinite (s ^^ decide (y < 0))
  | .finite x, .infinite t => if x = 0 then .nan else .infinite (decide (x < 0) ^^ t)
  | .nan, _ => .nan
  | _, .nan => .nan

/-- `scalbn(x, exponent)`. -/
def scalbn (x : Double) (exponent : ℤ) : Double :=
  match x with
  | .finite x => ofExact (x * 2 ^ exponent)
  | x => x

/-- `x - y`. -/
def sub (x y : Double) : Double := add x (neg y)

/-- `x / y`, where zero counts as a positive divisor. -/
def div : Double → Double → Double
  | .finite x, .finite y =>
      if y ≠ 0 then ofExact (x / y)
      else if x = 0 then .nan
      else .infinite (decide (x < 0))
  | .infinite s, .finite y => .infinite (s ^^ decide (y < 0))
  | .finite _, .infinite _ => .finite 0
  | .infinite _, .infinite _ => .nan
  | .nan, _ => .nan
  | _, .nan => .nan

/-- `x < y`. -/
def lt : Double → Double → Bool
  | .finite x, .finite y => decide (x < y)
  | .infinite s, .infinite t => s && !t
  | .infinite s, .finite _ => s
  | .finite _, .infinite t => !t
  | .nan, _ => false
  | _, .nan => false

/-- `x <= y`. -/
def le : Double → Double → Bool
  | .finite x, .finite y => decide (x ≤ y)
  | .infinite s, .infinite t => s || !t
  | .infinite s, .finite _ => s
  | .finite _, .infinite t => !t
  | .nan, _ => false
  | _, .nan => false

/-- The conversion of a `uint64_t`. -/
def ofU64 (word : BitVec 64) : Double := ofExact word.toNat

/-- The conversion of a `size_t`. -/
def ofSize (n : ℕ) : Double := ofExact n

/-- The conversion of an `int64_t`. -/
def ofI64 (value : ℤ) : Double := ofExact value

/-- The conversion of an integral number to `size_t`, which is undefined outside of its range. -/
def toSize (n : ℤ) : Option ℕ := if 0 ≤ n ∧ n < 2 ^ 64 then some n.toNat else none

/-- The conversion of `ceil(x)` to `size_t`. -/
def ceilSize : Double → Option ℕ
  | .finite x => toSize ⌈x⌉
  | _ => none

/-- The conversion of `floor(x)` to `size_t`. -/
def floorSize : Double → Option ℕ
  | .finite x => toSize ⌊x⌋
  | _ => none

/-- The conversion of `round(x)` to `size_t`. Halves are rounded away from zero. -/
def roundSize : Double → Option ℕ
  | .finite x => toSize (if 0 ≤ x then ⌊x + 1 / 2⌋ else -⌊-x + 1 / 2⌋)
  | _ => none

/-! ## Operations on rounded numbers -/

variable {x y : ℚ} {k : ℤ}

theorem ofRounded_of_lt (h : |x| < 2 ^ 1024) : ofRounded x = .finite x := if_pos h

theorem ofRounded_of_ge (h : 2 ^ 1024 ≤ |x|) : ofRounded x = .infinite (decide (x < 0)) :=
  if_neg (not_lt.mpr h)

theorem ofExact_of_representable (h : binary64.Representable x) : ofExact x = ofRounded x := by
  rw [ofExact, round_of_representable h]

/-- The numbers that are a `double`. -/
def IsFinite (x : ℚ) : Prop := binary64.Representable x ∧ |x| < 2 ^ 1024

theorem isFinite_zero : IsFinite 0 :=
  ⟨representable_zero, by rw [abs_zero]; positivity⟩

theorem zpow_lt_overflow (hk : k < 1024) : (2 : ℚ) ^ k < 2 ^ 1024 := by
  rw [← zpow_natCast]
  exact zpow_lt_zpow_right₀ one_lt_two hk

theorem isFinite_zpow (hmin : -1074 ≤ k) (hmax : k < 1024) : IsFinite (2 ^ k) := by
  refine ⟨representable_zpow hmin, ?_⟩
  rw [abs_of_pos (zpow_pos two_pos k)]
  exact zpow_lt_overflow hmax

namespace IsFinite

theorem ofExact (h : IsFinite x) : Double.ofExact x = .finite x := by
  rw [ofExact_of_representable h.1, ofRounded_of_lt h.2]

/-- Numbers up to a `double` are rounded to one. -/
theorem round_of_le (h : IsFinite y) (hx : |x| ≤ y) : IsFinite (binary64.round x) := by
  refine ⟨representable_round x, lt_of_le_of_lt ?_ ((le_abs_self y).trans_lt h.2)⟩
  rw [abs_le] at hx ⊢
  exact ⟨h.1.neg.le_round hx.1, h.1.round_le hx.2⟩

theorem ofExact_of_le (h : IsFinite y) (hx : |x| ≤ y) :
    Double.ofExact x = .finite (binary64.round x) :=
  ofRounded_of_lt (h.round_of_le hx).2

end IsFinite

theorem ofRounded_neg (x : ℚ) : ofRounded (-x) = neg (ofRounded x) := by
  rcases lt_or_ge |x| (2 ^ 1024) with hlt | hge
  · rw [ofRounded_of_lt hlt, ofRounded_of_lt (by rwa [abs_neg])]
    rfl
  · have hne : x ≠ 0 := by
      rintro rfl
      rw [abs_zero] at hge
      exact absurd hge (not_le.mpr (by positivity))
    rw [ofRounded_of_ge hge, ofRounded_of_ge (by rwa [abs_neg]), neg]
    congr 1
    rcases hne.lt_or_gt with h | h
    · simp [h, h.le]
    · simp [h, h.le]

theorem neg_add_neg (a b : Double) : add (neg a) (neg b) = neg (add a b) := by
  cases a <;> cases b <;> simp only [neg, add]
  · rw [← neg_add, ofExact, round_neg, ofRounded_neg, ofExact]
    rfl
  · split_ifs <;> simp_all

/-- Numbers that are not negative add up to a rounded number, also beyond the finite ones. -/
theorem add_ofRounded (hx : binary64.Representable x) (hy : binary64.Representable y) (hx0 : 0 ≤ x)
    (hy0 : 0 ≤ y) : add (ofRounded x) (ofRounded y) = ofRounded (binary64.round (x + y)) := by
  have hxsum : x ≤ binary64.round (x + y) := hx.le_round (by linarith)
  have hysum : y ≤ binary64.round (x + y) := hy.le_round (by linarith)
  have hinfinite : ∀ {z : ℚ}, 0 ≤ z → 2 ^ 1024 ≤ z → ofRounded z = .infinite false := by
    intro z hz0 hz
    rw [ofRounded_of_ge (by rwa [abs_of_nonneg hz0]), decide_eq_false (not_lt.mpr hz0)]
  rcases lt_or_ge x (2 ^ 1024) with hxlt | hxge
  · rw [ofRounded_of_lt (by rwa [abs_of_nonneg hx0])]
    rcases lt_or_ge y (2 ^ 1024) with hylt | hyge
    · rw [ofRounded_of_lt (by rwa [abs_of_nonneg hy0])]
      rfl
    · rw [hinfinite hy0 hyge, hinfinite (hy0.trans hysum) (hyge.trans hysum)]
      rfl
  · rw [hinfinite hx0 hxge, hinfinite (hx0.trans hxsum) (hxge.trans hxsum)]
    rcases lt_or_ge y (2 ^ 1024) with hylt | hyge
    · rw [ofRounded_of_lt (by rwa [abs_of_nonneg hy0])]
      rfl
    · rw [hinfinite hy0 hyge]
      rfl

/-- Multiplying by a sign. -/
theorem one_mul_ofRounded (hx : binary64.Representable x) :
    mul (.finite 1) (ofRounded x) = ofRounded x := by
  rcases lt_or_ge |x| (2 ^ 1024) with hlt | hge
  · rw [ofRounded_of_lt hlt, mul, one_mul, ofExact_of_representable hx, ofRounded_of_lt hlt]
  · rw [ofRounded_of_ge hge, mul]
    norm_num

theorem neg_one_mul_ofRounded (hx : binary64.Representable x) :
    mul (.finite (-1)) (ofRounded x) = neg (ofRounded x) := by
  rcases lt_or_ge |x| (2 ^ 1024) with hlt | hge
  · rw [← ofRounded_neg, ofRounded_of_lt hlt, mul, neg_one_mul, ofExact_of_representable hx.neg]
  · rw [ofRounded_of_ge hge, mul]
    norm_num [neg]

/-! ## Words -/

theorem ofU64_eq (word : BitVec 64) : ofU64 word = .finite (binary64.round word.toNat) := by
  have hword : (word.toNat : ℚ) ≤ 2 ^ (64 : ℤ) := by exact_mod_cast word.isLt.le
  refine (isFinite_zpow (by decide) (by decide)).ofExact_of_le (y := 2 ^ (64 : ℤ)) ?_
  rwa [Nat.abs_cast]

theorem scalbn_ofU64 (word : BitVec 64) (hk : -1074 ≤ k) :
    scalbn (ofU64 word) k = ofRounded (binary64.round (word.toNat * 2 ^ k)) := by
  rw [ofU64_eq, scalbn, round_natCast_mul_zpow (by decide) _ hk,
    ofExact_of_representable (representable_round _)]

/-! ## Intervals -/

/-- A finite `double` between two bounds. -/
def Within (d : Double) (low high : ℚ) : Prop := ∃ x, d = .finite x ∧ low ≤ x ∧ x ≤ high

variable {d e : Double} {low high low' high' l h : ℚ}

theorem within_ofExact (hl : IsFinite l) (hh : IsFinite h) (hl0 : 0 ≤ l) (hlx : l ≤ x)
    (hxh : x ≤ h) : Within (ofExact x) l h := by
  refine ⟨binary64.round x, hh.ofExact_of_le ?_, hl.1.le_round hlx, hh.1.round_le hxh⟩
  rwa [abs_of_nonneg (hl0.trans hlx)]

namespace Within

theorem mul (hd : Within d low high) (he : Within e low' high') (hl : IsFinite l)
    (hh : IsFinite h) (hl0 : 0 ≤ l) (hlow : 0 ≤ low) (hlow' : 0 ≤ low') (hle : l ≤ low * low')
    (hge : high * high' ≤ h) : Within (Double.mul d e) l h := by
  obtain ⟨x, rfl, hx, hx'⟩ := hd
  obtain ⟨y, rfl, hy, hy'⟩ := he
  refine within_ofExact hl hh hl0 (hle.trans (mul_le_mul hx hy hlow' (hlow.trans hx))) ?_
  exact (mul_le_mul hx' hy' (hlow'.trans hy) ((hlow.trans hx).trans hx')).trans hge

theorem add (hd : Within d low high) (he : Within e low' high') (hl : IsFinite l)
    (hh : IsFinite h) (hl0 : 0 ≤ l) (hle : l ≤ low + low') (hge : high + high' ≤ h) :
    Within (Double.add d e) l h := by
  obtain ⟨x, rfl, hx, hx'⟩ := hd
  obtain ⟨y, rfl, hy, hy'⟩ := he
  exact within_ofExact hl hh hl0 (hle.trans (add_le_add hx hy)) ((add_le_add hx' hy').trans hge)

/-- A reciprocal. -/
theorem one_div (hd : Within d low high) (hl : IsFinite l) (hh : IsFinite h) (hl0 : 0 ≤ l)
    (hlow : 0 < low) (hle : l ≤ high⁻¹) (hge : low⁻¹ ≤ h) :
    Within (Double.div (.finite 1) d) l h := by
  obtain ⟨x, rfl, hx, hx'⟩ := hd
  have hx0 : 0 < x := hlow.trans_le hx
  rw [Double.div, if_pos hx0.ne', ← inv_eq_one_div]
  exact within_ofExact hl hh hl0 (hle.trans (inv_anti₀ hx0 hx')) ((inv_anti₀ hlow hx).trans hge)

theorem mono (hd : Within d low high) (hlow : low' ≤ low) (hhigh : high ≤ high') :
    Within d low' high' := by
  obtain ⟨x, rfl, hx, hx'⟩ := hd
  exact ⟨x, rfl, hlow.trans hx, hx'.trans hhigh⟩

end Within

end Double

end Udipe

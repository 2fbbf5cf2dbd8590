import Mathlib.Algebra.Order.Field.Power
import Mathlib.Data.Rat.Cast.Order
import Mathlib.Tactic.FieldSimp
import Mathlib.Tactic.Linarith
import Mathlib.Tactic.Positivity
import Mathlib.Tactic.Ring
import Schemata.Decimal.Binary64

namespace Schemata

namespace Binary64

theorem two_zpow_pos (e : ℤ) : (0 : ℚ) < 2 ^ e := zpow_pos (by norm_num) e

theorem lt_of_two_zpow_lt {e f : ℤ} (less : (2 : ℚ) ^ e < 2 ^ f) : e < f :=
  (zpow_lt_zpow_iff_right₀ (by norm_num)).mp less

/-- Places count the values of a binade one by one. -/
theorem place_eq (x : Binary64) : (x.place : ℤ) = (x.exponent + 1074) * 2 ^ 52 + x.significand := by
  have split := Nat.div_add_mod x.place (Nat.pow 2 52)
  simp only [exponent, significand, Nat.pow_eq] at split ⊢
  split <;> omega

theorem exponent_bounds (x : Binary64) : -1074 ≤ x.exponent ∧ x.exponent ≤ 971 := by
  have finite := x.finite
  simp only [exponent, limit, Nat.pow_eq] at finite ⊢
  omega

theorem significand_lt (x : Binary64) : x.significand < 2 ^ 53 := by
  simp only [significand, Nat.pow_eq]
  split <;> omega

theorem significand_pos {x : Binary64} (nonzero : x.place ≠ 0) : 0 < x.significand := by
  simp only [significand, Nat.pow_eq]
  split <;> omega

/-- Only the lowest binade has significands below the first of a binade. -/
theorem exponent_eq_or_le_significand (x : Binary64) : x.exponent = -1074 ∨ 2 ^ 52 ≤ x.significand := by
  simp only [exponent, significand, Nat.pow_eq]
  split <;> omega

theorem roundQuotient_eq {num den m : ℕ} (positive : 0 < den) (low : 2 * m * den ≤ 2 * num + den)
    (high : 2 * num ≤ (2 * m + 1) * den)
    (tie : m % 2 = 1 → 2 * m * den ≠ 2 * num + den ∧ 2 * num ≠ (2 * m + 1) * den) : roundQuotient num den = m := by
  have whole := Nat.div_add_mod num den
  have small := Nat.mod_lt num positive
  have atMost : num / den ≤ m := by
    by_contra more
    have : (m + 1) * den ≤ num := (Nat.le_div_iff_mul_le positive).mp (by omega)
    linarith
  have atLeast : m ≤ num / den + 1 := by
    by_contra less
    have : den * (num / den + 2) ≤ den * m := Nat.mul_le_mul_left den (by omega)
    nlinarith
  rcases Nat.eq_or_lt_of_le atMost with same | below
  · -- the rest is at most half of the denominator
    subst same
    have rest : 2 * (num % den) ≤ den := by nlinarith
    simp only [roundQuotient]
    split_ifs with under half
    · rfl
    · have even : num / den % 2 ≠ 1 := fun odd => (tie odd).2 (by nlinarith)
      omega
    · omega
  · -- the rest is at least half of the denominator
    obtain rfl : m = num / den + 1 := by omega
    have rest : den ≤ 2 * (num % den) := by nlinarith
    simp only [roundQuotient]
    split_ifs with under half
    · omega
    · have odd : num / den % 2 ≠ 0 := fun even => (tie (by omega)).1 (by nlinarith)
      omega
    · rfl

/-- The same about the value of the quotient. -/
theorem roundQuotient_of_quotient {num den m : ℕ} {y : ℚ} (positive : 0 < den) (value : (num : ℚ) / den = y)
    (low : 2 * (m : ℚ) - 1 ≤ 2 * y) (high : 2 * y ≤ 2 * m + 1)
    (tie : m % 2 = 1 → 2 * (m : ℚ) - 1 ≠ 2 * y ∧ 2 * y ≠ 2 * m + 1) : roundQuotient num den = m := by
  have denPos : (0 : ℚ) < den := by exact_mod_cast positive
  have product : (num : ℚ) = y * den := (div_eq_iff denPos.ne').mp value
  refine roundQuotient_eq positive ?_ ?_ fun odd => ⟨fun same => (tie odd).1 ?_, fun same => (tie odd).2 ?_⟩
  · rw [← Nat.cast_le (α := ℚ)]
    push_cast
    nlinarith
  · rw [← Nat.cast_le (α := ℚ)]
    push_cast
    nlinarith
  · have same : (2 * m * den : ℚ) = 2 * num + den := by exact_mod_cast same
    refine mul_right_cancel₀ denPos.ne' ?_
    linarith
  · have same : (2 * num : ℚ) = (2 * m + 1) * den := by exact_mod_cast same
    refine mul_right_cancel₀ denPos.ne' ?_
    linarith

/-- Numerator and denominator of the quotient over `2 ^ e`. -/
def scaled (num den : ℕ) (e : ℤ) : ℕ × ℕ :=
  if 0 ≤ e then (num, den * Nat.pow 2 e.toNat) else (num * Nat.pow 2 (-e).toNat, den)

theorem scaled_pos {num den : ℕ} (positive : 0 < den) (e : ℤ) : 0 < (scaled num den e).2 := by
  unfold scaled
  split
  · exact Nat.mul_pos positive (Nat.two_pow_pos _)
  · exact positive

theorem scaled_quotient (num den : ℕ) (e : ℤ) :
    ((scaled num den e).1 : ℚ) / (scaled num den e).2 = num / den / 2 ^ e := by
  unfold scaled
  split
  · rename_i up
    obtain ⟨n, rfl⟩ := Int.eq_ofNat_of_zero_le up
    simp only [Nat.pow_eq, Int.toNat_natCast, Nat.cast_mul, Nat.cast_pow, Nat.cast_ofNat, zpow_natCast, div_div]
  · rename_i down
    obtain ⟨n, rfl⟩ : ∃ n : ℕ, e = -(n : ℤ) := ⟨(-e).toNat, by omega⟩
    simp only [Nat.pow_eq, neg_neg, Int.toNat_natCast, Nat.cast_mul, Nat.cast_pow, Nat.cast_ofNat, zpow_neg,
      zpow_natCast, div_inv_eq_mul]
    ring

/-- The lower of the two binades that the lengths leave. -/
def lowBinade (num den : ℕ) : ℤ := max ((num.log2 : ℤ) - den.log2 - 53) (-1074)

/-- The quotient lies between the powers of two that the lengths give. -/
theorem quotient_bounds {num den : ℕ} (numPos : 0 < num) (denPos : 0 < den) :
    (2 : ℚ) ^ ((num.log2 : ℤ) - den.log2 - 1) < num / den ∧ (num / den : ℚ) < 2 ^ ((num.log2 : ℤ) - den.log2 + 1) := by
  have numLow : (2 : ℚ) ^ (num.log2 : ℤ) ≤ num := by exact_mod_cast Nat.log2_self_le numPos.ne'
  have numHigh : (num : ℚ) < 2 ^ (num.log2 + 1 : ℤ) := by exact_mod_cast Nat.lt_log2_self (n := num)
  have denLow : (2 : ℚ) ^ (den.log2 : ℤ) ≤ den := by exact_mod_cast Nat.log2_self_le denPos.ne'
  have denHigh : (den : ℚ) < 2 ^ (den.log2 + 1 : ℤ) := by exact_mod_cast Nat.lt_log2_self (n := den)
  have den' : (0 : ℚ) < den := by exact_mod_cast denPos
  constructor
  · rw [lt_div_iff₀ den']
    calc (2 : ℚ) ^ ((num.log2 : ℤ) - den.log2 - 1) * den
        < 2 ^ ((num.log2 : ℤ) - den.log2 - 1) * 2 ^ (den.log2 + 1 : ℤ) :=
          mul_lt_mul_of_pos_left denHigh (two_zpow_pos _)
      _ = 2 ^ (num.log2 : ℤ) := by
        rw [← zpow_add₀ (by norm_num)]
        congr 1
        ring
      _ ≤ num := numLow
  · rw [div_lt_iff₀ den']
    calc (num : ℚ) < 2 ^ (num.log2 + 1 : ℤ) := numHigh
      _ = 2 ^ ((num.log2 : ℤ) - den.log2 + 1) * 2 ^ (den.log2 : ℤ) := by
        rw [← zpow_add₀ (by norm_num)]
        congr 1
        ring
      _ ≤ 2 ^ ((num.log2 : ℤ) - den.log2 + 1) * den := mul_le_mul_of_nonneg_left denLow (two_zpow_pos _).le

theorem nearestPlace_eq_scaled {num den : ℕ} (numPos : 0 < num) (denPos : 0 < den) :
    nearestPlace num den =
      let low := lowBinade num den
      let e := if (scaled num den low).1 / (scaled num den low).2 ≥ 2 ^ 53 then low + 1 else low
      (e + 1074).toNat * 2 ^ 52 + roundQuotient (scaled num den e).1 (scaled num den e).2 := by
  rw [nearestPlace, if_neg (by omega)]
  rfl

/-- A binade in which the quotient fits, and no lower one, is the one that is found. -/
theorem binade_eq {num den : ℕ} {e : ℤ} {y : ℚ} (numPos : 0 < num) (denPos : 0 < den) (least : -1074 ≤ e)
    (value : (num : ℚ) / den = y * 2 ^ e) (fits : y < 2 ^ 53) (tight : e = -1074 ∨ 2 ^ 52 ≤ y) :
    (if (scaled num den (lowBinade num den)).1 / (scaled num den (lowBinade num den)).2 ≥ 2 ^ 53
      then lowBinade num den + 1 else lowBinade num den) = e := by
  obtain ⟨lower, upper⟩ := quotient_bounds numPos denPos
  have lowIs : lowBinade num den = max ((num.log2 : ℤ) - den.log2 - 53) (-1074) := rfl
  generalize lowBinade num den = low at lowIs ⊢
  -- the quotient is below the end of the binade `e`, and reaches its start except in the lowest one
  have above : (num / den : ℚ) < 2 ^ (e + 53) := by
    rw [value, add_comm, zpow_add₀ (by norm_num)]
    exact mul_lt_mul_of_pos_right (by exact_mod_cast fits) (two_zpow_pos e)
  have below : -1074 < e → (2 : ℚ) ^ (e + 52) ≤ num / den := by
    intro higher
    rw [value, add_comm, zpow_add₀ (by norm_num)]
    exact mul_le_mul_of_nonneg_right (by exact_mod_cast tight.resolve_left (by omega)) (two_zpow_pos e).le
  have test : (scaled num den low).1 / (scaled num den low).2 ≥ 2 ^ 53 ↔ (2 : ℚ) ^ (low + 53) ≤ num / den := by
    rw [ge_iff_le, Nat.le_div_iff_mul_le (scaled_pos denPos low), ← Nat.cast_le (α := ℚ), Nat.cast_mul,
      ← le_div_iff₀ (by exact_mod_cast scaled_pos denPos low), scaled_quotient, le_div_iff₀ (two_zpow_pos low),
      add_comm, zpow_add₀ (by norm_num)]
    norm_num
  split_ifs with reaches
  · have := lt_of_two_zpow_lt ((test.mp reaches).trans_lt above)
    have := lt_of_two_zpow_lt ((below (by omega)).trans_lt upper)
    omega
  · have misses := not_le.mp (mt test.mpr reaches)
    have atMost : e ≤ low := by
      by_contra higher
      have := lt_of_two_zpow_lt ((below (by omega)).trans_lt misses)
      omega
    have := lt_of_two_zpow_lt (lower.trans above)
    omega

theorem nearestPlace_of_quotient {num den m : ℕ} {e : ℤ} {y : ℚ} (numPos : 0 < num) (denPos : 0 < den)
    (least : -1074 ≤ e) (value : (num : ℚ) / den = y * 2 ^ e) (fits : y < 2 ^ 53) (tight : e = -1074 ∨ 2 ^ 52 ≤ y)
    (low : 2 * (m : ℚ) - 1 ≤ 2 * y) (high : 2 * y ≤ 2 * m + 1)
    (tie : m % 2 = 1 → 2 * (m : ℚ) - 1 ≠ 2 * y ∧ 2 * y ≠ 2 * m + 1) :
    nearestPlace num den = (e + 1074).toNat * 2 ^ 52 + m := by
  rw [nearestPlace_eq_scaled numPos denPos]
  simp only [binade_eq numPos denPos least value fits tight]
  congr 1
  refine roundQuotient_of_quotient (scaled_pos denPos e) ?_ low high tie
  rw [scaled_quotient, value, mul_div_assoc, div_self (two_zpow_pos e).ne', mul_one]

/-- How far below the value its interval begins, in quarters of the step: the step is half as long below the first value
of a binade. -/
def stepBelow (x : Binary64) : ℕ := if x.significand = 2 ^ 52 ∧ x.exponent ≠ -1074 then 1 else 2

theorem stepBelow_bounds (x : Binary64) : (1 : ℚ) ≤ x.stepBelow ∧ (x.stepBelow : ℚ) ≤ 2 := by
  unfold stepBelow
  split <;> norm_num

/-- The number lies between the midpoints to the neighbours of the magnitude of `x`; on a midpoint only when the
significand is even. -/
structure Nearest (x : Binary64) (q : ℚ) : Prop where
  low : (4 * x.significand - x.stepBelow : ℚ) * 2 ^ (x.exponent - 2) ≤ q
  high : q ≤ (4 * x.significand + 2 : ℚ) * 2 ^ (x.exponent - 2)
  tie : x.significand % 2 = 1 → (4 * x.significand - x.stepBelow : ℚ) * 2 ^ (x.exponent - 2) ≠ q ∧
    q ≠ (4 * x.significand + 2 : ℚ) * 2 ^ (x.exponent - 2)

/-- Rounding gives the value whose neighbours are farther away. -/
theorem nearestPlace_of_nearest {x : Binary64} {num den : ℕ} (numPos : 0 < num) (denPos : 0 < den)
    (near : x.Nearest (num / den)) : nearestPlace num den = x.place := by
  have place := x.place_eq
  have bounds := x.exponent_bounds
  have width := x.significand_lt
  have binade := x.exponent_eq_or_le_significand
  have margin := x.stepBelow_bounds
  obtain ⟨low, high, tie⟩ := near
  -- the quotient in steps of `x`
  obtain ⟨y, value⟩ : ∃ y : ℚ, (num / den : ℚ) = y * 2 ^ x.exponent :=
    ⟨num / den / 2 ^ x.exponent, (div_mul_cancel₀ _ (two_zpow_pos _).ne').symm⟩
  have quarter : (2 : ℚ) ^ (x.exponent - 2) = 2 ^ x.exponent / 4 := by
    rw [zpow_sub₀ (by norm_num)]
    norm_num
  have step := two_zpow_pos x.exponent
  rw [value, quarter] at low high tie
  have low : (4 * x.significand - x.stepBelow : ℚ) ≤ 4 * y := by
    refine le_of_mul_le_mul_right ?_ step
    linarith
  have high : 4 * y ≤ (4 * x.significand + 2 : ℚ) := by
    refine le_of_mul_le_mul_right ?_ step
    linarith
  have tie : x.significand % 2 = 1 → (4 * x.significand - x.stepBelow : ℚ) ≠ 4 * y ∧ 4 * y ≠ 4 * x.significand + 2 := by
    refine fun odd => ⟨fun same => (tie odd).1 ?_, fun same => (tie odd).2 ?_⟩
    · rw [same]
      ring
    · rw [← same]
      ring
  have widthQ : (x.significand : ℚ) + 1 ≤ 2 ^ 53 := by exact_mod_cast width
  by_cases inside : x.exponent = -1074 ∨ 2 ^ 52 ≤ y
  · -- in the binade of `x`
    have found : nearestPlace num den = (x.exponent + 1074).toNat * 2 ^ 52 + x.significand := by
      refine nearestPlace_of_quotient numPos denPos bounds.1 value (by linarith) inside (by linarith) (by linarith)
        fun odd => ⟨fun same => ?_, fun same => (tie odd).2 (by linarith)⟩
      have whole : x.stepBelow = 2 := if_neg fun first => by omega
      rw [whole] at tie
      exact (tie odd).1 (by push_cast; linarith)
    omega
  · -- in the binade below: `x` is the first value of its own
    rw [not_or, not_le] at inside
    have first : x.significand = 2 ^ 52 := by
      have large := binade.resolve_left inside.1
      by_contra differ
      have more : (2 : ℚ) ^ 52 + 1 ≤ x.significand := by exact_mod_cast Nat.lt_of_le_of_ne large (Ne.symm differ)
      linarith [inside.2]
    have half : x.stepBelow = 1 := if_pos ⟨first, inside.1⟩
    rw [half, first] at low
    push_cast at low
    have value' : (num / den : ℚ) = 2 * y * 2 ^ (x.exponent - 1) := by
      rw [value, zpow_sub₀ (by norm_num)]
      ring
    have found : nearestPlace num den = (x.exponent - 1 + 1074).toNat * 2 ^ 52 + 2 ^ 53 := by
      refine nearestPlace_of_quotient numPos denPos (by omega) value' (by linarith [inside.2]) (Or.inr (by linarith)) ?_ ?_
        fun odd => absurd odd (by norm_num)
      · push_cast
        linarith
      · push_cast
        linarith [inside.2]
    omega

end Binary64

end Schemata

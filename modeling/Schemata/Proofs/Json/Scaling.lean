import Schemata.Json.Number
import Schemata.Proofs.Decimal.Monotone

namespace Schemata

namespace Number

open Binary64

/-- The midpoint above the last but one finite value. -/
def reach : ℕ := (4 * (2 ^ 53 - 2) + 2) * 2 ^ 969

/-- The digits of the last finite value, which go with `10 ^ 292`. -/
def lastDigits : ℕ := 17976931348623157

/-- The greatest significand for a power of ten: what stays in reach, and the digits of the last finite value. Up to
`10 ^ 288` any significand does. -/
def topSignificand (power : ℕ) : ℕ :=
  if power ≤ 288 then 2 ^ 64 - 1
  else if power = 292 then max (reach / 10 ^ power) lastDigits
  else reach / 10 ^ power

theorem scaled_topSignificand : ∀ power < 309, 288 ≤ power → ((ofRatio? false (topSignificand power) 1).bind fun x =>
    (ofRatio? false (10 ^ power) 1).bind x.mul?).isSome := by
  decide +kernel

/-- The powers of ten are in range, each as the value nearest to it. -/
theorem ofRatio?_pow {n : ℕ} (inRange : n ≤ 308) : ofRatio? false (10 ^ n) 1 = some (powerOfTen n) := by
  obtain ⟨z, product⟩ := Option.isSome_iff_exists.mp (scaled_topSignificand 308 (by norm_num) (by norm_num))
  obtain ⟨x, -, product⟩ := Option.bind_eq_some_iff.mp product
  obtain ⟨y, last, -⟩ := Option.bind_eq_some_iff.mp product
  obtain ⟨value, rounded, -⟩ := ofRatio?_nat_mono (pow_le_pow_right₀ (by norm_num) inRange) last
  have same : Binary64.ofDecimal? false 1 n = ofRatio? false (10 ^ n) 1 := by
    rw [Binary64.ofDecimal?, if_neg (by decide), if_neg (by omega), if_neg (by omega), if_pos (Int.natCast_nonneg n),
      Nat.one_mul, Int.toNat_natCast, Nat.pow_eq]
  rw [powerOfTen, same, rounded]
  rfl

theorem powerOfTen_mono {n m : ℕ} (order : n ≤ m) (inRange : m ≤ 308) :
    (powerOfTen n).place ≤ (powerOfTen m).place := by
  obtain ⟨x, rounded, places⟩ := ofRatio?_nat_mono (pow_le_pow_right₀ (by norm_num) order) (ofRatio?_pow inRange)
  rwa [Option.some.inj ((ofRatio?_pow (order.trans inRange)).symm.trans rounded)]

theorem one_le_powerOfTen {n : ℕ} (inRange : n ≤ 308) : 1 ≤ (powerOfTen n).magnitude := by
  have one : 1 ≤ (powerOfTen 0).magnitude := by
    rw [← ratio_quotient, one_le_div (by exact_mod_cast ratio_den_pos _)]
    exact_mod_cast (by decide : (powerOfTen 0).ratio.2 ≤ (powerOfTen 0).ratio.1)
  exact one.trans (magnitude_le_of_place_le (powerOfTen_mono (Nat.zero_le n) inRange))

theorem scale_of_neg (x : Binary64) {exponent : ℤ} (down : exponent < 0) : ∃ y, scale x exponent = some y := by
  induction steps : (-exponent).toNat using Nat.strong_induction_on generalizing x exponent with
  | _ n ih =>
    rw [scale]
    split_ifs with far zero
    · exact ⟨x, rfl⟩
    · obtain ⟨y, divided, -⟩ := x.div?_le (one_le_powerOfTen (Nat.le_refl 308))
      rw [divided, Option.bind_some]
      exact ih _ (by omega) y (by omega) rfl
    · obtain ⟨y, divided, -⟩ := x.div?_le (one_le_powerOfTen (by omega : (-exponent).toNat ≤ 308))
      exact ⟨y, divided⟩

theorem reach_lt : reach < 10 ^ 309 := by decide +kernel

theorem reach_cast : (reach : ℚ) = (2 ^ 55 - 6) * 2 ^ (969 : ℤ) := by
  rw [reach, Nat.cast_mul, Nat.cast_pow, ← zpow_natCast]
  norm_num only

/-- What rounds to a finite value other than the last one is in reach. -/
theorem le_reach_of_nearest {x : Binary64} {q : ℚ} (below : x.place + 1 < limit) (near : x.Nearest q) : q ≤ reach := by
  have place := x.place_eq
  have bounds := x.exponent_bounds
  have width := x.significand_lt
  simp only [limit, Nat.pow_eq] at below
  refine near.high.trans ?_
  rw [reach_cast]
  rcases Int.lt_or_eq_of_le bounds.2 with lower | last
  · have quarters : (4 * x.significand + 2 : ℚ) ≤ 2 ^ 55 - 2 := by
      have : (x.significand : ℚ) + 1 ≤ 2 ^ 53 := by exact_mod_cast width
      linarith
    have step : (2 : ℚ) ^ (969 : ℤ) = 2 ^ (968 : ℤ) * 2 := zpow_add_one₀ (by norm_num) 968
    have positive := two_zpow_pos 968
    calc (4 * x.significand + 2 : ℚ) * 2 ^ (x.exponent - 2) ≤ (2 ^ 55 - 2) * 2 ^ (968 : ℤ) :=
          mul_le_mul quarters (zpow_le_zpow_right₀ (by norm_num) (by omega)) (two_zpow_pos _).le (by norm_num)
      _ ≤ (2 ^ 55 - 6) * 2 ^ (969 : ℤ) := by
        rw [step]
        generalize (2 : ℚ) ^ (968 : ℤ) = unit at positive ⊢
        linarith
  · have quarters : (4 * x.significand + 2 : ℚ) ≤ 2 ^ 55 - 6 := by
      have : (x.significand : ℚ) + 2 ≤ 2 ^ 53 := by exact_mod_cast (by omega : x.significand + 2 ≤ 2 ^ 53)
      linarith
    rw [last]
    exact mul_le_mul_of_nonneg_right quarters (two_zpow_pos 969).le

theorem le_topSignificand {significand power : ℕ} (small : significand < 2 ^ 64)
    (within : significand * 10 ^ power ≤ reach) : significand ≤ topSignificand power := by
  have quotient : significand ≤ reach / 10 ^ power := (Nat.le_div_iff_mul_le (Nat.pow_pos (by norm_num))).mpr within
  unfold topSignificand
  split_ifs
  · exact Nat.le_pred_of_lt small
  · exact quotient.trans (Nat.le_max_left _ _)
  · exact quotient

/-- Smaller significands and smaller powers of ten have smaller products. -/
theorem scale_of_le_top {significand power : ℕ} (fits : significand ≤ topSignificand power) (inRange : power ≤ 308) :
    ∃ x y, ofRatio? false significand 1 = some x ∧ scale x power = some y := by
  have top : topSignificand power ≤ topSignificand (max power 288) := by
    rcases Nat.le_total 288 power with far | near
    · rw [Nat.max_eq_left far]
    · rw [Nat.max_eq_right near, topSignificand, topSignificand, if_pos near, if_pos (Nat.le_refl 288)]
  obtain ⟨z, bound⟩ := Option.isSome_iff_exists.mp (scaled_topSignificand (max power 288) (by omega) (by omega))
  obtain ⟨x', rounded, bound⟩ := Option.bind_eq_some_iff.mp bound
  obtain ⟨y', upper, product⟩ := Option.bind_eq_some_iff.mp bound
  obtain rfl := Option.some.inj ((ofRatio?_pow (by omega)).symm.trans upper)
  obtain ⟨x, value, lower⟩ := ofRatio?_nat_mono (fits.trans top) rounded
  obtain ⟨y, scaled, -⟩ := mul?_mono lower (powerOfTen_mono (Nat.le_max_left power 288) (by omega)) product
  refine ⟨x, y, value, ?_⟩
  rw [scale, if_neg (by omega), if_neg (by omega), if_pos (by omega), Int.toNat_natCast, scaled]

theorem scale_of_le_reach {significand power : ℕ} (small : significand < 2 ^ 64)
    (within : significand * 10 ^ power ≤ reach) :
    ∃ x y, ofRatio? false significand 1 = some x ∧ scale x power = some y := by
  by_cases inRange : power ≤ 308
  · exact scale_of_le_top (le_topSignificand small within) inRange
  · -- only zero stays in reach with so great a power
    have far : 309 ≤ power := by omega
    have none : significand = 0 := by
      refine Nat.eq_zero_of_not_pos fun positive => ?_
      have more : 10 ^ 309 ≤ significand * 10 ^ power :=
        (pow_le_pow_right₀ (by norm_num) far).trans (Nat.le_mul_of_pos_left _ positive)
      exact absurd (more.trans within) (Nat.not_le.mpr reach_lt)
    subst none
    refine ⟨zero false, zero false, rfl, ?_⟩
    rw [scale, if_neg (by omega), if_neg (by omega), if_neg (by omega), if_pos (show (zero false).place = 0 from rfl)]

theorem ofParts?_of_scale {significand : ℕ} {exponent : ℤ} (negative : Bool)
    (scaled : ∃ x y, ofRatio? false significand 1 = some x ∧ scale x exponent = some y) :
    ∃ n, ofParts? negative significand exponent = some n := by
  obtain ⟨x, y, value, scaled⟩ := scaled
  refine ⟨.float { y with negative }, ?_⟩
  simp only [ofParts?, value, scaled, Option.bind_eq_bind, Option.bind_some]
  rfl

/-- Parts whose number is in reach have a value; scaled down, all of them have one. -/
theorem ofParts?_isSome (negative : Bool) {significand : ℕ} {exponent : ℤ} (small : significand < 2 ^ 64)
    (within : exponent ≤ 0 ∨ (significand * 10 ^ exponent : ℚ) ≤ reach) :
    ∃ n, ofParts? negative significand exponent = some n := by
  refine ofParts?_of_scale negative ?_
  have whole : ∃ x y, ofRatio? false significand 1 = some x ∧ scale x (0 : ℕ) = some y := by
    refine scale_of_le_top ?_ (by norm_num)
    rw [topSignificand, if_pos (by norm_num)]
    exact Nat.le_pred_of_lt small
  rcases Int.lt_or_le exponent 0 with down | up
  · obtain ⟨x, -, value, -⟩ := whole
    obtain ⟨y, scaled⟩ := scale_of_neg x down
    exact ⟨x, y, value, scaled⟩
  · obtain ⟨power, rfl⟩ := Int.eq_ofNat_of_zero_le up
    rcases within with zero | within
    · obtain rfl : power = 0 := by omega
      exact whole
    · refine scale_of_le_reach small ?_
      rw [zpow_natCast] at within
      exact_mod_cast within

/-- The last finite value is past the reach, but its digits are in range. -/
theorem ofParts?_last (negative : Bool) : ∃ n, ofParts? negative lastDigits 292 = some n := by
  have top : lastDigits ≤ topSignificand 292 := by
    rw [topSignificand, if_neg (by norm_num), if_pos rfl]
    exact Nat.le_max_right _ _
  exact ofParts?_of_scale negative (scale_of_le_top top (by norm_num))

end Number

end Schemata

import Mathlib.Data.Int.Log
import Mathlib.Data.Rat.Floor
import Schemata.Proofs.Decimal.Rounding

namespace Schemata

namespace Binary64

/-- The exact magnitude. -/
def magnitude (x : Binary64) : ℚ := x.significand * 2 ^ x.exponent

theorem magnitude_nonneg (x : Binary64) : 0 ≤ x.magnitude :=
  mul_nonneg (Nat.cast_nonneg _) (two_zpow_pos _).le

theorem ratio_den_pos (x : Binary64) : 0 < x.ratio.2 := by
  unfold ratio
  split
  · exact Nat.one_pos
  · exact Nat.two_pow_pos _

theorem ratio_quotient (x : Binary64) : (x.ratio.1 / x.ratio.2 : ℚ) = x.magnitude := by
  unfold ratio magnitude
  split
  · rename_i up
    obtain ⟨n, whole⟩ := Int.eq_ofNat_of_zero_le up
    simp only [whole, Nat.pow_eq, Int.toNat_natCast, Nat.cast_mul, Nat.cast_pow, Nat.cast_ofNat, zpow_natCast,
      Nat.cast_one, div_one]
  · rename_i down
    obtain ⟨n, whole⟩ : ∃ n : ℕ, x.exponent = -(n : ℤ) := ⟨(-x.exponent).toNat, by omega⟩
    simp only [whole, Nat.pow_eq, neg_neg, Int.toNat_natCast, Nat.cast_pow, Nat.cast_ofNat, zpow_neg, zpow_natCast,
      div_eq_mul_inv]

/-- Places are in the order of the magnitudes. -/
theorem magnitude_le_of_place_le {x y : Binary64} (order : x.place ≤ y.place) : x.magnitude ≤ y.magnitude := by
  have placeX := x.place_eq
  have placeY := y.place_eq
  have widthX := x.significand_lt
  have widthY := y.significand_lt
  have step := two_zpow_pos x.exponent
  have binade : x.exponent ≤ y.exponent := by
    have := x.exponent_eq_or_le_significand
    have := y.exponent_bounds
    omega
  rcases Int.le_iff_eq_or_lt.mp binade with same | lower
  · have digits : (x.significand : ℚ) ≤ y.significand := by
      exact_mod_cast (by omega : x.significand ≤ y.significand)
    rw [magnitude, magnitude, same]
    exact mul_le_mul_of_nonneg_right digits (two_zpow_pos _).le
  · have start : 2 ^ 52 ≤ y.significand := by
      have := y.exponent_eq_or_le_significand
      have := x.exponent_bounds
      omega
    calc x.magnitude ≤ 2 ^ 53 * 2 ^ x.exponent :=
          mul_le_mul_of_nonneg_right (by exact_mod_cast widthX.le) step.le
      _ = 2 ^ 52 * 2 ^ (x.exponent + 1) := by
        rw [zpow_add₀ (by norm_num)]
        norm_num
        ring
      _ ≤ 2 ^ 52 * 2 ^ y.exponent :=
        mul_le_mul_of_nonneg_left (zpow_le_zpow_right₀ (by norm_num) lower) (by norm_num)
      _ ≤ y.magnitude := mul_le_mul_of_nonneg_right (by exact_mod_cast start) (two_zpow_pos _).le

/-- A value is the nearest to itself. -/
theorem nearest_magnitude (x : Binary64) : x.Nearest x.magnitude := by
  have quarter : x.magnitude = 4 * x.significand * 2 ^ (x.exponent - 2) := by
    rw [magnitude, zpow_sub₀ (by norm_num)]
    ring
  have step := two_zpow_pos (x.exponent - 2)
  have below := x.stepBelow_bounds.1
  have low : (4 * x.significand - x.stepBelow : ℚ) * 2 ^ (x.exponent - 2) < x.magnitude := by
    rw [quarter]
    exact mul_lt_mul_of_pos_right (by linarith) step
  have high : x.magnitude < (4 * x.significand + 2 : ℚ) * 2 ^ (x.exponent - 2) := by
    rw [quarter]
    exact mul_lt_mul_of_pos_right (by linarith) step
  exact ⟨low.le, high.le, fun _ => ⟨low.ne, high.ne⟩⟩

theorem nearestPlace_ratio (x : Binary64) : nearestPlace x.ratio.1 x.ratio.2 = x.place := by
  rcases Nat.eq_zero_or_pos x.ratio.1 with none | positive
  · have zero : x.magnitude = 0 := by rw [← ratio_quotient, none, Nat.cast_zero, zero_div]
    rw [magnitude, mul_eq_zero, or_iff_left (two_zpow_pos _).ne', Nat.cast_eq_zero] at zero
    rw [nearestPlace, if_pos (Or.inl none)]
    exact (by_contra fun nonzero => (significand_pos nonzero).ne' zero : x.place = 0).symm
  · refine nearestPlace_of_nearest positive x.ratio_den_pos ?_
    rw [ratio_quotient]
    exact x.nearest_magnitude

/-- The natural number nearest to `y`; a tie goes to the even one. -/
structure RoundsTo (y : ℚ) (m : ℕ) : Prop where
  low : 2 * (m : ℚ) - 1 ≤ 2 * y
  high : 2 * y ≤ 2 * m + 1
  tie : m % 2 = 1 → 2 * (m : ℚ) - 1 ≠ 2 * y ∧ 2 * y ≠ 2 * m + 1

theorem RoundsTo.mono {y y' : ℚ} {m m' : ℕ} (rounds : RoundsTo y m) (rounds' : RoundsTo y' m') (order : y ≤ y') :
    m ≤ m' := by
  by_contra more
  have next : (m' : ℚ) + 1 ≤ m := by exact_mod_cast Nat.lt_of_not_le more
  have low := rounds.low
  have high := rounds'.high
  -- both are halfway between `m'` and `m`, so both of these are even
  have half : 2 * (m : ℚ) - 1 = 2 * y := by linarith
  have half' : 2 * y' = 2 * (m' : ℚ) + 1 := by linarith
  have neighbour : m = m' + 1 := by
    have : (m : ℚ) = m' + 1 := by linarith
    exact_mod_cast this
  have even : m % 2 ≠ 1 := fun odd => (rounds.tie odd).1 half
  have even' : m' % 2 ≠ 1 := fun odd => (rounds'.tie odd).2 half'
  omega

theorem roundQuotient_rounds {num den : ℕ} (positive : 0 < den) :
    RoundsTo (num / den) (roundQuotient num den) := by
  have denPos : (0 : ℚ) < den := by exact_mod_cast positive
  have small : (num % den : ℕ) < (den : ℚ) := by exact_mod_cast Nat.mod_lt num positive
  have rest : (0 : ℚ) ≤ (num % den : ℕ) := Nat.cast_nonneg _
  -- the quotient is its floor and the rest over the denominator
  obtain ⟨y, value⟩ : ∃ y : ℚ, (num / den : ℚ) = y := ⟨_, rfl⟩
  have split : ((num / den : ℕ) : ℚ) * den + (num % den : ℕ) = y * den := by
    rw [← value, div_mul_cancel₀ _ denPos.ne']
    exact_mod_cast Nat.div_add_mod' num den
  rw [value]
  have scale {a b : ℚ} (less : a * den < b * den) : a < b := lt_of_mul_lt_mul_right less denPos.le
  have next : ((num / den + 1 : ℕ) : ℚ) = (num / den : ℕ) + 1 := Nat.cast_succ _
  unfold roundQuotient
  dsimp only
  split_ifs with under half
  · have under : 2 * ((num % den : ℕ) : ℚ) < den := by exact_mod_cast under
    have low : 2 * ((num / den : ℕ) : ℚ) - 1 < 2 * y := scale (by linarith)
    have high : 2 * y < 2 * ((num / den : ℕ) : ℚ) + 1 := scale (by linarith)
    exact ⟨low.le, high.le, fun _ => ⟨low.ne, high.ne⟩⟩
  · have half : 2 * ((num % den : ℕ) : ℚ) = den := by exact_mod_cast half
    have middle : 2 * y = 2 * ((num / den : ℕ) : ℚ) + 1 := mul_right_cancel₀ denPos.ne' (by linarith)
    rcases Nat.mod_two_eq_zero_or_one (num / den) with even | odd
    · rw [even, Nat.add_zero]
      exact ⟨by linarith, by linarith, fun odd => by omega⟩
    · rw [odd]
      exact ⟨by linarith, by linarith, fun again => by omega⟩
  · have past : (den : ℚ) < 2 * (num % den : ℕ) := by exact_mod_cast (by omega : den < 2 * (num % den))
    have low : 2 * ((num / den : ℕ) : ℚ) + 1 < 2 * y := scale (by linarith)
    have high : 2 * y < 2 * ((num / den : ℕ) : ℚ) + 2 := scale (by linarith)
    exact ⟨by linarith, by linarith, fun _ => ⟨fun same => by linarith, fun same => by linarith⟩⟩

/-- Every positive number has a binade. -/
theorem exists_binade {q : ℚ} (positive : 0 < q) :
    ∃ (e : ℤ) (y : ℚ), -1074 ≤ e ∧ q = y * 2 ^ e ∧ y < 2 ^ 53 ∧ (e = -1074 ∨ 2 ^ 52 ≤ y) := by
  have lower : (2 : ℚ) ^ Int.log 2 q ≤ q := Int.zpow_log_le_self (by norm_num) positive
  have upper : q < (2 : ℚ) ^ (Int.log 2 q + 1) := Int.lt_zpow_succ_log_self (by norm_num) q
  obtain ⟨e, binade⟩ : ∃ e, e = max (Int.log 2 q - 52) (-1074) := ⟨_, rfl⟩
  refine ⟨e, q / 2 ^ e, by omega, (div_mul_cancel₀ _ (two_zpow_pos e).ne').symm, ?_, ?_⟩
  · rw [div_lt_iff₀ (two_zpow_pos e), ← zpow_natCast, ← zpow_add₀ (by norm_num)]
    exact upper.trans_le (zpow_le_zpow_right₀ (by norm_num) (by push_cast; omega))
  · by_cases lowest : e = -1074
    · exact Or.inl lowest
    · refine Or.inr ?_
      rw [le_div_iff₀ (two_zpow_pos e), ← zpow_natCast, ← zpow_add₀ (by norm_num)]
      exact (zpow_le_zpow_right₀ (by norm_num) (by push_cast; omega)).trans lower

/-- The place counts the binades below, and the nearest natural number within the binade. -/
theorem nearestPlace_binade {num den : ℕ} (numPos : 0 < num) (denPos : 0 < den) :
    ∃ (e : ℤ) (y : ℚ) (m : ℕ), -1074 ≤ e ∧ (num / den : ℚ) = y * 2 ^ e ∧ y < 2 ^ 53 ∧ (e = -1074 ∨ 2 ^ 52 ≤ y) ∧
      RoundsTo y m ∧ nearestPlace num den = (e + 1074).toNat * 2 ^ 52 + m := by
  have quotient : (0 : ℚ) < num / den := div_pos (by exact_mod_cast numPos) (by exact_mod_cast denPos)
  obtain ⟨e, y, least, value, fits, tight⟩ := exists_binade quotient
  refine ⟨e, y, roundQuotient (scaled num den e).1 (scaled num den e).2, least, value, fits, tight, ?_, ?_⟩
  · have rounds : RoundsTo ((scaled num den e).1 / (scaled num den e).2) (roundQuotient _ _) :=
      roundQuotient_rounds (scaled_pos denPos e)
    rwa [scaled_quotient, value, mul_div_cancel_right₀ _ (two_zpow_pos e).ne'] at rounds
  · rw [nearestPlace_eq_scaled numPos denPos]
    simp only [binade_eq numPos denPos least value fits tight]

theorem nearestPlace_mono {num den num' den' : ℕ} (denPos : 0 < den) (denPos' : 0 < den')
    (order : (num / den : ℚ) ≤ num' / den') : nearestPlace num den ≤ nearestPlace num' den' := by
  rcases Nat.eq_zero_or_pos num with none | numPos
  · rw [nearestPlace, if_pos (Or.inl none)]
    exact Nat.zero_le _
  have quotient : (0 : ℚ) < num' / den' :=
    lt_of_lt_of_le (div_pos (by exact_mod_cast numPos) (by exact_mod_cast denPos)) order
  have numPos' : 0 < num' := by
    refine Nat.pos_of_ne_zero fun none => quotient.ne' ?_
    rw [none, Nat.cast_zero, zero_div]
  obtain ⟨e, y, m, least, value, fits, tight, rounds, place⟩ := nearestPlace_binade numPos denPos
  obtain ⟨e', y', m', least', value', fits', tight', rounds', place'⟩ := nearestPlace_binade numPos' denPos'
  rw [value, value'] at order
  rw [place, place']
  rcases lt_trichotomy e e' with lower | same | higher
  · -- the end of the lower binade is the start of the next one
    have last : m ≤ 2 ^ 53 := by
      have : (m : ℚ) < 2 ^ 53 + 1 := by linarith [rounds.low]
      exact Nat.le_of_lt_succ (by exact_mod_cast this)
    have first : 2 ^ 52 ≤ m' := by
      have : (2 : ℚ) ^ 52 < m' + 1 := by linarith [rounds'.high, tight'.resolve_left (by omega)]
      exact Nat.le_of_lt_succ (by exact_mod_cast this)
    omega
  · subst same
    have := rounds.mono rounds' (le_of_mul_le_mul_right order (two_zpow_pos e))
    omega
  · -- the quotients are in the same order as their binades
    have more : (2 : ℚ) ^ 52 * 2 ^ (e' + 1) ≤ y * 2 ^ e :=
      mul_le_mul (tight.resolve_left (by omega)) (zpow_le_zpow_right₀ (by norm_num) higher) (two_zpow_pos _).le
        (by linarith [tight.resolve_left (by omega)])
    have less : y' * (2 : ℚ) ^ e' < 2 ^ 53 * 2 ^ e' := mul_lt_mul_of_pos_right fits' (two_zpow_pos e')
    rw [zpow_add₀ (by norm_num)] at more
    norm_num at more less
    linarith

theorem place_of_ofRatio? {negative : Bool} {num den : ℕ} {x : Binary64} (rounded : ofRatio? negative num den = some x) :
    x.place = nearestPlace num den := by
  unfold ofRatio? at rounded
  dsimp only at rounded
  split at rounded
  · exact (congrArg place (Option.some.inj rounded)).symm
  · cases rounded

theorem ofRatio?_mono {negative negative' : Bool} {num den num' den' : ℕ} {y : Binary64} (denPos : 0 < den)
    (denPos' : 0 < den') (order : (num / den : ℚ) ≤ num' / den') (bound : ofRatio? negative' num' den' = some y) :
    ∃ x, ofRatio? negative num den = some x ∧ x.place ≤ y.place := by
  have places := nearestPlace_mono denPos denPos' order
  rw [← place_of_ofRatio? bound] at places
  rw [ofRatio?, dif_pos (places.trans_lt y.finite)]
  exact ⟨_, rfl, places⟩

theorem ofRatio?_nat_mono {negative negative' : Bool} {m n : ℕ} {y : Binary64} (order : m ≤ n)
    (bound : ofRatio? negative' n 1 = some y) : ∃ x, ofRatio? negative m 1 = some x ∧ x.place ≤ y.place :=
  ofRatio?_mono Nat.one_pos Nat.one_pos (div_le_div_of_nonneg_right (Nat.cast_le.mpr order) (Nat.cast_nonneg _)) bound

/-- A product is in range when one of larger values is. -/
theorem mul?_mono {x y x' y' z : Binary64} (left : x.place ≤ x'.place) (right : y.place ≤ y'.place)
    (bound : x'.mul? y' = some z) : ∃ w, x.mul? y = some w ∧ w.place ≤ z.place := by
  refine ofRatio?_mono (Nat.mul_pos x.ratio_den_pos y.ratio_den_pos)
    (Nat.mul_pos x'.ratio_den_pos y'.ratio_den_pos) ?_ bound
  push_cast
  rw [mul_div_mul_comm, mul_div_mul_comm, ratio_quotient, ratio_quotient, ratio_quotient, ratio_quotient]
  exact mul_le_mul (magnitude_le_of_place_le left) (magnitude_le_of_place_le right) y.magnitude_nonneg
    x'.magnitude_nonneg

/-- Division by a value of at least one stays in range. -/
theorem div?_le (x : Binary64) {y : Binary64} (large : 1 ≤ y.magnitude) :
    ∃ z, x.div? y = some z ∧ z.place ≤ x.place := by
  have self : ofRatio? x.negative x.ratio.1 x.ratio.2 = some x := by
    rw [ofRatio?]
    simp only [nearestPlace_ratio, x.finite, dif_pos]
  have num : 0 < y.ratio.1 := by
    refine Nat.pos_of_ne_zero fun none => ?_
    rw [← ratio_quotient, none, Nat.cast_zero, zero_div] at large
    exact absurd large (by norm_num)
  refine ofRatio?_mono (Nat.mul_pos x.ratio_den_pos num) x.ratio_den_pos ?_ self
  push_cast
  rw [mul_div_mul_comm, ← inv_div (y.ratio.1 : ℚ), ratio_quotient, ratio_quotient]
  exact mul_le_of_le_one_right x.magnitude_nonneg (inv_le_one_of_one_le₀ large)

end Binary64

end Schemata

import Mathlib.Data.Nat.Cast.Order.Field
import Schemata.Decimal.Shortest
import Schemata.Proofs.Decimal.Rounding

namespace Schemata

/-- A power as a quotient of powers with natural exponents. -/
theorem zpow_eq_div_toNat {base : ℚ} (nonzero : base ≠ 0) (e : ℤ) : base ^ e = base ^ e.toNat / base ^ (-e).toNat := by
  rw [← zpow_natCast, ← zpow_natCast, ← zpow_sub₀ nonzero]
  congr 1
  omega

/-- Powers of ten below powers of two, from `10 ^ 3 ≤ 2 ^ 10` and `2 ^ 33 ≤ 10 ^ 10`. -/
theorem ten_zpow_le_two_zpow {t n : ℤ} (up : 10 * t ≤ 3 * n) (down : 33 * t ≤ 10 * n) : (10 : ℚ) ^ t ≤ 2 ^ n := by
  have ten := (zpow_pos (by norm_num : (0 : ℚ) < 10) t).le
  have two := (zpow_pos (by norm_num : (0 : ℚ) < 2) n).le
  rcases le_total 0 t with positive | negative
  · refine (pow_le_pow_iff_left₀ ten two (by norm_num : 3 ≠ 0)).mp ?_
    calc ((10 : ℚ) ^ t) ^ 3 = 1000 ^ t := by
          rw [← zpow_natCast, zpow_comm, zpow_natCast]
          norm_num
      _ ≤ 1024 ^ t := zpow_le_zpow_left₀ positive (by norm_num) (by norm_num)
      _ = 2 ^ (10 * t) := by
          rw [zpow_mul]
          norm_num
      _ ≤ 2 ^ (3 * n) := zpow_le_zpow_right₀ (by norm_num) up
      _ = ((2 : ℚ) ^ n) ^ 3 := by rw [mul_comm, zpow_mul, zpow_ofNat]
  · refine (pow_le_pow_iff_left₀ ten two (by norm_num : 10 ≠ 0)).mp ?_
    calc ((10 : ℚ) ^ t) ^ 10 = (10 ^ 10) ^ t := by rw [← zpow_natCast, zpow_comm, zpow_natCast]
      _ ≤ (2 ^ 33) ^ t := by
          have flipped : ((2 : ℚ) ^ 33) ^ (-t) ≤ (10 ^ 10) ^ (-t) :=
            zpow_le_zpow_left₀ (by omega) (by norm_num) (by norm_num)
          have inverse := inv_anti₀ (zpow_pos (by norm_num) _) flipped
          rwa [zpow_neg, inv_inv, zpow_neg, inv_inv] at inverse
      _ = 2 ^ (33 * t) := by
          rw [zpow_mul]
          norm_num
      _ ≤ 2 ^ (10 * n) := zpow_le_zpow_right₀ (by norm_num) down
      _ = ((2 : ℚ) ^ n) ^ 10 := by rw [mul_comm, zpow_mul, zpow_ofNat]

namespace Decimal

/-- The number that a decimal writes. -/
def value (d : Decimal) : ℚ := d.digits * 10 ^ d.exponent

theorem value_eq_div (d : Decimal) :
    d.value = ((d.digits * Nat.pow 10 d.exponent.toNat : ℕ) : ℚ) / (Nat.pow 10 (-d.exponent).toNat : ℕ) := by
  rw [value, zpow_eq_div_toNat (by norm_num), ← mul_div_assoc]
  simp

namespace Interval

variable {x : Binary64}

theorem of_den_pos (x : Binary64) : (0 : ℚ) < (Interval.of x).den := by
  exact_mod_cast Nat.two_pow_pos _

/-- The scale of an interval: a quarter of a step. -/
theorem quarter (x : Binary64) :
    (Nat.pow 2 (x.exponent - 2).toNat : ℕ) / ((Interval.of x).den : ℚ) = 2 ^ (x.exponent - 2) := by
  rw [zpow_eq_div_toNat (by norm_num)]
  simp [Interval.of]

theorem of_low (nonzero : x.place ≠ 0) :
    ((Interval.of x).low : ℚ) / (Interval.of x).den = (4 * x.significand - x.stepBelow) * 2 ^ (x.exponent - 2) := by
  have positive := Binary64.significand_pos nonzero
  have step : x.stepBelow ≤ 4 * x.significand := by
    unfold Binary64.stepBelow
    split <;> omega
  rw [← quarter, ← mul_div_assoc]
  congr 1
  rw [← Nat.cast_ofNat (R := ℚ), ← Nat.cast_mul, ← Nat.cast_sub step, ← Nat.cast_mul]
  rfl

theorem of_middle (x : Binary64) :
    ((Interval.of x).middle : ℚ) / (Interval.of x).den = 4 * x.significand * 2 ^ (x.exponent - 2) := by
  rw [← quarter, ← mul_div_assoc]
  congr 1
  rw [← Nat.cast_ofNat (R := ℚ), ← Nat.cast_mul, ← Nat.cast_mul]
  rfl

theorem of_high (x : Binary64) :
    ((Interval.of x).high : ℚ) / (Interval.of x).den = (4 * x.significand + 2) * 2 ^ (x.exponent - 2) := by
  rw [← quarter, ← mul_div_assoc]
  congr 1
  rw [← Nat.cast_ofNat (R := ℚ), ← Nat.cast_ofNat (R := ℚ), ← Nat.cast_mul, ← Nat.cast_add, ← Nat.cast_mul]
  rfl

section

variable {bound den : ℕ} {d : Decimal}

theorem scale_pos (d : Decimal) : (0 : ℚ) < (Nat.pow 10 (-d.exponent).toNat : ℕ) := by
  exact_mod_cast Nat.pow_pos (by norm_num)

theorem le_value_iff (positive : (0 : ℚ) < den) :
    bound * Nat.pow 10 (-d.exponent).toNat ≤ d.digits * Nat.pow 10 d.exponent.toNat * den ↔
      (bound / den : ℚ) ≤ d.value := by
  rw [value_eq_div, div_le_div_iff₀ positive (scale_pos d)]
  exact_mod_cast Iff.rfl

theorem lt_value_iff (positive : (0 : ℚ) < den) :
    bound * Nat.pow 10 (-d.exponent).toNat < d.digits * Nat.pow 10 d.exponent.toNat * den ↔
      (bound / den : ℚ) < d.value := by
  rw [value_eq_div, div_lt_div_iff₀ positive (scale_pos d)]
  exact_mod_cast Iff.rfl

theorem value_le_iff (positive : (0 : ℚ) < den) :
    d.digits * Nat.pow 10 d.exponent.toNat * den ≤ bound * Nat.pow 10 (-d.exponent).toNat ↔
      d.value ≤ (bound / den : ℚ) := by
  rw [value_eq_div, div_le_div_iff₀ (scale_pos d) positive]
  exact_mod_cast Iff.rfl

theorem value_lt_iff (positive : (0 : ℚ) < den) :
    d.digits * Nat.pow 10 d.exponent.toNat * den < bound * Nat.pow 10 (-d.exponent).toNat ↔
      d.value < (bound / den : ℚ) := by
  rw [value_eq_div, div_lt_div_iff₀ (scale_pos d) positive]
  exact_mod_cast Iff.rfl

end

/-- The test of the interval: exact, without division. -/
theorem holds_iff (nonzero : x.place ≠ 0) (d : Decimal) : (Interval.of x).holds d ↔ x.Nearest d.value := by
  have den := of_den_pos x
  have closed : (Interval.of x).closed = decide (x.significand % 2 = 0) := rfl
  unfold holds
  by_cases even : x.significand % 2 = 0
  · simp only [closed, even, decide_true, if_true, Bool.and_eq_true, decide_eq_true_eq, le_value_iff den, value_le_iff den,
      of_low nonzero, of_high]
    exact ⟨fun within => ⟨within.1, within.2, fun odd => by omega⟩, fun near => ⟨near.low, near.high⟩⟩
  · simp only [closed, even, decide_false, Bool.false_eq_true, if_false, Bool.and_eq_true, decide_eq_true_eq,
      lt_value_iff den, value_lt_iff den, of_low nonzero, of_high]
    constructor
    · exact fun within => ⟨within.1.le, within.2.le, fun _ => ⟨within.1.ne, within.2.ne⟩⟩
    · intro near
      have apart := near.tie (by omega)
      exact ⟨lt_of_le_of_ne near.low apart.1, lt_of_le_of_ne near.high apart.2⟩

theorem exponent_of_mem_neighbours {i : Interval} {e : ℤ} {d : Decimal} (member : d ∈ i.neighbours e) :
    d.exponent = e := by
  simp only [neighbours] at member
  split at member <;> simp only [List.mem_cons, List.not_mem_nil, or_false] at member <;>
    rcases member with rfl | rfl <;> rfl

/-- The grid point at or below the middle. -/
def floor (i : Interval) (e : ℤ) : Decimal :=
  ⟨i.middle * Nat.pow 10 (-e).toNat / (i.den * Nat.pow 10 e.toNat), e⟩

theorem floor_mem_neighbours (i : Interval) (e : ℤ) : i.floor e ∈ i.neighbours e := by
  simp only [neighbours, floor]
  split <;> simp

theorem coarsest_exponent (i : Interval) (steps : ℕ) (e : ℤ) :
    e - steps ≤ (i.coarsest steps e).exponent ∧ (i.coarsest steps e).exponent ≤ e := by
  induction steps generalizing e with
  | zero => simp [coarsest]
  | succ steps ih =>
    rw [coarsest]
    split
    · rename_i d found
      have := exponent_of_mem_neighbours (List.mem_of_find?_eq_some found)
      omega
    · have := ih (e - 1)
      omega

/-- The search succeeds when one of the grids that it tries has a candidate in the interval. -/
theorem coarsest_holds {i : Interval} {steps k : ℕ} {e : ℤ} {d : Decimal} (early : k < steps)
    (member : d ∈ i.neighbours (e - k)) (hit : i.holds d) : i.holds (i.coarsest steps e) := by
  induction steps generalizing e k with
  | zero => omega
  | succ steps ih =>
    rw [coarsest]
    split
    · rename_i found
      exact List.find?_some found
    · rename_i missed
      rw [List.find?_eq_none] at missed
      cases k with
      | zero =>
        rw [Nat.cast_zero, Int.sub_zero] at member
        exact absurd hit (missed d member)
      | succ k =>
        refine ih (k := k) (by omega) ?_
        rwa [show e - 1 - (k : ℤ) = e - (k + 1 : ℕ) by push_cast; ring]

/-- The value lies between the grid point and the next one. -/
theorem floor_bounds (x : Binary64) (e : ℤ) :
    ((Interval.of x).floor e).value ≤ 4 * x.significand * 2 ^ (x.exponent - 2) ∧
      (4 * x.significand * 2 ^ (x.exponent - 2) : ℚ) < ((Interval.of x).floor e).value + 10 ^ e := by
  have ten : (0 : ℚ) < 10 ^ e := zpow_pos (by norm_num) e
  have den : 0 < (Interval.of x).den * Nat.pow 10 e.toNat := Nat.mul_pos (Nat.two_pow_pos _) (Nat.pow_pos (by norm_num))
  have grid : (((Interval.of x).middle * Nat.pow 10 (-e).toNat : ℕ) : ℚ) / ((Interval.of x).den * Nat.pow 10 e.toNat : ℕ) =
      4 * x.significand * 2 ^ (x.exponent - 2) / 10 ^ e := by
    rw [← of_middle, zpow_eq_div_toNat (by norm_num : (10 : ℚ) ≠ 0)]
    have := of_den_pos x
    push_cast [Nat.pow_eq]
    field_simp
  rw [value, floor]
  constructor
  · rw [← le_div_iff₀ ten, ← grid]
    exact Nat.cast_div_le
  · rw [← add_one_mul, ← div_lt_iff₀ ten, ← grid, div_lt_iff₀ (by exact_mod_cast den), add_one_mul]
    exact_mod_cast Nat.lt_div_mul_add den

/-- On a grid finer than a quarter of a step the point at or below the value is near enough. -/
theorem floor_nearest (x : Binary64) {e : ℤ} (fine : (10 : ℚ) ^ e ≤ 2 ^ (x.exponent - 2)) :
    x.Nearest ((Interval.of x).floor e).value := by
  obtain ⟨floor, next⟩ := floor_bounds x e
  have step := x.stepBelow_bounds.1
  have two := Binary64.two_zpow_pos (x.exponent - 2)
  have above : (4 * x.significand - x.stepBelow : ℚ) * 2 ^ (x.exponent - 2) < ((Interval.of x).floor e).value := by
    nlinarith
  have below : ((Interval.of x).floor e).value < (4 * x.significand + 2 : ℚ) * 2 ^ (x.exponent - 2) := by
    nlinarith
  exact ⟨above.le, below.le, fun _ => ⟨above.ne, below.ne⟩⟩

end Interval

variable {x : Binary64}

/-- The search begins near the first digit of the value. -/
theorem leading_bounds (nonzero : x.place ≠ 0) :
    let bits : ℤ := ((Interval.of x).middle.log2 : ℤ) - (Interval.of x).den.log2
    x.exponent ≤ bits ∧ bits ≤ x.exponent + 53 := by
  intro bits
  have positive := Binary64.significand_pos nonzero
  have middlePos : 0 < (Interval.of x).middle :=
    Nat.mul_pos (Nat.mul_pos (by norm_num) positive) (Nat.two_pow_pos _)
  obtain ⟨lower, upper⟩ := Binary64.quotient_bounds middlePos (Nat.two_pow_pos (-(x.exponent - 2)).toNat)
  have value : (4 * x.significand * 2 ^ (x.exponent - 2) : ℚ) = x.significand * 2 ^ x.exponent := by
    rw [zpow_sub₀ (by norm_num)]
    ring
  have step := Binary64.two_zpow_pos x.exponent
  have one : (1 : ℚ) ≤ x.significand := by exact_mod_cast positive
  have width : (x.significand : ℚ) ≤ 2 ^ 53 := by exact_mod_cast (Binary64.significand_lt x).le
  rw [show ((2 ^ (-(x.exponent - 2)).toNat : ℕ) : ℚ) = (Interval.of x).den from rfl, Interval.of_middle, value] at lower upper
  constructor
  · have : (2 : ℚ) ^ x.exponent < 2 ^ (bits + 1) := lt_of_le_of_lt (le_mul_of_one_le_left step.le one) upper
    have := Binary64.lt_of_two_zpow_lt this
    omega
  · have : (2 : ℚ) ^ (bits - 1) < 2 ^ (53 + x.exponent) := by
      rw [zpow_add₀ (by norm_num)]
      exact lt_of_lt_of_le lower (mul_le_mul_of_nonneg_right (by exact_mod_cast width) step.le)
    have := Binary64.lt_of_two_zpow_lt this
    omega

/-- The shortest decimal lies in the interval of the value. -/
theorem nearest_shortest (nonzero : x.place ≠ 0) : x.Nearest (shortest x).value := by
  rw [← Interval.holds_iff nonzero, shortest, if_neg nonzero]
  obtain ⟨lower, upper⟩ := leading_bounds nonzero
  have bounds := x.exponent_bounds
  refine Interval.coarsest_holds (k := 23) (by norm_num) (Interval.floor_mem_neighbours _ _) ?_
  rw [Interval.holds_iff nonzero]
  refine Interval.floor_nearest x (ten_zpow_le_two_zpow ?_ ?_) <;> push_cast <;> omega

theorem shortest_exponent_bounds (x : Binary64) : -400 ≤ (shortest x).exponent ∧ (shortest x).exponent ≤ 400 := by
  by_cases zero : x.place = 0
  · rw [shortest, if_pos zero]
    decide
  have nonzero := zero
  rw [shortest, if_neg nonzero]
  obtain ⟨lower, upper⟩ := leading_bounds nonzero
  have bounds := x.exponent_bounds
  have grid := (Interval.of x).coarsest_exponent 24
    ((((Interval.of x).middle.log2 : ℤ) - (Interval.of x).den.log2) * 30103 / 100000 + 2)
  dsimp only at lower upper grid ⊢
  omega

theorem shortest_digits_pos (nonzero : x.place ≠ 0) : 0 < (shortest x).digits := by
  refine Nat.pos_of_ne_zero fun none => ?_
  have low := (nearest_shortest nonzero).low
  have positive : (1 : ℚ) ≤ x.significand := by exact_mod_cast Binary64.significand_pos nonzero
  have step := x.stepBelow_bounds.2
  have quarter := Binary64.two_zpow_pos (x.exponent - 2)
  rw [value, none, Nat.cast_zero, zero_mul] at low
  nlinarith

end Decimal

namespace Binary64

/-- A decimal in range is rounded once. -/
theorem ofDecimal?_eq_ofRatio? (negative : Bool) {digits : ℕ} {e : ℤ} (nonzero : digits ≠ 0) (low : -400 ≤ e)
    (high : e ≤ 400) : ∃ num den : ℕ, 0 < num ∧ 0 < den ∧ (num / den : ℚ) = Decimal.value ⟨digits, e⟩ ∧
      ofDecimal? negative digits e = ofRatio? negative num den := by
  rw [ofDecimal?, if_neg nonzero, if_neg (by omega), if_neg (by omega)]
  split
  · rename_i up
    refine ⟨_, _, Nat.mul_pos (Nat.pos_of_ne_zero nonzero) (Nat.pow_pos (by norm_num)), Nat.one_pos, ?_, rfl⟩
    rw [Decimal.value_eq_div, show (-e).toNat = 0 by omega]
    rfl
  · rename_i down
    refine ⟨_, _, Nat.pos_of_ne_zero nonzero, Nat.pow_pos (by norm_num), ?_, rfl⟩
    rw [Decimal.value_eq_div, show e.toNat = 0 by omega]
    simp

/-- Any decimal of the number that the shortest one writes is read as the value. -/
theorem ofDecimal?_of_value {x : Binary64} {d : Decimal} (same : d.value = (Decimal.shortest x).value)
    (low : -400 ≤ d.exponent) (high : d.exponent ≤ 400) : ofDecimal? x.negative d.digits d.exponent = some x := by
  have power : (10 : ℚ) ^ d.exponent ≠ 0 := zpow_ne_zero _ (by norm_num)
  by_cases zero : x.place = 0
  · have none : d.digits = 0 := by
      rw [Decimal.shortest, if_pos zero, Decimal.value, Decimal.value, Nat.cast_zero, zero_mul] at same
      exact_mod_cast (mul_eq_zero.mp same).resolve_right power
    rw [none, ofDecimal?, if_pos rfl]
    cases x
    simp_all [Binary64.zero]
  · have nonzero : d.digits ≠ 0 := by
      intro none
      have digits : ((Decimal.shortest x).digits : ℚ) ≠ 0 := by exact_mod_cast (Decimal.shortest_digits_pos zero).ne'
      rw [Decimal.value, none, Nat.cast_zero, zero_mul] at same
      exact mul_ne_zero digits (zpow_ne_zero _ (by norm_num)) same.symm
    obtain ⟨num, den, numPos, denPos, quotient, rounded⟩ := ofDecimal?_eq_ofRatio? x.negative nonzero low high
    have near : x.Nearest (num / den) := by
      rw [quotient, show Decimal.value ⟨d.digits, d.exponent⟩ = (Decimal.shortest x).value from same]
      exact Decimal.nearest_shortest zero
    rw [rounded, ofRatio?]
    simp only [nearestPlace_of_nearest numPos denPos near, x.finite, dif_pos]

end Binary64

end Schemata

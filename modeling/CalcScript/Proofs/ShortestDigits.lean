/-
`Proofs/ShortestDigits.lean` -- the fewest digits of a double read back.

`Decimal.shortest` compares natural numbers, each counted in a unit small enough for all of
them. Divided by the unit they are the rational numbers of the rounding interval
(`Binary.Attracts`). What the search finds at any length lies in the interval. At seventeen
digits it finds something, because two neighbours there are less apart than the two ends.
-/
import CalcScript.Proofs.DecimalReading

set_option autoImplicit false

namespace CalcScript.Decimal

/-! ## 1. Units -/

/-- A power with a whole exponent, as a fraction of two powers of which one is one. -/
theorem zpow_mul_pow_toNat {a : ℚ} (ha : a ≠ 0) (k : ℤ) :
    a ^ k * a ^ (-k).toNat = a ^ k.toNat := by
  rcases le_total 0 k with hk | hk
  · obtain ⟨n, rfl⟩ := Int.eq_ofNat_of_zero_le hk
    rw [Int.toNat_natCast, Int.toNat_of_nonpos (by omega), pow_zero, mul_one, zpow_natCast]
  · obtain ⟨n, hn⟩ := Int.eq_ofNat_of_zero_le (a := -k) (by omega)
    obtain rfl : k = -n := by omega
    rw [neg_neg, Int.toNat_natCast, Int.toNat_of_nonpos (by omega), pow_zero, zpow_neg,
      zpow_natCast, inv_mul_cancel₀ (pow_ne_zero n ha)]

variable {b : Binary} {tie : Tie} {place : ℤ} {c : ℕ}

/-- The rounding interval of a number, in units. -/
abbrev interval (b : Binary) : Interval := .around b.significand b.exponent

theorem one_pos (b : Binary) : (0 : ℚ) < (interval b).one := by
  have hpos : 0 < (interval b).one := Nat.two_pow_pos _
  exact_mod_cast hpos

/-- A quarter of a step, counted in units. -/
theorem quarter_eq (b : Binary) :
    ((Nat.pow 2 (b.exponent - 2).toNat : ℕ) : ℚ)
      = 1 / 4 * 2 ^ b.exponent * (interval b).one := by
  have hunits := zpow_mul_pow_toNat (two_ne_zero (α := ℚ)) (b.exponent - 2)
  have hone : ((interval b).one : ℚ) = 2 ^ (2 - b.exponent).toNat := by
    show ((2 ^ (2 - b.exponent).toNat : ℕ) : ℚ) = _
    push_cast
    rfl
  have hsplit : (2 : ℚ) ^ (b.exponent - 2) = 1 / 4 * 2 ^ b.exponent := by
    rw [zpow_sub₀ two_ne_zero]
    ring
  rw [neg_sub, hsplit, ← hone] at hunits
  rw [hunits, Nat.pow_eq]
  push_cast
  rfl

theorem value_eq (b : Binary) :
    ((interval b).value : ℚ) = b.magnitude * (interval b).one := by
  have hquarter := quarter_eq b
  show ((4 * b.significand * Nat.pow 2 (b.exponent - 2).toNat : ℕ) : ℚ) = _
  rw [Nat.cast_mul, hquarter, Binary.magnitude]
  push_cast
  ring

theorem high_eq (b : Binary) :
    ((interval b).high : ℚ)
      = (b.significand + 1 / 2) * 2 ^ b.exponent * (interval b).one := by
  have hquarter := quarter_eq b
  show (((4 * b.significand + 2) * Nat.pow 2 (b.exponent - 2).toNat : ℕ) : ℚ) = _
  rw [Nat.cast_mul, hquarter]
  push_cast
  ring

theorem low_eq (hpos : 0 < b.significand) :
    ((interval b).low : ℚ)
      = (b.significand - b.stepBelow) * 2 ^ b.exponent * (interval b).one := by
  have hquarter := quarter_eq b
  have hlow : (interval b).low
      = (4 * b.significand
          - if b.significand = Nat.pow 2 52 ∧ -1074 < b.exponent then 1 else 2)
        * Nat.pow 2 (b.exponent - 2).toNat := rfl
  rw [hlow, Nat.cast_mul, hquarter, Binary.stepBelow, Nat.pow_eq]
  split
  · rw [Nat.cast_sub (by omega)]
    push_cast
    ring
  · rw [Nat.cast_sub (by omega)]
    push_cast
    ring

/-! ## 2. One length -/

/-- How many units make up one at a decimal place: the units of the interval, refined where
the place is behind the point. -/
def unit (b : Binary) (place : ℤ) : ℚ := (interval b).one * (Nat.pow 10 (-place).toNat : ℕ)

theorem unit_pos (b : Binary) (place : ℤ) : 0 < unit b place := by
  have hscale : 0 < Nat.pow 10 (-place).toNat := Nat.pow_pos (by decide)
  exact mul_pos (one_pos b) (by exact_mod_cast hscale)

theorem point_eq (b : Binary) (place : ℤ) (c : ℕ) :
    ((c * ((interval b).one * Nat.pow 10 place.toNat) : ℕ) : ℚ)
      = c * 10 ^ place * unit b place := by
  have hunits := zpow_mul_pow_toNat (by norm_num : (10 : ℚ) ≠ 0) place
  rw [Nat.cast_mul, Nat.cast_mul, unit, Nat.pow_eq, Nat.pow_eq, Nat.cast_pow, Nat.cast_pow,
    Nat.cast_ofNat, ← hunits]
  ring

theorem refined_eq {n : ℕ} {q : ℚ} (h : (n : ℚ) = q * (interval b).one) (place : ℤ) :
    ((n * Nat.pow 10 (-place).toNat : ℕ) : ℚ) = q * unit b place := by
  rw [Nat.cast_mul, h, unit, mul_assoc]

theorem units_le_iff {x y : ℕ} {p q : ℚ} (hx : (x : ℚ) = p * unit b place)
    (hy : (y : ℚ) = q * unit b place) : x ≤ y ↔ p ≤ q := by
  rw [← Nat.cast_le (α := ℚ), hx, hy]
  exact mul_le_mul_iff_left₀ (unit_pos b place)

theorem units_lt_iff {x y : ℕ} {p q : ℚ} (hx : (x : ℚ) = p * unit b place)
    (hy : (y : ℚ) = q * unit b place) : x < y ↔ p < q := by
  rw [← Nat.cast_lt (α := ℚ), hx, hy]
  exact mul_lt_mul_iff_left₀ (unit_pos b place)

/-- The decimal with coefficient `c` at a place is in the interval. -/
abbrev Holds (b : Binary) (place : ℤ) (c : ℕ) : Prop :=
  (interval b).holds (Nat.pow 10 (-place).toNat) ((interval b).one * Nat.pow 10 place.toNat) c
    = true

theorem attracts_of_holds (hpos : 0 < b.significand) (h : Holds b place c) :
    b.Attracts (c * 10 ^ place) := by
  have hlow := refined_eq (low_eq hpos) place
  have hhigh := refined_eq (high_eq b) place
  have hpoint := point_eq b place c
  have hclosed : (interval b).closed = (b.significand % 2 == 0) := rfl
  rw [Holds, Interval.holds, hclosed] at h
  split at h
  · next heven =>
    rw [Bool.and_eq_true, decide_eq_true_eq, decide_eq_true_eq, units_le_iff hlow hpoint,
      units_le_iff hpoint hhigh] at h
    exact ⟨h.1, h.2, fun _ => by simpa using heven⟩
  · rw [Bool.and_eq_true, decide_eq_true_eq, decide_eq_true_eq, units_lt_iff hlow hpoint,
      units_lt_iff hpoint hhigh] at h
    refine ⟨h.1.le, h.2.le, ?_⟩
    rintro (heq | heq)
    · exact absurd heq h.1.ne'
    · exact absurd heq h.2.ne

theorem holds_of_lt (hpos : 0 < b.significand)
    (hlt : ((b.significand : ℚ) - b.stepBelow) * 2 ^ b.exponent < c * 10 ^ place)
    (hgt : (c : ℚ) * 10 ^ place < ((b.significand : ℚ) + 1 / 2) * 2 ^ b.exponent) :
    Holds b place c := by
  have hlow := (units_lt_iff (refined_eq (low_eq hpos) place) (point_eq b place c)).mpr hlt
  have hhigh := (units_lt_iff (point_eq b place c) (refined_eq (high_eq b) place)).mpr hgt
  rw [Holds, Interval.holds]
  split
  · rw [Bool.and_eq_true, decide_eq_true_eq, decide_eq_true_eq]
    exact ⟨hlow.le, hhigh.le⟩
  · rw [Bool.and_eq_true, decide_eq_true_eq, decide_eq_true_eq]
    exact ⟨hlow, hhigh⟩

/-- What the search takes at a place is in the interval. -/
theorem holds_of_pick? (h : (interval b).pick? tie place = some c) : Holds b place c := by
  simp only [Interval.pick?] at h
  split at h
  · next hfloor habove =>
    split at h
    · cases h; exact hfloor
    split at h
    · cases h; exact habove
    cases tie with
    | up => cases h; exact habove
    | even =>
      cases h
      split
      · exact hfloor
      · exact habove
  · next hfloor habove => cases h; exact hfloor
  · next hfloor habove => cases h; exact habove
  · cases h

/-- The decimal just below the value at a place. -/
abbrev floor (b : Binary) (place : ℤ) : ℕ :=
  (interval b).value * Nat.pow 10 (-place).toNat / ((interval b).one * Nat.pow 10 place.toNat)

theorem floor_le (b : Binary) (place : ℤ) : (floor b place : ℚ) * 10 ^ place ≤ b.magnitude := by
  have hvalue := refined_eq (value_eq b) place
  exact (units_le_iff (point_eq b place _) hvalue).mp (Nat.div_mul_le_self _ _)

theorem lt_floor_succ (b : Binary) (place : ℤ) :
    b.magnitude < ((floor b place + 1 : ℕ) : ℚ) * 10 ^ place := by
  have hvalue := refined_eq (value_eq b) place
  have hstep : 0 < (interval b).one * Nat.pow 10 place.toNat :=
    Nat.mul_pos (Nat.two_pow_pos _) (Nat.pow_pos (by decide))
  refine (units_lt_iff hvalue (point_eq b place _)).mp ?_
  rw [Nat.add_mul, Nat.one_mul]
  exact Nat.lt_div_mul_add hstep

/-- Where the two ends are further apart than two neighbours at a place, one of the neighbours
of the value is in the interval. -/
theorem holds_floor_or_succ (hpos : 0 < b.significand)
    (hstep : (10 : ℚ) ^ place < (b.stepBelow + 1 / 2) * 2 ^ b.exponent) :
    Holds b place (floor b place) ∨ Holds b place (floor b place + 1) := by
  have hle := floor_le b place
  have hlt := lt_floor_succ b place
  have hscale : (0 : ℚ) < 2 ^ b.exponent := by positivity
  have hstepBelow := mul_pos b.stepBelow_pos hscale
  have hends : ((b.significand : ℚ) - b.stepBelow) * 2 ^ b.exponent
      + (b.stepBelow + 1 / 2) * 2 ^ b.exponent
      = (b.significand + 1 / 2) * 2 ^ b.exponent := by ring
  have hmagnitude : b.magnitude = b.significand * 2 ^ b.exponent := rfl
  push_cast at hlt
  rcases lt_or_ge (((b.significand : ℚ) - b.stepBelow) * 2 ^ b.exponent)
    (floor b place * 10 ^ place) with hlow | hlow
  · exact .inl (holds_of_lt hpos hlow (by linarith))
  · refine .inr (holds_of_lt hpos ?_ ?_) <;> push_cast <;> linarith

/-- There the search takes one of them. -/
theorem exists_pick? (hpos : 0 < b.significand) (tie : Tie)
    (hstep : (10 : ℚ) ^ place < (b.stepBelow + 1 / 2) * 2 ^ b.exponent) :
    ∃ c, (interval b).pick? tie place = some c := by
  simp only [Interval.pick?]
  split
  · split
    · exact ⟨_, rfl⟩
    split
    · exact ⟨_, rfl⟩
    cases tie with
    | up => exact ⟨_, rfl⟩
    | even => exact ⟨_, rfl⟩
  · exact ⟨_, rfl⟩
  · exact ⟨_, rfl⟩
  · next hfloor habove =>
    rcases holds_floor_or_succ hpos hstep with hholds | hholds
    · exact absurd hholds (by rw [Holds, hfloor]; exact Bool.false_ne_true)
    · exact absurd hholds (by rw [Holds, habove]; exact Bool.false_ne_true)

/-! ## 3. Seventeen digits -/

theorem pow_digitCount_le {n : ℕ} (h : 0 < n) : 10 ^ (digitCount n - 1) ≤ n := by
  rcases Nat.eq_zero_or_pos (digitCount n - 1) with hzero | hpos
  · rw [hzero]
    exact h
  · by_contra hlt
    have hle := (Nat.length_toDigits_le_iff (by decide) hpos).mpr (not_le.mp hlt)
    have hcount : digitCount n = (Nat.toDigits 10 n).length := rfl
    omega

theorem lt_pow_digitCount (n : ℕ) : n < 10 ^ digitCount n :=
  (Nat.length_toDigits_le_iff (by decide) Nat.length_toDigits_pos).mp le_rfl

/-- A number of at least one has its first digit before the point. -/
theorem pow_digitCount_mul_le {value one : ℕ} (hone : 0 < one) (h : one ≤ value) :
    10 ^ (digitCount (value / one) - 1) * one ≤ value :=
  calc 10 ^ (digitCount (value / one) - 1) * one
      ≤ value / one * one := Nat.mul_le_mul_right one (pow_digitCount_le (Nat.div_pos h hone))
    _ ≤ value := Nat.div_mul_le_self value one

/-- A number below one has it behind the point. -/
theorem le_pow_digitCount_mul {value : ℕ} (one : ℕ) (h : 0 < value) :
    one ≤ 10 ^ digitCount ((one - 1) / value) * value := by
  have hpower := lt_pow_digitCount ((one - 1) / value)
  rw [Nat.div_lt_iff_lt_mul h] at hpower
  omega

/-- The power of ten of the first digit. -/
theorem pow_magnitude_le (hpos : 0 < b.significand) :
    (10 : ℚ) ^ ((interval b).magnitude - 1) ≤ b.magnitude := by
  have hone := one_pos b
  have hunit : 0 < (interval b).one := Nat.two_pow_pos _
  have hvalue : 0 < (interval b).value :=
    Nat.mul_pos (Nat.mul_pos (by decide) hpos) (Nat.two_pow_pos _)
  refine le_of_mul_le_mul_right ?_ hone
  rw [← value_eq]
  unfold Interval.magnitude
  split
  · next hle =>
    have hcount : 0 < digitCount ((interval b).value / (interval b).one) :=
      Nat.length_toDigits_pos
    have hexponent : (digitCount ((interval b).value / (interval b).one) : ℤ) - 1
        = (digitCount ((interval b).value / (interval b).one) - 1 : ℕ) := by omega
    rw [hexponent, zpow_natCast]
    exact_mod_cast pow_digitCount_mul_le hunit hle
  · next hlt =>
    rw [sub_sub_cancel_left, zpow_neg, zpow_natCast, inv_mul_le_iff₀ (by positivity)]
    exact_mod_cast le_pow_digitCount_mul (interval b).one hvalue

/-- Decimals of seventeen digits lie closer together than the ends of a rounding interval. -/
theorem step_lt (hcanonical : b.Canonical) (hpos : 0 < b.significand) :
    (10 : ℚ) ^ ((interval b).magnitude - 17) < (b.stepBelow + 1 / 2) * 2 ^ b.exponent := by
  have hscale : (0 : ℚ) < 2 ^ b.exponent := by positivity
  have hmagnitude := pow_magnitude_le hpos
  have hsplit : (10 : ℚ) ^ ((interval b).magnitude - 17)
      = 10 ^ ((interval b).magnitude - 1) * 10 ^ (-16 : ℤ) := by
    rw [← zpow_add₀ (by norm_num)]
    congr 1
    ring
  have hfew : (b.significand : ℚ) * 10 ^ (-16 : ℤ) < b.stepBelow + 1 / 2 := by
    unfold Binary.stepBelow
    split
    · next hpower =>
      rw [hpower.1]
      norm_num
    · have hlt : (b.significand : ℚ) < 2 ^ 53 := by exact_mod_cast hcanonical.lt
      calc (b.significand : ℚ) * 10 ^ (-16 : ℤ) ≤ 2 ^ 53 * 10 ^ (-16 : ℤ) :=
            mul_le_mul_of_nonneg_right hlt.le (by positivity)
        _ < 1 / 2 + 1 / 2 := by norm_num
  calc (10 : ℚ) ^ ((interval b).magnitude - 17)
      = 10 ^ ((interval b).magnitude - 1) * 10 ^ (-16 : ℤ) := hsplit
    _ ≤ b.significand * 2 ^ b.exponent * 10 ^ (-16 : ℤ) :=
        mul_le_mul_of_nonneg_right hmagnitude (by positivity)
    _ = b.significand * 10 ^ (-16 : ℤ) * 2 ^ b.exponent := by ring
    _ < (b.stepBelow + 1 / 2) * 2 ^ b.exponent := mul_lt_mul_of_pos_right hfew hscale

/-! ## 4. The search -/

theorem value_trim (d : Decimal) : d.trim.value = d.value := by
  unfold trim
  split
  · next hzero =>
    have hcoefficient : (d.coefficient : ℚ) = (d.coefficient / 10 : ℕ) * 10 := by
      exact_mod_cast (Nat.div_mul_cancel (Nat.dvd_of_mod_eq_zero hzero)).symm
    rw [value, value, zpow_add_one₀ (by norm_num), hcoefficient]
    ring
  · rfl

/-- **The fewest digits read back.** The decimal that is found lies in the rounding interval. -/
theorem attracts_shortest (tie : Tie) (hcanonical : b.Canonical) (hpos : 0 < b.significand) :
    b.Attracts (shortest tie b.significand b.exponent).value := by
  unfold shortest
  dsimp only
  generalize hfound : (List.range 17).findSome? (fun (n : Nat) =>
    (Interval.pick? (.around b.significand b.exponent) tie
      ((Interval.around b.significand b.exponent).magnitude - (n + 1))).map fun c =>
        trim ⟨c, (Interval.around b.significand b.exponent).magnitude - (n + 1)⟩) = found
  cases found with
  | none =>
    obtain ⟨c, hc⟩ := exists_pick? hpos tie (step_lt hcanonical hpos)
    have hlast := List.findSome?_eq_none_iff.mp hfound 16 (by decide)
    have hplace : (interval b).magnitude - ((16 : ℕ) + 1) = (interval b).magnitude - 17 := by
      omega
    rw [hplace, hc] at hlast
    cases hlast
  | some d =>
    obtain ⟨n, -, hn⟩ := List.exists_of_findSome?_eq_some hfound
    obtain ⟨c, hc, rfl⟩ := Option.map_eq_some_iff.mp hn
    rw [Option.getD_some, value_trim]
    exact attracts_of_holds hpos (holds_of_pick? hc)

end CalcScript.Decimal

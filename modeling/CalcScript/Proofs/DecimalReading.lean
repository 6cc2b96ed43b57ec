/-
`Proofs/DecimalReading.lean` -- the double that a decimal is read as.

`Decimal.toFloat` has two ways. A coefficient of at most 53 bits and a power of ten up to the
twenty-second are doubles themselves and are multiplied or divided as such. Everything else is
multiplied or divided exactly and rounded once. Either way the decimal, as a rational number,
is rounded to the fields that attract it.
-/
import CalcScript.Number.Numeral
import CalcScript.Proofs.Rounding

set_option autoImplicit false

open Float.Model (Format UnpackedFloat totalExponent)
open Float.Model.UnpackedFloat

namespace CalcScript.Rounding

variable {b : Binary} {s₁ s₂ : Sign} {m₁ m₂ : ℕ} {e₁ e₂ : ℤ}

/-! ## 1. Products and quotients -/

theorem mul_of_attracts (h₁ : 0 < m₁) (h₂ : 0 < m₂) (hcanonical : b.Canonical)
    (hpos : 0 < b.significand) (hfine : 52 ≤ (m₁ * m₂).log2)
    (h : b.Attracts ((m₁ * 2 ^ e₁) * (m₂ * 2 ^ e₂))) :
    UnpackedFloat.mul Format.binary64 (.finite s₁ m₁ e₁ h₁) (.finite s₂ m₂ e₂ h₂)
      = .finite (s₁ * s₂) b.significand b.exponent hpos := by
  refine roundWithAccuracy_of_attracts ?_ (.inl hfine) hcanonical hpos h
  have hexact := describes_exact (m₁ * m₂)
  have hscale : (2 : ℚ) ^ (e₁ + e₂) ≠ 0 := by positivity
  have hvalue : ((m₁ * 2 ^ e₁) * (m₂ * 2 ^ e₂) : ℚ) / 2 ^ (e₁ + e₂) = (m₁ * m₂ : ℕ) := by
    rw [div_eq_iff hscale, zpow_add₀ two_ne_zero]
    push_cast
    ring
  rwa [hvalue]

/-- A quotient with its rest, at any exponent that does not cut the dividend off. -/
theorem describes_quotient (h₂ : 0 < m₂) (k : ℕ) :
    Describes (.ofMantissaAndAccuracy ((m₁ <<< k) / m₂) (accuracyOfFraction ((m₁ <<< k) % m₂) m₂))
      ((m₁ * 2 ^ e₁) / (m₂ * 2 ^ e₂) / 2 ^ (e₁ - e₂ - k)) := by
  have hdescribes := describes_fraction (m := (m₁ <<< k) / m₂) (Nat.mod_lt (m₁ <<< k) h₂)
  have hden : (m₂ : ℚ) ≠ 0 := Nat.cast_ne_zero.mpr h₂.ne'
  have hsplit : (m₁ : ℚ) * 2 ^ k
      = m₂ * ((m₁ <<< k) / m₂ : ℕ) + ((m₁ <<< k) % m₂ : ℕ) := by
    rw [← Nat.cast_mul, ← Nat.cast_add, Nat.div_add_mod, Nat.shiftLeft_eq]
    push_cast
    ring
  have hvalue : ((m₁ * 2 ^ e₁) / (m₂ * 2 ^ e₂) / 2 ^ (e₁ - e₂ - k) : ℚ)
      = ((m₁ <<< k) / m₂ : ℕ) + ((m₁ <<< k) % m₂ : ℕ) / (m₂ : ℚ) := by
    rw [zpow_sub₀ two_ne_zero, zpow_sub₀ two_ne_zero, zpow_natCast]
    field_simp
    rw [hsplit]
  rwa [hvalue]

theorem div_of_attracts (h₁ : 0 < m₁) (h₂ : 0 < m₂) (hcanonical : b.Canonical)
    (hpos : 0 < b.significand) (h : b.Attracts ((m₁ * 2 ^ e₁) / (m₂ * 2 ^ e₂))) :
    UnpackedFloat.div Format.binary64 (.finite s₁ m₁ e₁ h₁) (.finite s₂ m₂ e₂ h₂)
      = .finite (s₁ / s₂) b.significand b.exponent hpos := by
  have htarget : Format.binary64.targetExponent (totalExponent m₁ e₁ - totalExponent m₂ e₂)
      = max (m₁.log2 + e₁ - (m₂.log2 + e₂) - 53) (-1074) := by
    show max ((m₁.log2 : ℤ) + 1 + e₁ - ((m₂.log2 : ℤ) + 1 + e₂) - 53) (-1074) = _
    omega
  rw [UnpackedFloat.div, divCore, htarget]
  -- the dividend is shifted by so much that the quotient has the digits that rounding needs
  generalize ht : min (e₁ - e₂) (max (m₁.log2 + e₁ - (m₂.log2 + e₂) - 53) (-1074)) = t
  obtain ⟨k, hk⟩ := Int.eq_ofNat_of_zero_le (a := e₁ - e₂ - t) (by omega)
  have hexponent : t = e₁ - e₂ - k := by omega
  dsimp only
  rw [hk, Int.toNat_natCast]
  refine roundWithAccuracy_of_attracts ?_ ?_ hcanonical hpos h
  · rw [hexponent]
    exact describes_quotient h₂ k
  · -- unless the exponent is least, the dividend was given all the digits that are needed
    rcases le_or_gt t (-1074) with hmin | hmin
    · exact .inr hmin
    · left
      have hroom : m₂.log2 + 53 ≤ m₁.log2 + k := by omega
      have hdividend : 2 ^ (m₁.log2 + k) ≤ m₁ <<< k := by
        rw [Nat.shiftLeft_eq, pow_add]
        exact Nat.mul_le_mul_right _ (Nat.log2_self_le h₁.ne')
      have hquotient : 2 ^ 52 ≤ (m₁ <<< k) / m₂ := by
        rw [Nat.le_div_iff_mul_le h₂]
        calc 2 ^ 52 * m₂ ≤ 2 ^ 52 * 2 ^ (m₂.log2 + 1) :=
              Nat.mul_le_mul_left _ Nat.lt_log2_self.le
          _ = 2 ^ (m₂.log2 + 53) := by rw [← pow_add]; congr 1; omega
          _ ≤ 2 ^ (m₁.log2 + k) := Nat.pow_le_pow_right two_pos hroom
          _ ≤ m₁ <<< k := hdividend
      exact (Nat.le_log2 (Nat.two_pow_pos 52 |>.trans_le hquotient).ne').mpr hquotient

end CalcScript.Rounding

namespace CalcScript.Binary

/-! ## 2. Exact factors -/

variable {m : ℕ}

/-- A natural number with its hidden bit in place. -/
def ofNat (m : ℕ) : Binary := ⟨false, m * 2 ^ (52 - m.log2), m.log2 - 52⟩

theorem le_significand_ofNat (hpos : 0 < m) (hlt : m < 2 ^ 53) :
    2 ^ 52 ≤ (ofNat m).significand := by
  have hlog : m.log2 < 53 := (Nat.log2_lt hpos.ne').mpr hlt
  calc 2 ^ 52 = 2 ^ m.log2 * 2 ^ (52 - m.log2) := by rw [← pow_add]; congr 1; omega
    _ ≤ m * 2 ^ (52 - m.log2) := Nat.mul_le_mul_right _ (Nat.log2_self_le hpos.ne')

theorem canonical_ofNat (hpos : 0 < m) (hlt : m < 2 ^ 53) : (ofNat m).Canonical := by
  have hlog : m.log2 < 53 := (Nat.log2_lt hpos.ne').mpr hlt
  refine ⟨?_, ?_, ?_, .inl (le_significand_ofNat hpos hlt)⟩
  · calc m * 2 ^ (52 - m.log2) < 2 ^ (m.log2 + 1) * 2 ^ (52 - m.log2) :=
          Nat.mul_lt_mul_of_pos_right Nat.lt_log2_self (Nat.two_pow_pos _)
      _ = 2 ^ 53 := by rw [← pow_add]; congr 1; omega
  · show (-1074 : ℤ) ≤ m.log2 - 52
    omega
  · show (m.log2 - 52 : ℤ) ≤ 971
    omega

theorem magnitude_ofNat (hpos : 0 < m) (hlt : m < 2 ^ 53) : (ofNat m).magnitude = m := by
  have hlog : m.log2 < 53 := (Nat.log2_lt hpos.ne').mpr hlt
  have hexponent : (m.log2 : ℤ) - 52 = -((52 - m.log2 : ℕ) : ℤ) := by omega
  show ((m * 2 ^ (52 - m.log2) : ℕ) : ℚ) * 2 ^ ((m.log2 : ℤ) - 52) = m
  rw [hexponent, zpow_neg, zpow_natCast]
  push_cast
  field_simp

theorem round_ofNat (hpos : 0 < m) (hlt : m < 2 ^ 53) :
    UnpackedFloat.round Format.binary64 .positive m 0
      = .finite .positive (ofNat m).significand (ofNat m).exponent
          (Nat.two_pow_pos 52 |>.trans_le (le_significand_ofNat hpos hlt)) := by
  have hlog : m.log2 < 53 := (Nat.log2_lt hpos.ne').mpr hlt
  have hhidden := le_significand_ofNat hpos hlt
  have htarget :
      Format.binary64.targetExponent (totalExponent m 0) = (m.log2 : ℤ) - 52 := by
    rw [Rounding.targetExponent_eq]
    omega
  have hdecrease : decreaseExponent m 0 ((m.log2 : ℤ) - 52)
      = ((ofNat m).significand, (ofNat m).exponent) := by
    have hamount : (0 - ((m.log2 : ℤ) - 52)).toNat = 52 - m.log2 := by omega
    rw [decreaseExponent, hamount, Nat.shiftLeft_eq]
    congr 1
    show (0 : ℤ) - (52 - m.log2 : ℕ) = m.log2 - 52
    omega
  rw [UnpackedFloat.round, htarget, hdecrease]
  have hexact := Rounding.describes_exact (ofNat m).significand
  have hscale : (2 : ℚ) ^ (ofNat m).exponent ≠ 0 := by positivity
  rw [← mul_div_cancel_right₀ ((ofNat m).significand : ℚ) hscale] at hexact
  exact Rounding.roundWithAccuracy_of_attracts hexact
    (.inl ((Nat.le_log2 (Nat.two_pow_pos 52 |>.trans_le hhidden).ne').mpr hhidden))
    (canonical_ofNat hpos hlt) _ (attracts_magnitude _)

/-- A natural number of at most 53 bits is a double. -/
theorem ofFloat?_toFloat (hpos : 0 < m) (hlt : m < 2 ^ 53) :
    ofFloat? m.toUInt64.toFloat = some (ofNat m) := by
  have hfloat : m.toUInt64.toFloat
      = .ofModel (.pack (UnpackedFloat.normalize Format.binary64 m.toUInt64.toNat 0
        .positive)) := rfl
  have hcompare : compare (m : ℤ) 0 = .gt := Int.compare_eq_gt.mpr (by omega)
  have hword : m.toUInt64.toNat = m := UInt64.toNat_ofNat_of_lt' (hlt.trans (by decide))
  rw [hfloat, hword, UnpackedFloat.normalize, hcompare]
  dsimp only
  rw [Int.toNat_natCast, round_ofNat hpos hlt]
  exact ofFloat?_pack (canonical_ofNat hpos hlt) _

/-- The tabulated powers of ten are exact. -/
theorem exists_powerOfTen {n : ℕ} (h : n < Float.exactlyRepresentablePowersOfTen.size) :
    ∃ b, ofFloat? Float.exactlyRepresentablePowersOfTen[n] = some b ∧ b.negative = false ∧
      2 ^ 52 ≤ b.significand ∧ b.magnitude = 10 ^ n := by
  have htable : ∀ n : Fin 23, ∃ b ∈ ofFloat? Float.exactlyRepresentablePowersOfTen[n],
      b.negative = false ∧ 2 ^ 52 ≤ b.significand ∧ -52 ≤ b.exponent ∧
        b.significand * 2 ^ (b.exponent + 52).toNat = 10 ^ (n : ℕ) * 2 ^ 52 := by
    decide +kernel
  obtain ⟨b, hb, hsign, hhidden, hexponent, hvalue⟩ := htable ⟨n, h⟩
  refine ⟨b, hb, hsign, hhidden, ?_⟩
  obtain ⟨k, hk⟩ := Int.eq_ofNat_of_zero_le (a := b.exponent + 52) (by omega)
  rw [hk, Int.toNat_natCast] at hvalue
  have hvalue' : (b.significand : ℚ) * 2 ^ k = 10 ^ n * 2 ^ 52 := by exact_mod_cast hvalue
  have hmove : (2 : ℚ) ^ b.exponent * 2 ^ 52 = 2 ^ k := by
    rw [mul_comm, Rounding.two_pow_mul_zpow, ← zpow_natCast, ← hk]
    congr 1
    push_cast
    ring
  have hpos : (0 : ℚ) < 2 ^ 52 := by positivity
  rw [magnitude]
  apply mul_right_cancel₀ hpos.ne'
  rw [mul_assoc, hmove, hvalue']

end CalcScript.Binary

namespace CalcScript.Decimal

/-! ## 3. Decimals -/

open Binary (ofFloat? Unsigned)

/-- The number that a decimal stands for, exactly. -/
def value (d : Decimal) : ℚ := d.coefficient * 10 ^ d.exponent

variable {b : Binary} {x : Float} {c n : ℕ} {e : ℤ}

theorem coefficient_pos_of_attracts (hpos : 0 < b.significand) (h : b.Attracts (c * 10 ^ e)) :
    0 < c := by
  rcases Nat.eq_zero_or_pos c with rfl | hc
  · have hscale : (0 : ℚ) < 2 ^ b.exponent := by positivity
    have hsignificand : (1 : ℚ) ≤ b.significand := by exact_mod_cast hpos
    have hstep := b.stepBelow_le
    have hlow := h.low
    have hlower : (0 : ℚ) < (b.significand - b.stepBelow) * 2 ^ b.exponent :=
      mul_pos (by linarith) hscale
    rw [Nat.cast_zero, zero_mul] at hlow
    linarith
  · exact hc

/-- Two factors that are doubles: their product as a double. -/
theorem mul_eq_of_attracts {f p : Binary} {y z : Float} (hy : ofFloat? y = some f)
    (hz : ofFloat? z = some p) (hysign : f.negative = false) (hzsign : p.negative = false)
    (hyhidden : 2 ^ 52 ≤ f.significand) (hzpos : 0 < p.significand) (hsign : b.negative = false)
    (hcanonical : b.Canonical) (hpos : 0 < b.significand)
    (h : b.Attracts (f.magnitude * p.magnitude)) : ofFloat? (y * z) = some b := by
  have hypos : 0 < f.significand := Nat.two_pow_pos 52 |>.trans_le hyhidden
  have hproduct : y * z = .ofModel (.pack (UnpackedFloat.mul Format.binary64
      y.toModel.unpack z.toModel.unpack)) := rfl
  have hfine : 52 ≤ (f.significand * p.significand).log2 :=
    (Nat.le_log2 (Nat.mul_pos hypos hzpos).ne').mpr
      (hyhidden.trans (Nat.le_mul_of_pos_right _ hzpos))
  have hsigns : f.sign * p.sign = b.sign := by
    rw [Binary.sign, Binary.sign, Binary.sign, hysign, hzsign, hsign]
    rfl
  rw [hproduct, Binary.unpack_of_ofFloat? hy hypos, Binary.unpack_of_ofFloat? hz hzpos,
    Rounding.mul_of_attracts hypos hzpos hcanonical hpos hfine h, hsigns]
  exact Binary.ofFloat?_pack hcanonical hpos

/-- Two numbers that are doubles: their quotient as a double. -/
theorem div_eq_of_attracts {f p : Binary} {y z : Float} (hy : ofFloat? y = some f)
    (hz : ofFloat? z = some p) (hysign : f.negative = false) (hzsign : p.negative = false)
    (hypos : 0 < f.significand) (hzpos : 0 < p.significand) (hsign : b.negative = false)
    (hcanonical : b.Canonical) (hpos : 0 < b.significand)
    (h : b.Attracts (f.magnitude / p.magnitude)) : ofFloat? (y / z) = some b := by
  have hquotient : y / z = .ofModel (.pack (UnpackedFloat.div Format.binary64
      y.toModel.unpack z.toModel.unpack)) := rfl
  have hsigns : f.sign / p.sign = b.sign := by
    rw [Binary.sign, Binary.sign, Binary.sign, hysign, hzsign, hsign]
    rfl
  rw [hquotient, Binary.unpack_of_ofFloat? hy hypos, Binary.unpack_of_ofFloat? hz hzpos,
    Rounding.div_of_attracts hypos hzpos hcanonical hpos h, hsigns]
  exact Binary.ofFloat?_pack hcanonical hpos

/-- No fields attract a decimal with too large a power of ten. -/
theorem exponent_le_of_attracts (hcanonical : b.Canonical) (hpos : 0 < b.significand)
    (h : b.Attracts (c * 10 ^ e)) : e ≤ 2048 := by
  by_contra hlarge
  obtain ⟨n, rfl⟩ := Int.eq_ofNat_of_zero_le (a := e) (by omega)
  have hc : (1 : ℚ) ≤ c := by exact_mod_cast coefficient_pos_of_attracts hpos h
  have hlt := h.lt hcanonical
  have hgreatest : (2 : ℚ) ^ 53 * 2 ^ b.exponent ≤ 2 ^ 53 * 2 ^ (971 : ℤ) :=
    mul_le_mul_of_nonneg_left (zpow_le_zpow_right₀ (by norm_num) hcanonical.greatest)
      (by positivity)
  have hbound : (2 : ℚ) ^ 53 * 2 ^ (971 : ℤ) ≤ 2 ^ n := by
    rw [Rounding.two_pow_mul_zpow, ← zpow_natCast]
    exact zpow_le_zpow_right₀ (by norm_num) (by push_cast; omega)
  have hpower : (2 : ℚ) ^ n ≤ 10 ^ n := pow_le_pow_left₀ (by norm_num) (by norm_num) n
  have hscaled : (10 : ℚ) ^ n ≤ c * 10 ^ n := le_mul_of_one_le_left (by positivity) hc
  rw [zpow_natCast] at hlt
  linarith

/-- No fields attract a decimal with too small a power of ten for its digits. -/
theorem le_exponent_of_attracts (hcanonical : b.Canonical) (hpos : 0 < b.significand)
    (h : b.Attracts (c * 10 ^ e)) : -(2048 + (c.log2 : ℤ)) ≤ e := by
  by_contra hsmall
  obtain ⟨n, hn⟩ := Int.eq_ofNat_of_zero_le (a := -e) (by omega)
  obtain rfl : e = -n := by omega
  have hsignificand : (1 : ℚ) ≤ b.significand := by exact_mod_cast hpos
  have hstep := b.stepBelow_le
  -- what a double attracts is at least half of the least double
  have hlow : (2 : ℚ) ^ (-1075 : ℤ) ≤ c * 10 ^ (-n : ℤ) := by
    refine le_trans ?_ h.low
    calc (2 : ℚ) ^ (-1 + -1074 : ℤ) = 1 / 2 * 2 ^ (-1074 : ℤ) := by
          rw [zpow_add₀ two_ne_zero, zpow_neg_one, one_div]
      _ ≤ (b.significand - b.stepBelow) * 2 ^ b.exponent :=
          mul_le_mul (by linarith) (zpow_le_zpow_right₀ (by norm_num) hcanonical.least)
            (by positivity) (by linarith)
  have hdigits : (c : ℚ) ≤ 2 ^ ((c.log2 : ℤ) + 1) := by
    rw [← Nat.cast_succ, zpow_natCast]
    exact_mod_cast Nat.lt_log2_self.le
  -- a negative power of ten is at most that power of two
  have hpower : (10 : ℚ) ^ (-n : ℤ) ≤ 2 ^ (-n : ℤ) := by
    rw [zpow_neg, zpow_neg, zpow_natCast, zpow_natCast]
    exact inv_anti₀ (by positivity) (pow_le_pow_left₀ (by norm_num) (by norm_num) n)
  have hproduct : (c : ℚ) * 10 ^ (-n : ℤ) ≤ 2 ^ ((c.log2 : ℤ) + 1 + -n) := by
    rw [zpow_add₀ two_ne_zero]
    exact mul_le_mul hdigits hpower (by positivity) (by positivity)
  have hstrict : (2 : ℚ) ^ ((c.log2 : ℤ) + 1 + -n) < 2 ^ (-1075 : ℤ) :=
    zpow_lt_zpow_right₀ (by norm_num) (by omega)
  linarith

variable {d : Decimal}

/-- Few digits and a small power of ten: both are doubles. -/
theorem toFloat_of_small (hlt : d.coefficient < 2 ^ 53) (hexponent : d.exponent.natAbs ≤ 22)
    (hsign : b.negative = false) (hcanonical : b.Canonical) (hpos : 0 < b.significand)
    (h : b.Attracts d.value) : ofFloat? d.toFloat = some b := by
  have hc := coefficient_pos_of_attracts hpos h
  obtain ⟨p, hp, hpsign, hphidden, hpvalue⟩ :=
    Binary.exists_powerOfTen (n := d.exponent.natAbs) (Nat.lt_succ_of_le hexponent)
  have hfactor := Binary.ofFloat?_toFloat hc hlt
  have hhidden := Binary.le_significand_ofNat hc hlt
  have hmagnitude := Binary.magnitude_ofNat hc hlt
  have hppos : 0 < p.significand := Nat.two_pow_pos 52 |>.trans_le hphidden
  rw [toFloat, Float.ofScientific, dif_pos ⟨hlt, hexponent⟩]
  dsimp only
  -- one division or one multiplication of exact doubles, rounded once
  by_cases hneg : d.exponent < 0
  · rw [if_pos (decide_eq_true hneg)]
    refine div_eq_of_attracts hfactor hp rfl hpsign (Nat.two_pow_pos 52 |>.trans_le hhidden)
      hppos hsign hcanonical hpos ?_
    have hvalue : (d.coefficient : ℚ) / 10 ^ d.exponent.natAbs = d.value := by
      rw [value, ← zpow_natCast, Int.ofNat_natAbs_of_nonpos hneg.le, zpow_neg, div_inv_eq_mul]
    rwa [hmagnitude, hpvalue, hvalue]
  · rw [if_neg (by simpa using hneg)]
    refine mul_eq_of_attracts hfactor hp rfl hpsign hhidden hppos hsign hcanonical hpos ?_
    have hvalue : (d.coefficient : ℚ) * 10 ^ d.exponent.natAbs = d.value := by
      rw [value, ← zpow_natCast, Int.natAbs_of_nonneg (not_lt.mp hneg)]
    rwa [hmagnitude, hpvalue, hvalue]

/-- Exact arithmetic with one rounding. -/
theorem ofScientific_of_attracts (hcanonical : b.Canonical) (hpos : 0 < b.significand)
    (h : b.Attracts (c * 10 ^ e)) :
    UnpackedFloat.ofScientific Format.binary64 c e
      = .finite .positive b.significand b.exponent hpos := by
  have hc := coefficient_pos_of_attracts hpos h
  have hlarge : ¬ e > 2 ^ 11 := not_lt.mpr (exponent_le_of_attracts hcanonical hpos h)
  have hsmall : ¬ e < -(2 ^ 11 + (c.log2 : ℤ)) :=
    not_lt.mpr (le_exponent_of_attracts hcanonical hpos h)
  rw [UnpackedFloat.ofScientific, dif_neg hc.ne', if_neg hlarge, if_neg hsmall]
  split
  · -- a product, with zeros behind the coefficient so that it is long enough
    next hnonneg =>
    have hshift : c <<< Format.binary64.mantissaBits = c * 2 ^ 53 := Nat.shiftLeft_eq c 53
    have hfine : 52 ≤ (c <<< Format.binary64.mantissaBits * 10 ^ e.toNat).log2 := by
      rw [hshift]
      have hle : 2 ^ 52 ≤ c * 2 ^ 53 * 10 ^ e.toNat :=
        calc 2 ^ 52 ≤ 2 ^ 53 := by norm_num
          _ ≤ c * 2 ^ 53 := Nat.le_mul_of_pos_left _ hc
          _ ≤ c * 2 ^ 53 * 10 ^ e.toNat := Nat.le_mul_of_pos_right _ (by positivity)
      exact (Nat.le_log2 (Nat.two_pow_pos 52 |>.trans_le hle).ne').mpr hle
    refine Rounding.mul_of_attracts _ _ hcanonical hpos hfine ?_
    have hvalue : ((c <<< Format.binary64.mantissaBits : ℕ) : ℚ)
        * 2 ^ (-(Format.binary64.mantissaBits : ℤ)) * ((10 ^ e.toNat : ℕ) * 2 ^ (0 : ℤ))
        = c * 10 ^ e := by
      obtain ⟨n, rfl⟩ := Int.eq_ofNat_of_zero_le hnonneg
      rw [hshift, zpow_neg, zpow_natCast, zpow_natCast, Int.toNat_natCast, zpow_zero]
      show ((c * 2 ^ 53 : ℕ) : ℚ) * (2 ^ 53)⁻¹ * ((10 ^ n : ℕ) * 1) = c * 10 ^ n
      rw [Nat.cast_mul, Nat.cast_pow, Nat.cast_pow, Nat.cast_ofNat, Nat.cast_ofNat, mul_one,
        mul_inv_cancel_right₀ (pow_ne_zero 53 two_ne_zero)]
    rwa [hvalue]
  · -- a quotient by a power of ten
    next hneg =>
    refine Rounding.div_of_attracts _ _ hcanonical hpos ?_
    have hvalue : (c : ℚ) * 2 ^ (0 : ℤ) / ((10 ^ (-e).toNat : ℕ) * 2 ^ (0 : ℤ))
        = c * 10 ^ e := by
      obtain ⟨n, hn⟩ := Int.eq_ofNat_of_zero_le (a := -e) (by omega)
      obtain rfl : e = -n := by omega
      rw [neg_neg, Int.toNat_natCast, zpow_zero, mul_one, mul_one, zpow_neg, zpow_natCast,
        Nat.cast_pow, Nat.cast_ofNat, div_eq_mul_inv]
    rwa [hvalue]

/-- **Reading decimals.** A decimal is read as the double whose fields attract it. -/
theorem ofFloat?_toFloat (hsign : b.negative = false) (hcanonical : b.Canonical)
    (hpos : 0 < b.significand) (h : b.Attracts d.value) : ofFloat? d.toFloat = some b := by
  by_cases hsmall : d.coefficient < 2 ^ 53 ∧ d.exponent.natAbs ≤ 22
  · exact toFloat_of_small hsmall.1 hsmall.2 hsign hcanonical hpos h
  · have hexponent : (if decide (d.exponent < 0) = true then Int.negOfNat d.exponent.natAbs
        else Int.ofNat d.exponent.natAbs) = d.exponent := by
      by_cases hneg : d.exponent < 0
      · rw [if_pos (decide_eq_true hneg), Int.negOfNat_eq, Int.ofNat_eq_natCast,
          Int.ofNat_natAbs_of_nonpos hneg.le, neg_neg]
      · rw [if_neg (by simpa using hneg)]
        exact Int.natAbs_of_nonneg (not_lt.mp hneg)
    rw [toFloat, Float.ofScientific, dif_neg hsmall]
    dsimp only
    rw [hexponent, Float.Model.ofScientific, ofScientific_of_attracts hcanonical hpos h]
    have hpack := Binary.ofFloat?_pack hcanonical hpos
    rwa [Binary.sign, hsign, if_neg Bool.false_ne_true] at hpack

/-! ## 4. Signs -/

theorem unsigned_roundWithAccuracy (m : ℕ) (e : ℤ) (acc : Accuracy) :
    Unsigned (roundWithAccuracy Format.binary64 .positive m e acc) := by
  rw [roundWithAccuracy]
  dsimp only
  split <;> rfl

theorem unsigned_ofScientific (c : ℕ) (e : ℤ) :
    Unsigned (UnpackedFloat.ofScientific Format.binary64 c e) := by
  unfold UnpackedFloat.ofScientific
  split
  · rfl
  split
  · rfl
  split
  · rfl
  split
  · exact unsigned_roundWithAccuracy _ _ _
  · exact unsigned_roundWithAccuracy _ _ _

/-- The number has no minus sign and is neither infinite nor NaN. -/
def FiniteUnsigned (u : UnpackedFloat) : Prop :=
  u = .zero .positive ∨ ∃ k e hk, u = .finite .positive k e hk

theorem finiteUnsigned_toFloat {m : ℕ} (h : m < 2 ^ 53) :
    FiniteUnsigned m.toUInt64.toFloat.toModel.unpack := by
  rcases Nat.eq_zero_or_pos m with rfl | hpos
  · have hfields : Binary.ofFloat? (Nat.toUInt64 0).toFloat = some ⟨false, 0, -1074⟩ := by
      decide +kernel
    exact .inl (Binary.unpack_of_significand_eq_zero hfields rfl)
  · exact .inr ⟨_, _, _, Binary.unpack_of_ofFloat? (Binary.ofFloat?_toFloat hpos h)
      (Nat.two_pow_pos 52 |>.trans_le (Binary.le_significand_ofNat hpos h))⟩

theorem unsigned_mul {u v : UnpackedFloat} (hu : FiniteUnsigned u) (hv : FiniteUnsigned v) :
    Unsigned (UnpackedFloat.mul Format.binary64 u v) := by
  rcases hu with rfl | ⟨k, e, hk, rfl⟩ <;> rcases hv with rfl | ⟨l, f, hl, rfl⟩
  · rfl
  · rfl
  · rfl
  · exact unsigned_roundWithAccuracy _ _ _

theorem unsigned_div {u v : UnpackedFloat} {m : ℕ} {e : ℤ} {hm : 0 < m} (hu : FiniteUnsigned u)
    (hv : v = .finite .positive m e hm) : Unsigned (UnpackedFloat.div Format.binary64 u v) := by
  rcases hu with rfl | ⟨k, f, hk, rfl⟩ <;> subst hv
  · rfl
  · exact unsigned_roundWithAccuracy _ _ _

/-- A decimal is read as a number without a sign. -/
theorem exists_unsigned (d : Decimal) : ∃ u, Unsigned u ∧ d.toFloat = .ofModel (.pack u) := by
  unfold toFloat Float.ofScientific
  split
  · next hsmall =>
    have hfactor := finiteUnsigned_toFloat hsmall.1
    obtain ⟨p, hp, hpsign, hphidden, -⟩ :=
      Binary.exists_powerOfTen (n := d.exponent.natAbs) (Nat.lt_succ_of_le hsmall.2)
    have hpower := Binary.unpack_of_ofFloat? hp (Nat.two_pow_pos 52 |>.trans_le hphidden)
    rw [Binary.sign, hpsign, if_neg Bool.false_ne_true] at hpower
    dsimp only
    split
    · refine ⟨_, ?_, rfl⟩
      exact unsigned_div hfactor hpower
    · refine ⟨_, ?_, rfl⟩
      exact unsigned_mul hfactor (.inr ⟨_, _, _, hpower⟩)
  · exact ⟨_, unsigned_ofScientific _ _, rfl⟩

/-- Unless it is too large, a decimal is read as a double with fields and no sign among them. -/
theorem fields_of_toFloat (d : Decimal) : d.toFloat = Number.infinity ∨
    ∃ b, Binary.ofFloat? d.toFloat = some b ∧ b.negative = false := by
  obtain ⟨u, hu, hd⟩ := d.exists_unsigned
  exact Binary.fields_of_unsigned hu hd

end CalcScript.Decimal

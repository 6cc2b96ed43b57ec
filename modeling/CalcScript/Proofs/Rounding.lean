/-
`Proofs/Rounding.lean` -- the double that an exact result is rounded to.

Multiplication and division cut the exact result off to a natural number of small units and
keep two bits about the rest. Here the result is a rational number. The two bits say where it
lies between two neighbours (`Describes`), cutting off further digits keeps that true, and so
the last step finds the neighbour that is nearest.

Which rational numbers are rounded to given fields is `Binary.Attracts`: all from half a step
below to half a step above, except that the step below a power of two is half as long.
-/
import CalcScript.Proofs.Doubles

set_option autoImplicit false

open Float.Model (Format UnpackedFloat totalExponent)
open Float.Model.UnpackedFloat

namespace CalcScript.Rounding

/-! ## 1. The nearest natural number -/

/-- No natural number is nearer to `q` than `n`, and if another one is as near, `n` is even. -/
structure Nearest (q : ℚ) (n : ℕ) : Prop where
  low : (n : ℚ) - 1 / 2 ≤ q
  high : q ≤ n + 1 / 2
  tie : q = n - 1 / 2 ∨ q = n + 1 / 2 → n % 2 = 0

variable {q : ℚ} {m n : ℕ}

theorem Nearest.le (hm : Nearest q m) (hn : Nearest q n) : m ≤ n := by
  by_contra hlt
  have hsucc : ((n + 1 : ℕ) : ℚ) ≤ m := Nat.cast_le.mpr (by omega)
  push_cast at hsucc
  have hlow := hm.low
  have hhigh := hn.high
  have hmeven := hm.tie (.inl (by linarith))
  have hneven := hn.tie (.inr (by linarith))
  have hnext : (m : ℚ) = (n + 1 : ℕ) := by push_cast; linarith
  have := Nat.cast_inj.mp hnext
  omega

theorem Nearest.unique (hm : Nearest q m) (hn : Nearest q n) : m = n :=
  Nat.le_antisymm (hm.le hn) (hn.le hm)

/-! ## 2. What the two bits say -/

/-- The mantissa is `q` without the part behind the point. The round bit says whether that
part is at least a half, the sticky bit whether anything is left of it beyond that. -/
def Describes (em : ExtendedMantissa) (q : ℚ) : Prop :=
  ∃ rest : ℚ, q = em.mantissa + (if em.roundBit then 1 / 2 else 0) + rest ∧
    0 ≤ rest ∧ rest < 1 / 2 ∧ (em.stickyBit = true ↔ rest ≠ 0)

variable {em : ExtendedMantissa}

theorem Describes.mantissa_le (h : Describes em q) : (em.mantissa : ℚ) ≤ q := by
  obtain ⟨rest, rfl, hnonneg, -, -⟩ := h
  split <;> linarith

theorem Describes.lt_mantissa (h : Describes em q) : q < em.mantissa + 1 := by
  obtain ⟨rest, rfl, -, hlt, -⟩ := h
  split <;> linarith

/-- Cutting off one more digit. -/
theorem Describes.shiftRightOne (h : Describes em q) : Describes em.shiftRightOne (q / 2) := by
  obtain ⟨rest, rfl, hnonneg, hlt, hsticky⟩ := h
  have hhalves : (em.mantissa : ℚ) = 2 * (em.mantissa / 2 : ℕ) + (em.mantissa % 2 : ℕ) := by
    exact_mod_cast (Nat.div_add_mod em.mantissa 2).symm
  refine ⟨((if em.roundBit then 1 / 2 else 0) + rest) / 2, ?_, ?_, ?_, ?_⟩
  · simp only [ExtendedMantissa.shiftRightOne, bne_iff_ne, ne_eq]
    rw [hhalves]
    rcases Nat.mod_two_eq_zero_or_one em.mantissa with hmod | hmod <;> rw [hmod] <;>
      simp <;> ring
  · split <;> linarith
  · split <;> linarith
  · simp only [ExtendedMantissa.shiftRightOne, Bool.or_eq_true, hsticky]
    cases em.roundBit with
    | false => simp
    | true =>
      simp only [true_or, ↓reduceIte, true_iff]
      intro hzero
      linarith

theorem Describes.shiftRight (h : Describes em q) (k : ℕ) :
    Describes (em >>> k) (q / 2 ^ k) := by
  induction k with
  | zero =>
    rw [pow_zero, div_one]
    exact h
  | succ k ih =>
    have hstep := ih.shiftRightOne
    rw [div_div, ← pow_succ] at hstep
    exact hstep

/-- The last step of rounding takes the nearest number. -/
theorem Describes.nearest (h : Describes em q) : Nearest q em.roundedMantissa := by
  obtain ⟨rest, rfl, hnonneg, hlt, hsticky⟩ := h
  obtain ⟨m, round, sticky⟩ := em
  dsimp only [ExtendedMantissa.roundedMantissa] at *
  have hpos : sticky = true → 0 < rest := fun h => lt_of_le_of_ne hnonneg (hsticky.mp h).symm
  have hzero : sticky = false → rest = 0 := fun h => by
    by_contra hne
    rw [hsticky.mpr hne] at h
    cases h
  cases round <;> cases sticky <;>
    simp only [ExtendedMantissa.accuracy, Accuracy.roundToNearestEven, Bool.false_eq_true,
      ↓reduceIte]
  · have hrest := hzero rfl
    exact ⟨by linarith, by linarith, by rintro (h | h) <;> linarith⟩
  · have hrest := hpos rfl
    exact ⟨by linarith, by linarith, by rintro (h | h) <;> linarith⟩
  · have hrest := hzero rfl
    rcases Nat.mod_two_eq_zero_or_one m with hmod | hmod <;> rw [hmod]
    · exact ⟨by push_cast; linarith, by push_cast; linarith, fun _ => hmod⟩
    · exact ⟨by push_cast; linarith, by push_cast; linarith, fun _ => by omega⟩
  · have hrest := hpos rfl
    exact ⟨by push_cast; linarith, by push_cast; linarith, by
      rintro (h | h) <;> push_cast at h <;> linarith⟩

theorem describes_exact (m : ℕ) :
    Describes (.ofMantissaAndAccuracy m .exact) m := by
  refine ⟨0, ?_, le_refl 0, by norm_num, ?_⟩
  · simp [ExtendedMantissa.ofMantissaAndAccuracy]
  · simp [ExtendedMantissa.ofMantissaAndAccuracy]

/-- What division says about the part that it leaves over. -/
theorem describes_fraction {m num den : ℕ} (hlt : num < den) :
    Describes (.ofMantissaAndAccuracy m (accuracyOfFraction num den))
      (m + (num : ℚ) / den) := by
  have hden : (0 : ℚ) < den := Nat.cast_pos.mpr (by omega)
  have hlt' : (num : ℚ) < den := Nat.cast_lt.mpr hlt
  have hone : (num : ℚ) / den < 1 := (div_lt_one hden).mpr hlt'
  have hnonneg : (0 : ℚ) ≤ (num : ℚ) / den := by positivity
  unfold accuracyOfFraction
  split
  · next hzero =>
    subst hzero
    simpa using describes_exact m
  · next hzero =>
    have hnum : (0 : ℚ) < num := Nat.cast_pos.mpr (by omega)
    have hpos : (0 : ℚ) < (num : ℚ) / den := by positivity
    -- the fraction is below, at or above one half, as twice its numerator is
    rcases lt_trichotomy (2 * num) den with hcompare | hcompare | hcompare
    · have hhalf : (num : ℚ) / den < 1 / 2 := by
        rw [div_lt_div_iff₀ hden two_pos]
        exact_mod_cast (by omega : num * 2 < 1 * den)
      rw [Nat.compare_eq_lt.mpr hcompare]
      refine ⟨num / den, ?_, hnonneg, hhalf, ?_⟩
      · simp [ExtendedMantissa.ofMantissaAndAccuracy]
      · simp only [ExtendedMantissa.ofMantissaAndAccuracy, true_iff]
        exact hpos.ne'
    · have hhalf : (num : ℚ) / den = 1 / 2 := by
        rw [div_eq_div_iff hden.ne' two_ne_zero]
        exact_mod_cast (by omega : num * 2 = 1 * den)
      rw [Nat.compare_eq_eq.mpr hcompare, hhalf]
      exact ⟨0, by simp [ExtendedMantissa.ofMantissaAndAccuracy], le_refl 0, by norm_num,
        by simp [ExtendedMantissa.ofMantissaAndAccuracy]⟩
    · have hhalf : 1 / 2 < (num : ℚ) / den := by
        rw [div_lt_div_iff₀ two_pos hden]
        exact_mod_cast (by omega : 1 * den < num * 2)
      rw [Nat.compare_eq_gt.mpr hcompare]
      refine ⟨num / den - 1 / 2, ?_, by linarith, by linarith, ?_⟩
      · simp only [ExtendedMantissa.ofMantissaAndAccuracy, ↓reduceIte]
        ring
      · simp only [ExtendedMantissa.ofMantissaAndAccuracy, true_iff]
        exact (by linarith : (0 : ℚ) < (num : ℚ) / den - 1 / 2).ne'

end CalcScript.Rounding

namespace CalcScript.Binary

/-! ## 3. The numbers that are rounded to given fields -/

/-- How far down from a significand the numbers reach that are rounded to it. -/
def stepBelow (b : Binary) : ℚ :=
  if b.significand = 2 ^ 52 ∧ -1074 < b.exponent then 1 / 4 else 1 / 2

/-- The fields are the nearest ones to `q`, halves going to the even significand. -/
structure Attracts (b : Binary) (q : ℚ) : Prop where
  low : (b.significand - b.stepBelow) * 2 ^ b.exponent ≤ q
  high : q ≤ (b.significand + 1 / 2) * 2 ^ b.exponent
  tie : q = (b.significand - b.stepBelow) * 2 ^ b.exponent ∨
    q = (b.significand + 1 / 2) * 2 ^ b.exponent → b.significand % 2 = 0

theorem stepBelow_le (b : Binary) : b.stepBelow ≤ 1 / 2 := by
  unfold stepBelow
  split <;> norm_num

theorem stepBelow_pos (b : Binary) : 0 < b.stepBelow := by
  unfold stepBelow
  split <;> norm_num

variable {b : Binary} {q : ℚ} {t : ℤ}

/-- Fields attract the number that they stand for. -/
theorem attracts_magnitude (b : Binary) : b.Attracts b.magnitude := by
  have hscale : (0 : ℚ) < 2 ^ b.exponent := by positivity
  have hstep := b.stepBelow_pos
  have hlow : ((b.significand : ℚ) - b.stepBelow) * 2 ^ b.exponent < b.magnitude :=
    mul_lt_mul_of_pos_right (by linarith) hscale
  have hhigh : b.magnitude < ((b.significand : ℚ) + 1 / 2) * 2 ^ b.exponent :=
    mul_lt_mul_of_pos_right (by linarith) hscale
  exact ⟨hlow.le, hhigh.le, by rintro (h | h) <;> linarith⟩

/-- With the exponent `t`, a significand for `q` needs no more than 53 digits, and all of them
unless `t` is the least exponent. -/
structure Suits (t : ℤ) (q : ℚ) : Prop where
  least : -1074 ≤ t
  lt : q < 2 ^ 53 * 2 ^ t
  le : 2 ^ 52 * 2 ^ t ≤ q ∨ t = -1074

theorem Attracts.lt (h : b.Attracts q) (hcanonical : b.Canonical) :
    q < 2 ^ 53 * 2 ^ b.exponent := by
  have hscale : (0 : ℚ) < 2 ^ b.exponent := by positivity
  have hsignificand : (b.significand : ℚ) + 1 ≤ 2 ^ 53 := by
    exact_mod_cast hcanonical.lt
  have hhigh := h.high
  have hlt : ((b.significand : ℚ) + 1 / 2) * 2 ^ b.exponent < 2 ^ 53 * 2 ^ b.exponent :=
    mul_lt_mul_of_pos_right (by linarith) hscale
  linarith

/-- The numbers rounded to a significand with its hidden bit have the hidden bit too, but for
the ones just below a power of two. -/
theorem Attracts.le (h : b.Attracts q) (hhidden : 2 ^ 52 ≤ b.significand)
    (hpower : b.significand = 2 ^ 52 → 2 ^ 52 * 2 ^ b.exponent ≤ q) :
    2 ^ 52 * 2 ^ b.exponent ≤ q := by
  rcases Nat.eq_or_lt_of_le hhidden with heq | hlt
  · exact hpower heq.symm
  · have hscale : (0 : ℚ) ≤ 2 ^ b.exponent := by positivity
    have hsignificand : (2 : ℚ) ^ 52 + 1 ≤ b.significand := by exact_mod_cast hlt
    have hstep := b.stepBelow_le
    have hle : (2 : ℚ) ^ 52 * 2 ^ b.exponent
        ≤ (b.significand - b.stepBelow) * 2 ^ b.exponent :=
      mul_le_mul_of_nonneg_right (by linarith) hscale
    exact hle.trans h.low

/-- At the exponent of the fields the significand is the nearest number. -/
theorem Attracts.nearest (h : b.Attracts q) :
    Rounding.Nearest (q / 2 ^ b.exponent) b.significand := by
  have hscale : (0 : ℚ) < 2 ^ b.exponent := by positivity
  have hstep := b.stepBelow_le
  have hlow : (b.significand : ℚ) - b.stepBelow ≤ q / 2 ^ b.exponent :=
    (le_div_iff₀ hscale).mpr h.low
  refine ⟨by linarith, (div_le_iff₀ hscale).mpr h.high, ?_⟩
  rintro (htie | htie)
  · apply h.tie
    left
    have hhalf : b.stepBelow = 1 / 2 := by linarith
    rw [hhalf, ← htie, div_mul_cancel₀ _ hscale.ne']
  · apply h.tie
    right
    rw [← htie, div_mul_cancel₀ _ hscale.ne']

/-- Just below a power of two the steps are half as long, and the nearest number there is the
power itself. -/
theorem Attracts.nearest_below (h : b.Attracts q) (hpower : b.significand = 2 ^ 52)
    (hexponent : -1074 < b.exponent) (hbelow : q < 2 ^ 52 * 2 ^ b.exponent) :
    Rounding.Nearest (q / 2 ^ (b.exponent - 1)) (2 ^ 53) := by
  have hscale : (0 : ℚ) < 2 ^ (b.exponent - 1) := by positivity
  have hdouble : (2 : ℚ) ^ b.exponent = 2 ^ (b.exponent - 1) * 2 := by
    rw [← zpow_add_one₀ two_ne_zero, sub_add_cancel]
  have hstep : b.stepBelow = 1 / 4 := by rw [stepBelow, if_pos ⟨hpower, hexponent⟩]
  have hlow := h.low
  rw [hstep, hpower, hdouble] at hlow
  rw [hdouble] at hbelow
  push_cast at hlow
  have hge : (2 : ℚ) ^ 53 - 1 / 2 ≤ q / 2 ^ (b.exponent - 1) :=
    (le_div_iff₀ hscale).mpr (by linarith)
  have hlt : q / 2 ^ (b.exponent - 1) < (2 : ℚ) ^ 53 :=
    (div_lt_iff₀ hscale).mpr (by linarith)
  exact ⟨by push_cast; linarith, by push_cast; linarith, fun _ => by norm_num⟩

/-- Powers of two with a smaller exponent. -/
theorem two_zpow_mul_two_le {s t : ℤ} (h : s < t) : (2 : ℚ) ^ s * 2 ≤ 2 ^ t := by
  rw [← zpow_add_one₀ two_ne_zero]
  exact zpow_le_zpow_right₀ (by norm_num) h

/-- Rounding at an exponent that suits `q` finds the significand of the fields, or the power
of two above all significands where the fields hold the power itself. -/
theorem Attracts.nearest_of_suits (h : b.Attracts q) (hcanonical : b.Canonical)
    (ht : Suits t q) :
    (t = b.exponent ∧ Rounding.Nearest (q / 2 ^ t) b.significand) ∨
    (t + 1 = b.exponent ∧ b.significand = 2 ^ 52 ∧ Rounding.Nearest (q / 2 ^ t) (2 ^ 53)) := by
  have hleast := hcanonical.least
  rcases lt_trichotomy t b.exponent with hlt | rfl | hgt
  · right
    have hexponent : -1074 < b.exponent := lt_of_le_of_lt ht.least hlt
    have hhidden : 2 ^ 52 ≤ b.significand := hcanonical.hidden.resolve_right (by omega)
    have hbelow : q < 2 ^ 52 * 2 ^ b.exponent := by
      have hscale := two_zpow_mul_two_le hlt
      linarith [ht.lt]
    -- the number is below the binade of `b` and still rounded to it, so `b` is a power of two
    have hpower : b.significand = 2 ^ 52 := by
      by_contra hne
      exact absurd (h.le hhidden fun heq => absurd heq hne) (not_le.mpr hbelow)
    -- and the binade below is the next one, or the number would be too far away
    have hnext : t + 1 = b.exponent := by
      by_contra hne
      have hscale : (2 : ℚ) ^ t * 2 ≤ 2 ^ (b.exponent - 1) := two_zpow_mul_two_le (by omega)
      have hnearest := h.nearest_below hpower hexponent hbelow
      have hlow := hnearest.low
      have hpos : (0 : ℚ) < 2 ^ (b.exponent - 1) := by positivity
      rw [le_div_iff₀ hpos] at hlow
      push_cast at hlow
      linarith [ht.lt]
    refine ⟨hnext, hpower, ?_⟩
    rw [show t = b.exponent - 1 by omega]
    exact h.nearest_below hpower hexponent hbelow
  · exact .inl ⟨rfl, h.nearest⟩
  · have hle : 2 ^ 52 * 2 ^ t ≤ q := ht.le.resolve_right (by omega)
    have hscale := two_zpow_mul_two_le hgt
    linarith [h.lt hcanonical]

end CalcScript.Binary

namespace CalcScript.Rounding

/-! ## 4. Rounding an exact result -/

open Binary (Attracts Suits)

variable {b : Binary} {q : ℚ} {m : ℕ} {e t : ℤ} {acc : Accuracy}

theorem mantissa_ofMantissaAndAccuracy (m : ℕ) (acc : Accuracy) :
    (ExtendedMantissa.ofMantissaAndAccuracy m acc).mantissa = m := by
  cases acc with
  | exact => rfl
  | inexact ordering => cases ordering <;> rfl

theorem targetExponent_eq (m : ℕ) (e : ℤ) :
    Format.binary64.targetExponent (totalExponent m e) = max (m.log2 + e - 52) (-1074) := by
  show max ((m.log2 : ℤ) + 1 + e - 53) (-1074) = _
  omega

theorem two_pow_mul_zpow (n : ℕ) (t : ℤ) : (2 : ℚ) ^ n * 2 ^ t = 2 ^ ((n : ℤ) + t) := by
  rw [← zpow_natCast, ← zpow_add₀ two_ne_zero]

/-- The exact result has no more binary digits than what is left of it. -/
theorem Describes.lt_zpow (h : Describes (.ofMantissaAndAccuracy m acc) (q / 2 ^ e)) :
    q < 2 ^ ((m.log2 : ℤ) + 1 + e) := by
  have hscale : (0 : ℚ) < 2 ^ e := by positivity
  have hlt := h.lt_mantissa
  rw [mantissa_ofMantissaAndAccuracy, div_lt_iff₀ hscale] at hlt
  have hmantissa : (m : ℚ) + 1 ≤ 2 ^ (m.log2 + 1) := by exact_mod_cast Nat.lt_log2_self
  calc q < ((m : ℚ) + 1) * 2 ^ e := hlt
    _ ≤ 2 ^ (m.log2 + 1) * 2 ^ e := mul_le_mul_of_nonneg_right hmantissa hscale.le
    _ = 2 ^ ((m.log2 : ℤ) + 1 + e) := two_pow_mul_zpow (m.log2 + 1) e

/-- It has no fewer either. -/
theorem Describes.zpow_le (h : Describes (.ofMantissaAndAccuracy m acc) (q / 2 ^ e))
    (hm : m ≠ 0) : 2 ^ ((m.log2 : ℤ) + e) ≤ q := by
  have hscale : (0 : ℚ) < 2 ^ e := by positivity
  have hle := h.mantissa_le
  rw [mantissa_ofMantissaAndAccuracy, le_div_iff₀ hscale] at hle
  have hlog : (2 : ℚ) ^ m.log2 ≤ m := by exact_mod_cast Nat.log2_self_le hm
  calc (2 : ℚ) ^ ((m.log2 : ℤ) + e) = 2 ^ m.log2 * 2 ^ e := (two_pow_mul_zpow m.log2 e).symm
    _ ≤ m * 2 ^ e := mul_le_mul_of_nonneg_right hlog hscale.le
    _ ≤ q := hle

/-- The exponent that rounding goes to suits the exact result, if enough digits are there. -/
theorem suits_targetExponent (h : Describes (.ofMantissaAndAccuracy m acc) (q / 2 ^ e))
    (hfine : 52 ≤ m.log2 ∨ e ≤ -1074) :
    Suits (Format.binary64.targetExponent (totalExponent m e)) q := by
  rw [targetExponent_eq]
  refine ⟨le_max_right _ _, ?_, ?_⟩
  · rw [two_pow_mul_zpow]
    exact h.lt_zpow.trans_le (zpow_le_zpow_right₀ (by norm_num) (by push_cast; omega))
  · rcases le_total ((m.log2 : ℤ) + e - 52) (-1074) with hmin | hmin
    · exact .inr (max_eq_right hmin)
    · left
      have hnonzero : m ≠ 0 := by
        rintro rfl
        rw [Nat.log2_zero] at hmin hfine
        omega
      have hexponent : ((52 : ℕ) : ℤ) + (m.log2 + e - 52) = m.log2 + e := by
        push_cast
        ring
      rw [max_eq_left hmin, two_pow_mul_zpow, hexponent]
      exact h.zpow_le hnonzero

theorem le_targetExponent (hfine : 52 ≤ m.log2 ∨ e ≤ -1074) :
    e ≤ Format.binary64.targetExponent (totalExponent m e) := by
  rw [targetExponent_eq]
  omega

/-- Moving the point to a larger exponent. -/
theorem shiftToExponent_eq (h : Describes (.ofMantissaAndAccuracy m acc) (q / 2 ^ e))
    (hle : e ≤ t) :
    ∃ em, shiftToExponent m e acc t = (em, t) ∧ Describes em (q / 2 ^ t) := by
  obtain ⟨k, hk⟩ := Int.eq_ofNat_of_zero_le (a := t - e) (by omega)
  obtain rfl : t = e + k := by omega
  refine ⟨ExtendedMantissa.ofMantissaAndAccuracy m acc >>> k, ?_, ?_⟩
  · simp [shiftToExponent]
  · have hshift := h.shiftRight k
    rwa [div_div, ← zpow_natCast, ← zpow_add₀ two_ne_zero] at hshift

/-- A significand that is short enough stays. -/
theorem shiftToTargetExponent_of_lt (hlt : m < 2 ^ 53) (hleast : -1074 ≤ e) :
    shiftToTargetExponent Format.binary64 m e .exact = (⟨m, false, false⟩, e) := by
  have hlog : m.log2 ≤ 52 := by
    by_cases hzero : m = 0
    · rw [hzero, Nat.log2_zero]
      omega
    · have := (Nat.log2_lt hzero).mpr hlt
      omega
  have hamount : (Format.binary64.targetExponent (totalExponent m e) - e).toNat = 0 := by
    rw [targetExponent_eq]
    omega
  rw [shiftToTargetExponent, shiftToExponent, hamount]
  simp [ExtendedMantissa.ofMantissaAndAccuracy, HShiftRight.hShiftRight, Nat.repeat]

/-- The power of two that is too long by one digit is halved. -/
theorem shiftToTargetExponent_of_eq (hleast : -1074 ≤ e) :
    shiftToTargetExponent Format.binary64 (2 ^ 53) e .exact
      = (⟨2 ^ 52, false, false⟩, e + 1) := by
  have hamount :
      (Format.binary64.targetExponent (totalExponent (2 ^ 53) e) - e).toNat = 1 := by
    rw [targetExponent_eq, Nat.log2_two_pow]
    omega
  rw [shiftToTargetExponent, shiftToExponent, hamount]
  rfl

/-- **Rounding.** An exact result is rounded to the fields that attract it. -/
theorem roundWithAccuracy_of_attracts {s : Sign}
    (hdescribes : Describes (.ofMantissaAndAccuracy m acc) (q / 2 ^ e))
    (hfine : 52 ≤ m.log2 ∨ e ≤ -1074) (hcanonical : b.Canonical) (hpos : 0 < b.significand)
    (h : b.Attracts q) :
    roundWithAccuracy Format.binary64 s m e acc
      = .finite s b.significand b.exponent hpos := by
  have hsuits := suits_targetExponent hdescribes hfine
  obtain ⟨em, hshift, hem⟩ := shiftToExponent_eq hdescribes (le_targetExponent hfine)
  have hleast := hsuits.least
  have hfirst : shiftToTargetExponent Format.binary64 m e acc
      = (em, Format.binary64.targetExponent (totalExponent m e)) := hshift
  generalize Format.binary64.targetExponent (totalExponent m e) = t at *
  rw [roundWithAccuracy, hfirst]
  dsimp only
  rcases h.nearest_of_suits hcanonical hsuits with ⟨rfl, hnearest⟩ | ⟨hnext, hpower, hnearest⟩
  · rw [hem.nearest.unique hnearest, shiftToTargetExponent_of_lt hcanonical.lt hleast]
    exact dif_neg hpos.ne'
  · obtain ⟨negative, significand, exponent⟩ := b
    cases hpower
    cases hnext
    rw [hem.nearest.unique hnearest, shiftToTargetExponent_of_eq hleast]
    exact dif_neg (Nat.two_pow_pos 52).ne'

end CalcScript.Rounding

/-
`Proofs/WholeDivision.lean` -- integer division of doubles.

Integer division drops what is behind the point of both operands, divides, rounds the quotient
to a double and drops what is behind the point again. The rounding in the middle could carry a
quotient just below an integer over to that integer. It does not, as long as the dividend is at
most `2 ^ 53`: the quotient then misses the integer above it by more than half a step.

Two facts about rounding stand in front. Every number of a suitable size is rounded to some
fields, and rounding keeps the order between a number and a double.
-/
import CalcScript.Proofs.NumberTexts

set_option autoImplicit false

open Float.Model (Format UnpackedFloat)

namespace CalcScript

/-! ## 1. The integer part -/

/-- The number without what stands behind its point. -/
def integerPart (q : ℚ) : ℤ := if 0 ≤ q then ⌊q⌋ else ⌈q⌉

namespace Binary

variable {b c : Binary} {x : Float} {q : ℚ} {n : ℕ}

theorem magnitude_nonneg (b : Binary) : 0 ≤ b.magnitude := by
  unfold magnitude
  positivity

theorem significand_pos (h : 0 < b.magnitude) : 0 < b.significand := by
  rw [Nat.pos_iff_ne_zero]
  intro hzero
  rw [magnitude, hzero, Nat.cast_zero, zero_mul] at h
  exact lt_irrefl 0 h

theorem significand_eq_zero (h : b.magnitude = 0) : b.significand = 0 := by
  have hscale : (2 : ℚ) ^ b.exponent ≠ 0 := by positivity
  exact Nat.cast_eq_zero.mp ((mul_eq_zero.mp h).resolve_right hscale)

theorem floor_magnitude (b : Binary) : ⌊b.magnitude⌋ = b.whole := by
  by_cases hexponent : 0 ≤ b.exponent
  · rw [magnitude_of_nonneg hexponent, Int.floor_natCast]
  · rw [magnitude_of_neg hexponent, Rat.floor_natCast_div_natCast, whole, if_neg hexponent,
      Int.natCast_div]

/-- The integer part of a double, read off its fields. -/
theorem integerPart_value (b : Binary) :
    integerPart b.value = if b.negative then -(b.whole : ℤ) else b.whole := by
  have hnonneg := b.magnitude_nonneg
  have hfloor := b.floor_magnitude
  cases hsign : b.negative with
  | false => rw [integerPart, value, hsign, if_neg Bool.false_ne_true, if_pos hnonneg, hfloor,
      if_neg Bool.false_ne_true]
  | true =>
    rw [integerPart, value, hsign, if_pos rfl, if_pos rfl]
    rcases hnonneg.eq_or_lt with hzero | hpos
    · rw [← hzero, Int.floor_zero] at hfloor
      rw [← hzero, neg_zero, if_pos le_rfl, Int.floor_zero, ← hfloor, neg_zero]
    · rw [if_neg (by linarith), Int.ceil_neg, hfloor]

/-! ## 2. Truncation is exact -/

/-- Fields with a given sign. -/
def withSign (negative : Bool) (b : Binary) : Binary := { b with negative }

theorem Canonical.withSign (negative : Bool) (h : b.Canonical) :
    (b.withSign negative).Canonical :=
  ⟨h.lt, h.least, h.greatest, h.hidden⟩

theorem ofBits_ofNat (h : x.toBits.toNat = n) : Float.ofBits (.ofNat n) = x := by
  rw [← h, UInt64.ofNat_toNat, Float.ofBits_toBits]

/-- A whole number of at most 53 bits is packed into the double that it is. -/
theorem ofFloat?_toFloat_of_pos (negative : Bool) (hpos : 0 < n) (hlt : n < 2 ^ 53) :
    ofFloat? (Binary.mk negative n 0).toFloat = some ((ofNat n).withSign negative) := by
  have hcanonical := (canonical_ofNat hpos hlt).withSign negative
  have hhidden : 2 ^ 52 ≤ ((ofNat n).withSign negative).significand :=
    le_significand_ofNat hpos hlt
  have hsignificand := (Nat.two_pow_pos 52).trans_le hhidden
  have hbits := toNat_pack hcanonical hsignificand
  rw [toNat_toBitVec_sign, if_pos hhidden] at hbits
  have hshort : ¬ n * 2 ^ (52 - n.log2) < 2 ^ 52 := not_lt.mpr hhidden
  have hroom : min (52 - n.log2) ((0 : ℤ) + 1074).toNat = 52 - n.log2 := by omega
  have hfield : ((0 : ℤ) - (52 - n.log2 : ℕ) + 1075).toNat
      = ((n.log2 : ℤ) - 52 + 1075).toNat := by
    have hlog : n.log2 < 53 := (Nat.log2_lt hpos.ne').mpr hlt
    omega
  have hword : (Binary.mk negative n 0).toFloat
      = .ofBits (.ofNat ((if negative then 1 else 0) * 2 ^ 63
        + ((n.log2 : ℤ) - 52 + 1075).toNat * 2 ^ 52 + n * 2 ^ (52 - n.log2) % 2 ^ 52)) := by
    simp only [toFloat, Nat.pow_eq, hroom, hfield, if_neg hshort]
    cases negative with
    | false => simp
    | true => simp [Nat.add_assoc]
  refine (congrArg ofFloat? ?_).trans (ofFloat?_pack hcanonical hsignificand)
  rw [hword]
  exact ofBits_ofNat hbits

/-- Truncation keeps the sign and the part in front of the point, and nothing else. -/
theorem exists_ofFloat?_trunc (h : ofFloat? x = some b) :
    ∃ c, ofFloat? (Number.trunc x) = some c ∧ c.negative = b.negative ∧
      c.magnitude = b.whole := by
  simp only [Number.trunc, h]
  by_cases hexponent : 0 ≤ b.exponent
  · rw [if_pos hexponent]
    exact ⟨b, h, rfl, magnitude_of_nonneg hexponent⟩
  rw [if_neg hexponent]
  rcases Nat.eq_zero_or_pos b.whole with hzero | hpos
  · have hfields : ofFloat? (Binary.mk b.negative 0 0).toFloat
        = some ⟨b.negative, 0, -1074⟩ := by
      cases b.negative <;> decide +kernel
    rw [hzero]
    exact ⟨_, hfields, rfl, by simp [magnitude]⟩
  · have hlt : b.whole < 2 ^ 53 := by
      rw [whole, if_neg hexponent]
      exact (Nat.div_le_self _ _).trans_lt (canonical_of_ofFloat? h).lt
    exact ⟨_, ofFloat?_toFloat_of_pos b.negative hpos hlt, rfl, magnitude_ofNat hpos hlt⟩

end Binary

/-! ## 3. Every number of a suitable size is rounded to some fields -/

namespace Rounding

variable {q : ℚ}

theorem exists_nearest (h : 0 ≤ q) : ∃ n, Nearest q n := by
  have hle := Nat.floor_le h
  have hlt := Nat.lt_floor_add_one q
  generalize ⌊q⌋₊ = n at hle hlt
  rcases lt_trichotomy q (n + 1 / 2) with hbelow | hhalf | habove
  · exact ⟨n, by linarith, hbelow.le, by rintro (htie | htie) <;> linarith⟩
  · rcases Nat.even_or_odd n with heven | hodd
    · exact ⟨n, by linarith, hhalf.le, fun _ => Nat.even_iff.mp heven⟩
    · refine ⟨n + 1, ?_, ?_, fun _ => Nat.even_iff.mp hodd.add_one⟩
      · push_cast
        linarith
      · push_cast
        linarith
  · refine ⟨n + 1, ?_, ?_, ?_⟩
    · push_cast
      linarith
    · push_cast
      linarith
    · push_cast
      rintro (htie | htie) <;> linarith

end Rounding

namespace Binary

variable {b c : Binary} {x : Float} {q : ℚ} {m n : ℕ} {t : ℤ}

/-- The nearest natural number at a suitable exponent, as fields. The power of two above all
significands is written with the next exponent. -/
theorem exists_attracts_of_nearest (negative : Bool) (hsuits : Suits t q)
    (hnearest : Rounding.Nearest (q / 2 ^ t) n) (hpos : 0 < n) (ht : t < 971) :
    ∃ b : Binary, b.negative = negative ∧ b.Canonical ∧ 0 < b.significand ∧ b.Attracts q := by
  have hscale : (0 : ℚ) < 2 ^ t := by positivity
  have hlow : ((n : ℚ) - 1 / 2) * 2 ^ t ≤ q := (le_div_iff₀ hscale).mp hnearest.low
  have hhigh : q ≤ ((n : ℚ) + 1 / 2) * 2 ^ t := (div_le_iff₀ hscale).mp hnearest.high
  have hle : n ≤ 2 ^ 53 := by
    have hlt : (n : ℚ) - 1 / 2 < 2 ^ 53 :=
      lt_of_mul_lt_mul_right (hlow.trans_lt hsuits.lt) hscale.le
    have hsucc : (n : ℚ) < (2 ^ 53 + 1 : ℕ) := by push_cast; linarith
    exact Nat.lt_succ_iff.mp (Nat.cast_lt.mp hsucc)
  have hleast := hsuits.least
  rcases hle.eq_or_lt with rfl | hlt
  · -- the step below a power of two is half as long, and `q` is no further away
    have hdouble : (2 : ℚ) ^ (t + 1) = 2 ^ t * 2 := zpow_add_one₀ two_ne_zero t
    have hstep : stepBelow ⟨negative, 2 ^ 52, t + 1⟩ = 1 / 4 :=
      if_pos ⟨rfl, by dsimp only; omega⟩
    push_cast at hlow
    refine ⟨⟨negative, 2 ^ 52, t + 1⟩, rfl,
      ⟨by norm_num, by dsimp only; omega, by dsimp only; omega, .inl le_rfl⟩,
      Nat.two_pow_pos 52, ⟨?_, ?_, fun _ => by norm_num⟩⟩
    · rw [hstep, hdouble]
      push_cast
      linarith
    · rw [hdouble]
      push_cast
      linarith [hsuits.lt]
  · have hhidden : 2 ^ 52 ≤ n ∨ t = -1074 := hsuits.le.imp_left fun hlarge => by
      have hreach : (2 : ℚ) ^ 52 ≤ n + 1 / 2 :=
        le_of_mul_le_mul_right (hlarge.trans hhigh) hscale
      have hsucc : ((2 ^ 52 : ℕ) : ℚ) < (n + 1 : ℕ) := by push_cast; linarith
      exact Nat.lt_succ_iff.mp (Nat.cast_lt.mp hsucc)
    refine ⟨⟨negative, n, t⟩, rfl, ⟨hlt, hleast, ht.le, hhidden⟩, hpos, ?_⟩
    by_cases hpower : n = 2 ^ 52 ∧ -1074 < t
    · have hstep : stepBelow ⟨negative, n, t⟩ = 1 / 4 := if_pos hpower
      have hlarge : 2 ^ 52 * 2 ^ t ≤ q := hsuits.le.resolve_right (by omega)
      obtain ⟨rfl, -⟩ := hpower
      refine ⟨?_, hhigh, fun _ => by norm_num⟩
      rw [hstep]
      push_cast
      linarith
    · have hstep : stepBelow ⟨negative, n, t⟩ = 1 / 2 := if_neg hpower
      refine ⟨?_, hhigh, ?_⟩
      · rw [hstep]
        exact hlow
      · rw [hstep]
        exact fun htie => hnearest.tie (htie.imp (div_eq_iff hscale.ne').mpr
          (div_eq_iff hscale.ne').mpr)

theorem exists_attracts (negative : Bool) (hlow : (2 : ℚ) ^ (-1074 : ℤ) ≤ q)
    (hhigh : q < 2 ^ (1023 : ℤ)) :
    ∃ b : Binary, b.negative = negative ∧ b.Canonical ∧ 0 < b.significand ∧ b.Attracts q := by
  have hq : 0 < q := lt_of_lt_of_le (by positivity) hlow
  obtain ⟨k, hle, hlt⟩ := exists_mem_Ico_zpow hq one_lt_two
  have hk : k < 1023 := (zpow_lt_zpow_iff_right₀ one_lt_two).mp (hle.trans_lt hhigh)
  -- the unit that leaves 53 binary digits, or the least unit there is
  have hsuits : Suits (max (k - 52) (-1074)) q := by
    refine ⟨le_max_right _ _, ?_, ?_⟩
    · rw [Rounding.two_pow_mul_zpow]
      exact hlt.trans_le (zpow_le_zpow_right₀ one_le_two (by push_cast; omega))
    · rcases le_total (k - 52) (-1074) with hmin | hmin
      · exact .inr (max_eq_right hmin)
      · have hexponent : ((52 : ℕ) : ℤ) + (k - 52) = k := by push_cast; ring
        rw [max_eq_left hmin, Rounding.two_pow_mul_zpow, hexponent]
        exact .inl hle
  have hscale : (0 : ℚ) < 2 ^ max (k - 52) (-1074) := by positivity
  -- the number of units is rounded, and it is not rounded to zero
  obtain ⟨n, hn⟩ := Rounding.exists_nearest (div_pos hq hscale).le
  have hpos : 0 < n := by
    have hone : 1 ≤ q / 2 ^ max (k - 52) (-1074) := by
      rw [le_div_iff₀ hscale, one_mul]
      rcases le_total (k - 52) (-1074) with hmin | hmin
      · rwa [max_eq_right hmin]
      · rw [max_eq_left hmin]
        exact (zpow_le_zpow_right₀ one_le_two (by omega)).trans hle
    have hhigh := hn.high
    have hhalf : (0 : ℚ) < n := by linarith
    exact Nat.cast_pos.mp hhalf
  exact exists_attracts_of_nearest negative hsuits hn hpos (by omega)

/-! ## 4. Rounding keeps the order between a number and a double -/

/-- Fields with an exponent that is not smaller stand for a multiple of the unit. -/
theorem exists_magnitude_eq_mul (h : t ≤ b.exponent) :
    ∃ k : ℕ, b.magnitude = k * 2 ^ t := by
  obtain ⟨d, hd⟩ := Int.eq_ofNat_of_zero_le (a := b.exponent - t) (by omega)
  have hexponent : b.exponent = d + t := by omega
  refine ⟨b.significand * 2 ^ d, ?_⟩
  rw [magnitude, hexponent, ← Rounding.two_pow_mul_zpow]
  push_cast
  ring

/-- Fields with a smaller exponent stand for less than the least significand with its hidden
bit. -/
theorem Canonical.magnitude_lt (h : b.Canonical) (ht : b.exponent < t) :
    b.magnitude < 2 ^ 52 * 2 ^ t := by
  have hscale := two_zpow_mul_two_le ht
  have hpos : (0 : ℚ) < 2 ^ b.exponent := by positivity
  have hlt : (b.significand : ℚ) < 2 ^ 53 := by exact_mod_cast h.lt
  calc b.magnitude < 2 ^ 53 * 2 ^ b.exponent := mul_lt_mul_of_pos_right hlt hpos
    _ = 2 ^ 52 * (2 ^ b.exponent * 2) := by ring
    _ ≤ 2 ^ 52 * 2 ^ t := mul_le_mul_of_nonneg_left hscale (by positivity)

theorem Canonical.magnitude_le (h : b.Canonical) : b.magnitude ≤ 2 ^ (1024 : ℤ) := by
  have hlt : (b.significand : ℚ) < 2 ^ 53 := by exact_mod_cast h.lt
  calc b.magnitude ≤ 2 ^ 53 * 2 ^ (971 : ℤ) :=
        mul_le_mul hlt.le (zpow_le_zpow_right₀ one_le_two h.greatest) (by positivity)
          (by positivity)
    _ = 2 ^ (1024 : ℤ) := by rw [Rounding.two_pow_mul_zpow]; norm_num

/-- A number that is at least a double is not rounded to less than that double. -/
theorem Attracts.le_magnitude (h : b.Attracts q) (hb : b.Canonical) (hc : c.Canonical)
    (hle : c.magnitude ≤ q) : c.magnitude ≤ b.magnitude := by
  have hscale : (0 : ℚ) < 2 ^ b.exponent := by positivity
  have hhigh := h.high
  by_contra hlt
  rw [not_le] at hlt
  rcases le_or_gt b.exponent c.exponent with hexponent | hexponent
  · -- the other double is a multiple of the unit of `b`; half a unit does not reach it
    obtain ⟨k, hk⟩ := exists_magnitude_eq_mul hexponent
    rw [hk, magnitude] at hlt
    have hsucc : b.significand + 1 ≤ k :=
      Nat.cast_lt.mp (lt_of_mul_lt_mul_right hlt hscale.le)
    have hreach : (k : ℚ) ≤ b.significand + 1 / 2 :=
      le_of_mul_le_mul_right (by linarith) hscale
    have hsucc' : (b.significand : ℚ) + 1 ≤ k := by exact_mod_cast hsucc
    linarith
  · -- with a smaller exponent it is less than `b`, which has its hidden bit
    have hleast := hc.least
    have hhidden : 2 ^ 52 ≤ b.significand := hb.hidden.resolve_right (by omega)
    have hlarge : (2 : ℚ) ^ 52 * 2 ^ b.exponent ≤ b.magnitude :=
      mul_le_mul_of_nonneg_right (by exact_mod_cast hhidden) hscale.le
    linarith [hc.magnitude_lt hexponent]

/-- A number that is at most a double is not rounded to more than that double. -/
theorem Attracts.magnitude_le (h : b.Attracts q) (hb : b.Canonical) (hc : c.Canonical)
    (hle : q ≤ c.magnitude) : b.magnitude ≤ c.magnitude := by
  have hscale : (0 : ℚ) < 2 ^ b.exponent := by positivity
  have hstep := b.stepBelow_le
  have hlow := h.low.trans hle
  by_contra hlt
  rw [not_le] at hlt
  rcases le_or_gt b.exponent c.exponent with hexponent | hexponent
  · obtain ⟨k, hk⟩ := exists_magnitude_eq_mul hexponent
    rw [hk] at hlow
    rw [hk, magnitude] at hlt
    have hsucc : k + 1 ≤ b.significand :=
      Nat.cast_lt.mp (lt_of_mul_lt_mul_right hlt hscale.le)
    have hreach : (b.significand : ℚ) - b.stepBelow ≤ k := le_of_mul_le_mul_right hlow hscale
    have hsucc' : (k : ℚ) + 1 ≤ b.significand := by exact_mod_cast hsucc
    linarith
  · -- only the power of two itself is within half a step of a smaller exponent
    have hleast := hc.least
    have hhidden : 2 ^ 52 ≤ b.significand := hb.hidden.resolve_right (by omega)
    have hsmall := hc.magnitude_lt hexponent
    have hnear : (b.significand : ℚ) - b.stepBelow < 2 ^ 52 :=
      lt_of_mul_lt_mul_right (hlow.trans_lt hsmall) hscale.le
    have hpower : b.significand = 2 ^ 52 := by
      have hsucc : (b.significand : ℚ) < (2 ^ 52 + 1 : ℕ) := by push_cast; linarith
      exact le_antisymm (Nat.lt_succ_iff.mp (Nat.cast_lt.mp hsucc)) hhidden
    have hquarter : b.stepBelow = 1 / 4 := if_pos ⟨hpower, by omega⟩
    have hdouble : (2 : ℚ) ^ b.exponent = 2 ^ (b.exponent - 1) * 2 := by
      rw [← zpow_add_one₀ two_ne_zero, sub_add_cancel]
    have hhalf : (0 : ℚ) < 2 ^ (b.exponent - 1) := by positivity
    rw [hquarter, hpower, hdouble] at hlow
    rw [hdouble] at hsmall
    push_cast at hlow
    rcases le_or_gt (b.exponent - 1) c.exponent with hnext | hnext
    · obtain ⟨k, hk⟩ := exists_magnitude_eq_mul hnext
      rw [hk] at hlow hsmall
      have hbelow : (k : ℚ) < 2 ^ 53 := lt_of_mul_lt_mul_right (by linarith) hhalf.le
      have habove : (2 : ℚ) ^ 53 - 1 / 2 ≤ k := le_of_mul_le_mul_right (by linarith) hhalf
      have hbelow' : (k : ℚ) + 1 ≤ 2 ^ 53 := by exact_mod_cast hbelow
      linarith
    · linarith [hc.magnitude_lt hnext]

/-! ## 5. The quotient is not carried over -/

/-- Whole numbers up to `2 ^ 53` are doubles. -/
theorem exists_canonical_of_le (h : n ≤ 2 ^ 53) :
    ∃ c : Binary, c.Canonical ∧ c.magnitude = n := by
  rcases Nat.eq_zero_or_pos n with rfl | hpos
  · exact ⟨⟨false, 0, -1074⟩, ⟨by norm_num, le_rfl, by norm_num, .inr rfl⟩, by simp [magnitude]⟩
  rcases h.eq_or_lt with rfl | hlt
  · exact ⟨⟨false, 2 ^ 52, 1⟩, ⟨by norm_num, by norm_num, by norm_num, .inl le_rfl⟩,
      by norm_num [magnitude]⟩
  · exact ⟨ofNat n, canonical_ofNat hpos hlt, magnitude_ofNat hpos hlt⟩

/-- Half a step below a number that is at most a power of two. -/
theorem Canonical.stepBelow_mul_le (h : b.Canonical) (ht : -1022 ≤ t)
    (hle : b.magnitude ≤ 2 ^ (t + 1)) : b.stepBelow * 2 ^ b.exponent ≤ 2 ^ (t - 53) := by
  have hscale : (0 : ℚ) < 2 ^ b.exponent := by positivity
  have hhalf : (2 : ℚ) ^ (t - 52) = 2 ^ (t - 53) * 2 := by
    rw [← zpow_add_one₀ two_ne_zero]
    congr 1
    ring
  rcases le_or_gt b.exponent (t - 52) with hexponent | hexponent
  · -- in this binade or below, half a unit is short enough
    have hunit : (2 : ℚ) ^ b.exponent ≤ 2 ^ (t - 52) := zpow_le_zpow_right₀ one_le_two hexponent
    calc b.stepBelow * 2 ^ b.exponent ≤ 1 / 2 * 2 ^ (t - 52) :=
          mul_le_mul b.stepBelow_le hunit hscale.le (by norm_num)
      _ = 2 ^ (t - 53) := by rw [hhalf]; ring
  · -- above it only the power of two itself, where the step below is half as long
    have hhidden : 2 ^ 52 ≤ b.significand := h.hidden.resolve_right (by omega)
    have hlarge : (2 : ℚ) ^ 52 * 2 ^ b.exponent ≤ b.magnitude :=
      mul_le_mul_of_nonneg_right (by exact_mod_cast hhidden) hscale.le
    have hnext : b.exponent = t - 51 := by
      have hpower := hlarge.trans hle
      rw [Rounding.two_pow_mul_zpow, zpow_le_zpow_iff_right₀ one_lt_two] at hpower
      push_cast at hpower
      omega
    have hunit : (2 : ℚ) ^ (t + 1) = 2 ^ 52 * 2 ^ b.exponent := by
      rw [Rounding.two_pow_mul_zpow, hnext]
      congr 1
      push_cast
      ring
    have hpower : b.significand = 2 ^ 52 := by
      rw [hunit] at hle
      exact le_antisymm (by exact_mod_cast le_of_mul_le_mul_right hle hscale) hhidden
    have hquarter : b.stepBelow = 1 / 4 := if_pos ⟨hpower, by omega⟩
    have hdouble : (2 : ℚ) ^ b.exponent = 2 ^ (t - 52) * 2 := by
      rw [← zpow_add_one₀ two_ne_zero, hnext]
      congr 1
      ring
    rw [hquarter, hdouble, hhalf]
    linarith

/-- Half a step below the integer above the quotient is less than the distance that the
quotient has from this integer, if it is no integer itself. -/
theorem Attracts.stepBelow_mul_lt (h : b.Attracts ((m : ℚ) / n)) (hb : b.Canonical)
    (hn : 0 < n) (hm : m ≤ 2 ^ 53) (hrest : m / n * n < m)
    (hvalue : b.magnitude = ((m / n : ℕ) : ℚ) + 1) :
    b.stepBelow * 2 ^ b.exponent < 1 / n := by
  have hn' : (0 : ℚ) < n := Nat.cast_pos.mpr hn
  have hm' : (m : ℚ) ≤ 2 ^ 53 := by exact_mod_cast hm
  rcases Nat.eq_zero_or_pos (m / n) with hzero | hpos
  · -- the quotient is near one only for divisors close to the dividend
    rw [hzero, Nat.cast_zero, zero_add] at hvalue
    have hstep : b.stepBelow * 2 ^ b.exponent ≤ 2 ^ (-1 - 53 : ℤ) :=
      hb.stepBelow_mul_le (by norm_num) (by rw [hvalue]; norm_num)
    have hlow := h.low
    rw [sub_mul, ← magnitude, hvalue, le_div_iff₀ hn'] at hlow
    have hfar : (1 - 2 ^ (-1 - 53 : ℤ)) * (n : ℚ) ≤ 2 ^ 53 :=
      (mul_le_mul_of_nonneg_right (by linarith) hn'.le).trans (hlow.trans hm')
    have hsmall : (n : ℚ) < 2 ^ 54 := by
      norm_num at hfar
      linarith
    refine hstep.trans_lt ?_
    rw [lt_div_iff₀ hn']
    norm_num
    linarith
  · -- the double is at most the power of two above the quotient, so its step is short
    have hle : b.magnitude ≤ 2 ^ (((m / n).log2 : ℤ) + 1) := by
      rw [hvalue, ← Nat.cast_succ, ← Nat.cast_succ, zpow_natCast]
      exact_mod_cast Nat.lt_log2_self
    have hstep := hb.stepBelow_mul_le (by omega) hle
    have hlog : (2 : ℚ) ^ (m / n).log2 * n < 2 ^ 53 := by
      have hdividend : 2 ^ (m / n).log2 * n < 2 ^ 53 :=
        ((Nat.mul_le_mul_right n (Nat.log2_self_le hpos.ne')).trans_lt hrest).trans_le hm
      exact_mod_cast hdividend
    refine hstep.trans_lt ?_
    rw [lt_div_iff₀ hn', zpow_sub₀ two_ne_zero, zpow_natCast, div_mul_eq_mul_div,
      div_lt_one (by positivity)]
    exact hlog

/-- Rounding never carries a quotient over to the next integer. -/
theorem Attracts.magnitude_lt (h : b.Attracts ((m : ℚ) / n)) (hb : b.Canonical) (hn : 0 < n)
    (hm : m ≤ 2 ^ 53) : b.magnitude < ((m / n : ℕ) : ℚ) + 1 := by
  have hn' : (0 : ℚ) < n := Nat.cast_pos.mpr hn
  have hsplit := Nat.div_mul_le_self m n
  rcases hsplit.eq_or_lt with hexact | hrest
  · -- an exact quotient is a double itself
    have hquotient : (m : ℚ) / n = (m / n : ℕ) := by
      rw [div_eq_iff hn'.ne']
      exact_mod_cast hexact.symm
    obtain ⟨c, hc, hvalue⟩ := exists_canonical_of_le ((Nat.div_le_self m n).trans hm)
    have hle := h.magnitude_le hb hc (by rw [hquotient, hvalue])
    linarith
  · -- else the quotient is at least `1 / n` below the next integer
    have hnext : m / n + 1 ≤ 2 ^ 53 :=
      ((Nat.le_mul_of_pos_right (m / n) hn).trans_lt hrest).trans_le hm
    obtain ⟨c, hc, hvalue⟩ := exists_canonical_of_le hnext
    rw [Nat.cast_succ] at hvalue
    have hdistance : (m : ℚ) / n ≤ ((m / n : ℕ) : ℚ) + 1 - 1 / n := by
      have hsucc : m + 1 ≤ (m / n + 1) * n := Nat.lt_mul_of_div_lt (Nat.lt_succ_self _) hn
      have hsucc' : (m : ℚ) + 1 ≤ (((m / n : ℕ) : ℚ) + 1) * n := by exact_mod_cast hsucc
      rw [le_sub_iff_add_le, ← add_div, div_le_iff₀ hn']
      exact hsucc'
    have hunit : (0 : ℚ) < 1 / n := by positivity
    have hle := h.magnitude_le hb hc (by rw [hvalue]; linarith)
    rw [hvalue] at hle
    refine hle.lt_of_ne fun hcarry => ?_
    -- being rounded to it, the quotient would be within half a step of it
    have hstep := h.stepBelow_mul_lt hb hn hm hrest hcarry
    have hlow := h.low
    rw [sub_mul, ← magnitude, hcarry] at hlow
    linarith

/-- A quotient of whole numbers with a small dividend is rounded to a number with the same
whole part. -/
theorem Attracts.whole_eq (h : b.Attracts ((m : ℚ) / n)) (hb : b.Canonical) (hn : 0 < n)
    (hm : m ≤ 2 ^ 53) : b.whole = m / n := by
  have hlow : ((m / n : ℕ) : ℚ) ≤ b.magnitude := by
    obtain ⟨c, hc, hvalue⟩ := exists_canonical_of_le ((Nat.div_le_self m n).trans hm)
    rw [← hvalue]
    refine h.le_magnitude hb hc ?_
    rw [hvalue]
    exact Nat.cast_div_le
  have hfloor : ⌊b.magnitude⌋ = ((m / n : ℕ) : ℤ) :=
    Int.floor_eq_iff.mpr ⟨by exact_mod_cast hlow, by exact_mod_cast h.magnitude_lt hb hn hm⟩
  rw [floor_magnitude] at hfloor
  exact_mod_cast hfloor

end Binary

namespace Number

variable {x y : Float} {a b : Binary} {m n : ℕ}

/-! ## 6. Integer division -/

/-- The quotient of two whole numbers, rounded to a double. The operands are given by the sign
and the magnitude of their fields. -/
theorem exists_ofFloat?_div (hx : Binary.ofFloat? x = some a) (hy : Binary.ofFloat? y = some b)
    (ha : a.magnitude = m) (hb : b.magnitude = n) (hm : m ≤ 2 ^ 53) (hn : 0 < n) :
    ∃ d, Binary.ofFloat? (x / y) = some d ∧ d.negative = (a.negative != b.negative) ∧
      d.whole = m / n := by
  have hn' : (0 : ℚ) < n := Nat.cast_pos.mpr hn
  have hquotient : x / y = .ofModel (.pack (UnpackedFloat.div Format.binary64
      x.toModel.unpack y.toModel.unpack)) := rfl
  have hdivisor := Binary.unpack_of_ofFloat? hy (Binary.significand_pos (hb ▸ hn'))
  -- a zero dividend has no rounding to speak of; it is computed
  rcases Nat.eq_zero_or_pos m with rfl | hpos
  · have hzero : a.significand = 0 := Binary.significand_eq_zero (by rw [ha, Nat.cast_zero])
    rw [hquotient, Binary.unpack_of_significand_eq_zero hx hzero, hdivisor]
    refine ⟨⟨a.negative != b.negative, 0, -1074⟩, ?_, rfl, ?_⟩
    · show Binary.ofFloat? (.ofModel (.pack (.zero (a.sign / b.sign)))) = _
      unfold Binary.sign
      cases a.negative <;> cases b.negative <;> decide +kernel
    · rw [Nat.zero_div]
      exact Nat.zero_div _
  · -- no quotient of these is too small or too large to be rounded to a finite double
    have hlow : (2 : ℚ) ^ (-1074 : ℤ) ≤ m / n := by
      have hone : (1 : ℚ) ≤ m := by exact_mod_cast hpos
      have hlarge : (n : ℚ) ≤ 2 ^ (1024 : ℤ) := hb ▸ (Binary.canonical_of_ofFloat? hy).magnitude_le
      rw [le_div_iff₀ hn']
      calc (2 : ℚ) ^ (-1074 : ℤ) * n ≤ 2 ^ (-1074 : ℤ) * 2 ^ (1024 : ℤ) :=
            mul_le_mul_of_nonneg_left hlarge (by positivity)
        _ = 2 ^ (-50 : ℤ) := by rw [← zpow_add₀ two_ne_zero]; norm_num
        _ ≤ 1 := by norm_num
        _ ≤ m := hone
    have hhigh : (m : ℚ) / n < 2 ^ (1023 : ℤ) := by
      have hdivisor : (1 : ℚ) ≤ n := by exact_mod_cast hn
      have hdividend : (m : ℚ) ≤ 2 ^ (53 : ℤ) := by exact_mod_cast hm
      calc (m : ℚ) / n ≤ m := div_le_self (Nat.cast_nonneg m) hdivisor
        _ ≤ 2 ^ (53 : ℤ) := hdividend
        _ < 2 ^ (1023 : ℤ) := zpow_lt_zpow_right₀ one_lt_two (by norm_num)
    obtain ⟨d, hsign, hcanonical, hsignificand, hd⟩ :=
      Binary.exists_attracts (a.negative != b.negative) hlow hhigh
    have hsigns : a.sign / b.sign = d.sign := by
      rw [Binary.sign, Binary.sign, Binary.sign, hsign]
      cases a.negative <;> cases b.negative <;> rfl
    refine ⟨d, ?_, hsign, hd.whole_eq hcanonical hn hm⟩
    rw [← ha, ← hb] at hd
    rw [hquotient, hdivisor, Binary.unpack_of_ofFloat? hx (Binary.significand_pos
      (ha ▸ Nat.cast_pos.mpr hpos)), Rounding.div_of_attracts _ _ hcanonical hsignificand hd,
      hsigns]
    exact Binary.ofFloat?_pack hcanonical hsignificand

end Number

namespace Primitive

variable {x y : Float} {a b : Binary} {v w : Value}

theorem wholeQuotient_eq (x y : Float) :
    wholeQuotient x y = if Number.trunc y == 0.0 then .error .divisionByZero
      else .ok (Number.trunc (Number.trunc x / Number.trunc y)) := by
  unfold wholeQuotient nonzero
  split <;> rfl

/-- The divisor counts as zero if it has no integer part. -/
theorem trunc_beq_zero_iff (hy : Binary.ofFloat? y = some b) :
    (Number.trunc y == 0.0) = true ↔ integerPart b.value = 0 := by
  obtain ⟨c, hc, -, hmagnitude⟩ := Binary.exists_ofFloat?_trunc hy
  rw [Number.beq_zero_iff hc, Binary.integerPart_value]
  constructor
  · intro hzero
    rw [Binary.magnitude, hzero, Nat.cast_zero, zero_mul] at hmagnitude
    rw [Nat.cast_eq_zero.mp hmagnitude.symm]
    split <;> rfl
  · intro hzero
    apply Binary.significand_eq_zero
    rw [hmagnitude]
    split at hzero
    · exact_mod_cast neg_eq_zero.mp hzero
    · exact_mod_cast hzero

/-- The truncated quotient of two integers from their signs and magnitudes. -/
theorem value_eq_tdiv {c : Binary} (hsign : c.negative = (a.negative != b.negative))
    (hmagnitude : c.magnitude = (a.whole / b.whole : ℕ)) :
    c.value = ((integerPart a.value).tdiv (integerPart b.value) : ℤ) := by
  have hquotient : ((a.whole / b.whole : ℕ) : ℚ)
      = (((a.whole : ℤ).tdiv (b.whole : ℤ) : ℤ) : ℚ) := by
    rw [← Int.ofNat_tdiv, Int.cast_natCast]
  rw [Binary.value, hsign, hmagnitude, hquotient, Binary.integerPart_value,
    Binary.integerPart_value]
  cases a.negative <;> cases b.negative <;> simp [-Int.natCast_ediv, Int.neg_tdiv, Int.tdiv_neg]

/-- **Integer division.** For operands that are finite doubles, the integer part of the dividend
being at most `2 ^ 53`, integer division fails just if the divisor has the integer part zero.
Otherwise the result is exactly the truncated quotient of the integer parts, although the
quotient is rounded to a double before it is truncated. -/
theorem call_intDiv_exact (hv : v.toNumber = .ok x) (hw : w.toNumber = .ok y)
    (hx : Binary.ofFloat? x = some a) (hy : Binary.ofFloat? y = some b)
    (hbound : |integerPart a.value| ≤ 2 ^ 53) (m : Machine) :
    (Primitive.intDiv.call [v, w] m = (.error .divisionByZero, m) ↔ integerPart b.value = 0) ∧
    (integerPart b.value ≠ 0 → ∃ z c, Primitive.intDiv.call [v, w] m = (.ok (.number z), m) ∧
      Binary.ofFloat? z = some c ∧
      c.value = ((integerPart a.value).tdiv (integerPart b.value) : ℤ)) := by
  have hcall : Primitive.intDiv.call [v, w] m
      = ((wholeQuotient x y).map Value.number, m) := by
    show read m (arithmetic wholeQuotient v w) = _
    rw [arithmetic, hv, hw]
    rfl
  have hzero := trunc_beq_zero_iff hy
  rw [hcall, wholeQuotient_eq]
  by_cases hdivisor : integerPart b.value = 0
  · rw [if_pos (hzero.mpr hdivisor)]
    exact ⟨iff_of_true rfl hdivisor, absurd hdivisor⟩
  · rw [if_neg (mt hzero.mp hdivisor)]
    refine ⟨iff_of_false (fun h => by cases h) hdivisor, fun _ => ?_⟩
    -- both operands are truncated, their quotient is rounded, and it is truncated again
    obtain ⟨c, hc, hcsign, hcvalue⟩ := Binary.exists_ofFloat?_trunc hx
    obtain ⟨d, hd, hdsign, hdvalue⟩ := Binary.exists_ofFloat?_trunc hy
    have hdividend : a.whole ≤ 2 ^ 53 := by
      rw [Binary.integerPart_value] at hbound
      split at hbound
      · rw [abs_neg] at hbound
        exact_mod_cast hbound
      · exact_mod_cast hbound
    have hpos : 0 < b.whole := by
      rw [Nat.pos_iff_ne_zero]
      intro hnone
      rw [Binary.integerPart_value, hnone] at hdivisor
      exact hdivisor (by split <;> rfl)
    obtain ⟨f, hf, hfsign, hwhole⟩ :=
      Number.exists_ofFloat?_div hc hd hcvalue hdvalue hdividend hpos
    obtain ⟨g, hg, hgsign, hmagnitude⟩ := Binary.exists_ofFloat?_trunc hf
    refine ⟨_, g, rfl, hg, value_eq_tdiv ?_ ?_⟩
    · rw [hgsign, hfsign, hcsign, hdsign]
    · rw [hmagnitude, hwhole]

/-- The exact quotient misses `94906265` by less than the distance of two doubles there. -/
theorem call_intDiv_just_below :
    let m : Machine := ⟨Store.empty, .unlimited⟩
    ∃ z c, Primitive.intDiv.call [.number 9007199136250224, .number (-94906265.75)] m
        = (.ok (.number z), m) ∧
      Binary.ofFloat? z = some c ∧ c.value = -94906264 := by
  intro m
  have hx : Binary.ofFloat? 9007199136250224 = some ⟨false, 9007199136250224, 0⟩ := by
    decide +kernel
  have hy : Binary.ofFloat? (-94906265.75) = some ⟨true, 6369051680964608, -26⟩ := by
    decide +kernel
  have hdividend : integerPart (Binary.mk false 9007199136250224 0).value
      = 9007199136250224 := by
    rw [Binary.integerPart_value]
    decide
  have hdivisor : integerPart (Binary.mk true 6369051680964608 (-26)).value = -94906265 := by
    rw [Binary.integerPart_value]
    decide
  obtain ⟨z, c, hcall, hz, hvalue⟩ := (call_intDiv_exact (v := .number 9007199136250224)
    (w := .number (-94906265.75)) rfl rfl hx hy (by rw [hdividend]; norm_num) m).2
    (by rw [hdivisor]; decide)
  have hquotient : (9007199136250224 : ℤ).tdiv (-94906265) = -94906264 := by decide
  refine ⟨z, c, hcall, hz, ?_⟩
  rw [hvalue, hdividend, hdivisor, hquotient]
  norm_num

end Primitive

end CalcScript

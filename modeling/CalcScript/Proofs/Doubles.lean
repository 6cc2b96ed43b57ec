/-
`Proofs/Doubles.lean` -- finite doubles and their fields.

`Binary.ofFloat?` reads the fields of a double off its bits. Arithmetic takes the same bits
apart in another way (`Float.Model.unpack`). This module joins the two: fields that a double
can have (`Binary.Canonical`) are the fields of exactly one double, and of which one is said
with `Float.Model.pack`.

The doubles without fields are the two infinities and NaN.
-/
import CalcScript.Proofs.Lists
import Mathlib

set_option autoImplicit false

open Float.Model (Format UnpackedFloat)
open Float.Model.UnpackedFloat

namespace CalcScript.Binary

/-! ## 1. Fields as numbers -/

theorem toNat_unpackMantissa (b : BitVec 64) :
    (@unpackMantissa Format.binary64 b).toNat = b.toNat % 2 ^ 52 := by
  simp [unpackMantissa]

theorem toNat_unpackExponent (b : BitVec 64) :
    (@unpackExponent Format.binary64 b).toNat = b.toNat / 2 ^ 52 % 2 ^ 11 := by
  simp [unpackExponent, Nat.shiftRight_eq_div_pow]

theorem toNat_unpackSign (b : BitVec 64) :
    (@unpackSign Format.binary64 b).toNat = b.toNat / 2 ^ 63 := by
  have hlt : b.toNat < 2 ^ 64 := b.isLt
  simp [unpackSign, Nat.shiftRight_eq_div_pow]
  omega

theorem toNat_packComponents (s : Sign) (e : BitVec 11) (m : BitVec 52) :
    (packComponents Format.binary64 s e m).toNat
      = s.toBitVec.toNat * 2 ^ 63 + e.toNat * 2 ^ 52 + m.toNat := by
  have he : e.toNat < 2 ^ 11 := e.isLt
  have hm : m.toNat < 2 ^ 52 := m.isLt
  show (s.toBitVec ++ e ++ m).toNat = _
  rw [BitVec.toNat_append, BitVec.toNat_append, ← Nat.shiftLeft_add_eq_or_of_lt hm,
    ← Nat.shiftLeft_add_eq_or_of_lt he, Nat.shiftLeft_eq, Nat.shiftLeft_eq]
  omega

theorem sign_ofBitVec (b : BitVec 64) :
    Sign.ofBitVec (@unpackSign Format.binary64 b)
      = if 2 ^ 63 ≤ b.toNat then .negative else .positive := by
  have hlt : b.toNat < 2 ^ 64 := b.isLt
  have hsign := toNat_unpackSign b
  by_cases hneg : 2 ^ 63 ≤ b.toNat
  · rw [if_pos hneg, Sign.ofBitVec, if_neg]
    intro hzero
    rw [hzero] at hsign
    simp at hsign
    omega
  · rw [if_neg hneg, Sign.ofBitVec, if_pos]
    apply BitVec.eq_of_toNat_eq
    rw [hsign]
    simp
    omega

/-! ## 2. Canonical fields -/

/-- The sign as the fields have it. -/
def sign (b : Binary) : Sign := if b.negative then .negative else .positive

/-- The fields that a finite double can have. The hidden bit is there unless the exponent is
the least one. -/
structure Canonical (b : Binary) : Prop where
  lt : b.significand < 2 ^ 53
  least : -1074 ≤ b.exponent
  greatest : b.exponent ≤ 971
  hidden : 2 ^ 52 ≤ b.significand ∨ b.exponent = -1074

variable {x y : Float} {b : Binary}

theorem canonical_of_ofFloat? (h : ofFloat? x = some b) : b.Canonical := by
  have hlt : x.toBits.toNat < 2 ^ 64 := x.toBits.toNat_lt
  simp only [ofFloat?, Nat.pow_eq] at h
  split at h
  · cases h
  split at h
  · cases h
    exact ⟨by dsimp only; omega, le_refl (-1074), by dsimp only; omega, .inr rfl⟩
  · cases h
    exact ⟨by dsimp only; omega, by dsimp only; omega, by dsimp only; omega,
      .inl (by dsimp only; omega)⟩

/-! ## 3. The other view -/

/-- The fields of a number that arithmetic has taken apart. -/
def ofUnpacked? : UnpackedFloat → Option Binary
  | .infinity _ => none
  | .notANumber => none
  | .zero s => some ⟨s == .negative, 0, -1074⟩
  | .finite s m e _ => some ⟨s == .negative, m, e⟩

theorem ofFloat?_eq_ofUnpacked? (x : Float) : ofFloat? x = ofUnpacked? x.toModel.unpack := by
  have hbits : x.toBits.toNat = x.toModel.toBits.toBitVec.toNat := rfl
  have hfield := toNat_unpackExponent x.toModel.toBits.toBitVec
  have hfraction := toNat_unpackMantissa x.toModel.toBits.toBitVec
  have hsign := sign_ofBitVec x.toModel.toBits.toBitVec
  have hnegative : (Sign.ofBitVec (@unpackSign Format.binary64
      x.toModel.toBits.toBitVec) == Sign.negative) = decide (2 ^ 63 ≤ x.toBits.toNat) := by
    rw [hsign, hbits]
    by_cases hneg : 2 ^ 63 ≤ x.toModel.toBits.toBitVec.toNat
    · rw [if_pos hneg, decide_eq_true hneg]
      rfl
    · rw [if_neg hneg, decide_eq_false hneg]
      rfl
  -- both ways of taking the bits apart agree on what a field is
  have hones : @unpackExponent Format.binary64 x.toModel.toBits.toBitVec = -1#_
      ↔ x.toBits.toNat / 2 ^ 52 % 2 ^ 11 = 2047 := by
    rw [← BitVec.toNat_inj, hfield, hbits]
    rfl
  have hnone : @unpackExponent Format.binary64 x.toModel.toBits.toBitVec = 0#_
      ↔ x.toBits.toNat / 2 ^ 52 % 2 ^ 11 = 0 := by
    rw [← BitVec.toNat_inj, hfield, hbits]
    rfl
  rw [← hbits] at hfield hfraction
  simp only [ofFloat?, Nat.pow_eq, Float.Model.unpack, UnpackedFloat.unpack]
  -- all ones in the exponent: no finite number
  by_cases hfull : x.toBits.toNat / 2 ^ 52 % 2 ^ 11 = 2047
  · rw [if_pos hfull, if_pos (hones.mpr hfull)]
    split <;> rfl
  rw [if_neg hfull, if_neg (mt hones.mp hfull)]
  -- no exponent: zero, or a number without its hidden bit
  by_cases hempty : x.toBits.toNat / 2 ^ 52 % 2 ^ 11 = 0
  · rw [if_pos hempty, if_pos (hnone.mpr hempty)]
    split
    · next hzero =>
      rw [hzero] at hfraction
      rw [ofUnpacked?, hnegative, ← hfraction]
      rfl
    · rw [ofUnpacked?, hnegative, hfraction, hnone.mpr hempty]
      rfl
  · rw [if_neg hempty, if_neg (mt hnone.mp hempty), ofUnpacked?, hnegative, hfield,
      BitVec.toNat_append, ← Nat.shiftLeft_add_eq_or_of_lt (BitVec.isLt _), hfraction]
    rfl

/-- No two doubles are taken apart into the same number. -/
theorem eq_of_unpack (h : x.toModel.unpack = y.toModel.unpack) : x = y :=
  Float.toBits_inj.mp
    (UInt64.toBitVec_inj.mp ((unpack_inj_of_valid x.toModel.valid y.toModel.valid).mp h))

/-- A number that is not zero is taken apart into its fields. -/
theorem unpack_of_ofFloat? (h : ofFloat? x = some b) (hpos : 0 < b.significand) :
    x.toModel.unpack = .finite b.sign b.significand b.exponent hpos := by
  rw [ofFloat?_eq_ofUnpacked?] at h
  cases hunpack : x.toModel.unpack with
  | infinity s => rw [hunpack] at h; cases h
  | notANumber => rw [hunpack] at h; cases h
  | zero s =>
    rw [hunpack] at h
    cases h
    cases hpos
  | finite s m e hm =>
    rw [hunpack] at h
    cases h
    cases s <;> rfl

/-- Zero keeps its sign. -/
theorem unpack_of_significand_eq_zero (h : ofFloat? x = some b) (hzero : b.significand = 0) :
    x.toModel.unpack = .zero b.sign := by
  rw [ofFloat?_eq_ofUnpacked?] at h
  cases hunpack : x.toModel.unpack with
  | infinity s => rw [hunpack] at h; cases h
  | notANumber => rw [hunpack] at h; cases h
  | zero s =>
    rw [hunpack] at h
    cases h
    cases s <;> rfl
  | finite s m e hm =>
    rw [hunpack] at h
    cases h
    exact absurd hzero hm.ne'

/-- No two doubles share their fields. -/
theorem eq_of_ofFloat? (hx : ofFloat? x = some b) (hy : ofFloat? y = some b) : x = y := by
  apply eq_of_unpack
  rcases Nat.eq_zero_or_pos b.significand with hzero | hpos
  · rw [unpack_of_significand_eq_zero hx hzero, unpack_of_significand_eq_zero hy hzero]
  · rw [unpack_of_ofFloat? hx hpos, unpack_of_ofFloat? hy hpos]

/-- The fields of a zero are its sign and nothing else. -/
theorem exponent_of_significand_eq_zero (h : ofFloat? x = some b) (hzero : b.significand = 0) :
    b.exponent = -1074 :=
  (canonical_of_ofFloat? h).hidden.resolve_left (by omega)

/-! ## 4. Packing -/

/-- The bits of packed canonical fields. -/
theorem toNat_pack (hcanonical : b.Canonical) (hpos : 0 < b.significand) :
    (UnpackedFloat.pack Format.binary64 (.finite b.sign b.significand b.exponent hpos)).toNat
      = b.sign.toBitVec.toNat * 2 ^ 63
        + (if 2 ^ 52 ≤ b.significand then (b.exponent + 1075).toNat else 0) * 2 ^ 52
        + b.significand % 2 ^ 52 := by
  obtain ⟨hlt, hleast, hgreatest, hhidden⟩ := hcanonical
  have hbias : b.exponent + (Format.binary64.exponentBias : ℕ)
      + (Format.binary64.mantissaBitsWithoutImplicit : ℕ) = b.exponent + 1075 :=
    Int.add_assoc b.exponent 1023 52
  have hroom : ¬ 2 ^ Format.binary64.exponentBits ≤ (b.exponent + 1075).toNat + 1 := by
    show ¬ 2 ^ 11 ≤ (b.exponent + 1075).toNat + 1
    omega
  rw [UnpackedFloat.pack, hbias, if_neg hroom]
  by_cases hnormal : 2 ^ 52 ≤ b.significand
  · have hlog : b.significand.log2 + 1 = Format.binary64.mantissaBits :=
      congrArg (· + 1) ((Nat.log2_eq_iff hpos.ne').mpr ⟨hnormal, hlt⟩)
    rw [if_pos hlog, if_pos hnormal, toNat_packComponents, BitVec.toNat_ofNat,
      BitVec.toNat_ofNat, Nat.mod_eq_of_lt (by omega : _ < 2 ^ 11)]
  · have hlog : ¬ b.significand.log2 + 1 = Format.binary64.mantissaBits := fun hlog =>
      hnormal ((Nat.log2_eq_iff hpos.ne').mp (Nat.succ.inj hlog)).1
    rw [if_neg hlog, if_neg hnormal, toNat_packComponents, BitVec.toNat_ofNat]
    rfl

theorem toNat_toBitVec_sign (b : Binary) :
    b.sign.toBitVec.toNat = if b.negative then 1 else 0 := by
  unfold sign
  cases b.negative <;> rfl

/-- Packing canonical fields gives the double that has them. -/
theorem ofFloat?_pack (hcanonical : b.Canonical) (hpos : 0 < b.significand) :
    ofFloat? (.ofModel (.pack (.finite b.sign b.significand b.exponent hpos))) = some b := by
  have hbits : (Float.ofModel
      (.pack (.finite b.sign b.significand b.exponent hpos))).toBits.toNat = _ :=
    toNat_pack hcanonical hpos
  rw [toNat_toBitVec_sign] at hbits
  obtain ⟨hlt, hleast, hgreatest, hhidden⟩ := hcanonical
  generalize (Float.ofModel
    (.pack (.finite b.sign b.significand b.exponent hpos))) = packed at hbits
  obtain ⟨negative, significand, exponent⟩ := b
  dsimp only at *
  -- the fields are read back from the packed word by arithmetic
  have hsign : decide (2 ^ 63 ≤ packed.toBits.toNat) = negative := by
    cases negative with
    | false =>
      rw [if_neg Bool.false_ne_true] at hbits
      exact decide_eq_false (by split at hbits <;> omega)
    | true =>
      rw [if_pos rfl] at hbits
      exact decide_eq_true (by omega)
  simp only [ofFloat?, Nat.pow_eq, hsign]
  -- with its hidden bit the significand leaves that bit out, and the exponent tells
  by_cases hnormal : 2 ^ 52 ≤ significand
  · rw [if_pos hnormal] at hbits
    have hfield : packed.toBits.toNat / 2 ^ 52 % 2 ^ 11 = (exponent + 1075).toNat := by
      split at hbits <;> omega
    have hfraction : packed.toBits.toNat % 2 ^ 52 = significand % 2 ^ 52 := by omega
    rw [hfield, hfraction, if_neg (by omega), if_neg (by omega)]
    congr 2 <;> omega
  · rw [if_neg hnormal] at hbits
    have hfield : packed.toBits.toNat / 2 ^ 52 % 2 ^ 11 = 0 := by
      split at hbits <;> omega
    have hfraction : packed.toBits.toNat % 2 ^ 52 = significand := by omega
    rw [hfield, hfraction, if_neg (by decide), if_pos rfl, hhidden.resolve_left hnormal]

/-! ## 5. Signs -/

/-- The fields of the number with the other sign. -/
def neg (b : Binary) : Binary := { b with negative := !b.negative }

theorem sign_neg (b : Binary) : b.neg.sign = -b.sign := by
  unfold sign neg
  cases b.negative <;> rfl

theorem Canonical.neg (h : b.Canonical) : b.neg.Canonical :=
  ⟨h.lt, h.least, h.greatest, h.hidden⟩

/-- A finite double keeps its fields under negation, up to the sign. -/
theorem ofFloat?_neg (h : ofFloat? x = some b) : ofFloat? (-x) = some b.neg := by
  have hcanonical := canonical_of_ofFloat? h
  have hneg : -x = .ofModel (.pack x.toModel.unpack.neg) := rfl
  rcases Nat.eq_zero_or_pos b.significand with hzero | hpos
  · have hexponent := exponent_of_significand_eq_zero h hzero
    rw [hneg, unpack_of_significand_eq_zero h hzero]
    obtain ⟨negative, significand, exponent⟩ := b
    cases hzero
    cases hexponent
    cases negative <;> decide +kernel
  · rw [hneg, unpack_of_ofFloat? h hpos, UnpackedFloat.neg]
    have hpack := ofFloat?_pack hcanonical.neg hpos
    rwa [sign_neg] at hpack

/-! ## 6. Doubles without fields -/

/-- A double without fields is NaN or one of the infinities. -/
theorem eq_of_ofFloat?_eq_none (h : ofFloat? x = none) :
    x = Number.nan ∨ x = Number.infinity ∨ x = -Number.infinity := by
  rw [ofFloat?_eq_ofUnpacked?] at h
  cases hunpack : x.toModel.unpack with
  | notANumber =>
    have hnan : Number.nan.toModel.unpack = .notANumber := rfl
    exact .inl (eq_of_unpack (hunpack.trans hnan.symm))
  | infinity s =>
    have hpositive : Number.infinity.toModel.unpack = .infinity .positive := rfl
    have hnegative : (-Number.infinity).toModel.unpack = .infinity .negative := rfl
    cases s with
    | positive => exact .inr (.inl (eq_of_unpack (hunpack.trans hpositive.symm)))
    | negative => exact .inr (.inr (eq_of_unpack (hunpack.trans hnegative.symm)))
  | zero s => rw [hunpack] at h; cases h
  | finite s m e hm => rw [hunpack] at h; cases h

theorem exists_ofFloat?_of_isFinite (h : x.isFinite = true) : ∃ b, ofFloat? x = some b := by
  have hunpack : x.toModel.unpack.isFinite = true := h
  rw [ofFloat?_eq_ofUnpacked?]
  cases hx : x.toModel.unpack with
  | infinity s => rw [hx] at hunpack; cases hunpack
  | notANumber => rw [hx] at hunpack; cases hunpack
  | zero s => exact ⟨_, rfl⟩
  | finite s m e hm => exact ⟨_, rfl⟩

/-! ## 7. Numbers without a sign -/

/-- The number has no minus sign and is not NaN. -/
def Unsigned : UnpackedFloat → Prop
  | .infinity s | .zero s | .finite s _ _ _ => s = .positive
  | .notANumber => False

/-- The bits of packed numbers without a sign come no later than those of infinity. -/
theorem toNat_pack_le {u : UnpackedFloat} (h : Unsigned u) :
    (UnpackedFloat.pack Format.binary64 u).toNat ≤ 2047 * 2 ^ 52 := by
  cases u with
  | notANumber => cases h
  | infinity s =>
    cases h
    decide +kernel
  | zero s =>
    cases h
    decide +kernel
  | finite s m e hm =>
    cases h
    rw [UnpackedFloat.pack]
    split
    · decide +kernel
    · next hroom =>
      have hsign : Sign.positive.toBitVec.toNat = 0 := rfl
      have hfraction : (BitVec.ofNat 52 m).toNat < 2 ^ 52 := (BitVec.ofNat 52 m).isLt
      generalize (e + (Format.binary64.exponentBias : ℕ)
        + (Format.binary64.mantissaBitsWithoutImplicit : ℕ)).toNat = field at hroom
      have hfield : field + 1 < 2 ^ 11 := not_le.mp hroom
      split
      · rw [toNat_packComponents, BitVec.toNat_ofNat, Nat.mod_eq_of_lt (by omega : _ < 2 ^ 11),
          hsign]
        omega
      · rw [toNat_packComponents, hsign]
        show 0 * 2 ^ 63 + 0 * 2 ^ 52 + (BitVec.ofNat 52 m).toNat ≤ 2047 * 2 ^ 52
        omega

/-- A packed number without a sign has no sign among its fields, or it is infinite. -/
theorem fields_of_unsigned {u : UnpackedFloat} (h : Unsigned u) (hx : x = .ofModel (.pack u)) :
    x = Number.infinity ∨ ∃ b, ofFloat? x = some b ∧ b.negative = false := by
  have hbits : x.toBits.toNat ≤ 2047 * 2 ^ 52 := by
    rw [hx]
    exact toNat_pack_le h
  cases hfields : ofFloat? x with
  | some b =>
    refine .inr ⟨b, rfl, ?_⟩
    simp only [ofFloat?, Nat.pow_eq] at hfields
    split at hfields
    · cases hfields
    split at hfields <;> cases hfields <;> exact decide_eq_false (by omega)
  | none =>
    rcases eq_of_ofFloat?_eq_none hfields with hnan | hinfinity | hnegative
    · have hnanBits : Number.nan.toBits.toNat = 2047 * 2 ^ 52 + 2 ^ 51 := by decide +kernel
      rw [hnan] at hbits
      omega
    · exact .inl hinfinity
    · have hnegativeBits : (-Number.infinity).toBits.toNat = 2 ^ 63 + 2047 * 2 ^ 52 := by
        decide +kernel
      rw [hnegative] at hbits
      omega

end CalcScript.Binary

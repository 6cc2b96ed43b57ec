/-
`Proofs/NumberTexts.lean` -- numbers and their texts.

The text of a finite number is a plain numeral, `digits(.digits)?`, with a minus sign in front
if the number is less than zero (`Number.Spelled`). It is a number again in two places that do
not share their code: where a string stands for a number, and where the text is a program. Both
find the same double, which is the one that was written, but for the sign of zero.
-/
import CalcScript.Number.Text
import CalcScript.Proofs.ShortestDigits
import CalcScript.Proofs.StringLiterals
import CalcScript.Proofs.WrittenNumbers

set_option autoImplicit false

namespace CalcScript

open Lexical

/-! ## 1. Plain numerals -/

/-- Digits, and with a point digits behind it. -/
structure Numeral.Plain (n : Numeral) : Prop where
  whole : ∀ c ∈ n.whole, c.isDigit
  nonempty : n.whole ≠ []
  fraction : ∀ digits ∈ n.fraction, digits ≠ [] ∧ ∀ c ∈ digits, c.isDigit
  exponent : n.exponent = none

namespace Numeral.Plain

variable {n : Numeral}

theorem wellFormed (h : n.Plain) : n.WellFormed := by
  refine ⟨h.whole, fun digits hdigits => (h.fraction digits hdigits).2, ?_, ?_⟩
  · rw [h.exponent]
    exact nofun
  · exact fun hnil => h.nonempty (List.append_eq_nil_iff.mp hnil).1

/-- A plain numeral is one number token. -/
theorem spells (h : n.Plain) : Spells (.number n.value) n.text := by
  obtain ⟨whole, fraction, exponent⟩ := n
  obtain ⟨hwhole, hne, hfraction, rfl⟩ := h
  cases fraction with
  | none =>
    have hspells := @Spells.number [] whole false none nofun hwhole hne nofun
    simpa [Numeral.text, Numeral.value, Numeral.decimal, Lexical.decimal] using hspells
  | some digits =>
    obtain ⟨hdigitsNe, hdigits⟩ := hfraction digits rfl
    have hspells := @Spells.number whole digits true none hwhole hdigits hdigitsNe nofun
    simpa [Numeral.text, Numeral.value, Numeral.decimal, Lexical.decimal] using hspells

/-- It begins with a digit. -/
theorem exists_cons (h : n.Plain) : ∃ c cs, n.text = c :: cs ∧ c.isDigit := by
  obtain ⟨c, cs, hwhole⟩ := List.exists_cons_of_ne_nil h.nonempty
  have hdigit : c.isDigit := h.whole c (by rw [hwhole]; exact List.mem_cons_self)
  refine ⟨c, cs ++ n.fraction.elim [] ('.' :: ·) ++ n.exponent.elim [] Exponent.text, ?_, hdigit⟩
  rw [Numeral.text, hwhole]
  rfl

end Numeral.Plain

/-! ## 2. Decimals written out -/

namespace Decimal

/-- The numeral that a decimal is written as: zeros fill the gap between its digits and the
point. -/
def numeral (d : Decimal) : Numeral :=
  let digits := Nat.toDigits 10 d.coefficient
  let point := (digits.length : ℤ) + d.exponent
  if 0 ≤ d.exponent then ⟨digits ++ List.replicate d.exponent.toNat '0', none, none⟩
  else if 0 < point then ⟨digits.take point.toNat, some (digits.drop point.toNat), none⟩
  else ⟨['0'], some (List.replicate (-point).toNat '0' ++ digits), none⟩

theorem fixed_eq (d : Decimal) : Layout.fixed false d = String.ofList d.numeral.text := by
  unfold Layout.fixed numeral
  dsimp only
  split
  · simp [Numeral.text]
  split
  · simp [Numeral.text]
  · simp [Numeral.text]

theorem isDigit_of_mem_toDigits {n : ℕ} : ∀ c ∈ Nat.toDigits 10 n, c.isDigit :=
  fun _ hc => Nat.isDigit_of_mem_toDigits (by decide) (by decide) hc

theorem isDigit_of_mem_zeros {k : ℕ} : ∀ c ∈ List.replicate k '0', c.isDigit := by
  intro c hc
  rw [List.eq_of_mem_replicate hc]
  rfl

theorem plain_numeral (d : Decimal) : d.numeral.Plain := by
  have hdigits := isDigit_of_mem_toDigits (n := d.coefficient)
  have hlength := Nat.length_toDigits_pos (b := 10) (n := d.coefficient)
  unfold numeral
  dsimp only
  split
  · refine ⟨List.forall_mem_append.mpr ⟨hdigits, isDigit_of_mem_zeros⟩, ?_, nofun, rfl⟩
    exact fun hnil => Nat.toDigits_ne_nil (List.append_eq_nil_iff.mp hnil).1
  split
  · next hneg hpoint =>
    refine ⟨fun c hc => hdigits c (List.mem_of_mem_take hc), ?_, ?_, rfl⟩
    · rw [ne_eq, List.take_eq_nil_iff, not_or]
      exact ⟨by omega, Nat.toDigits_ne_nil⟩
    · rintro digits ⟨⟩
      refine ⟨?_, fun c hc => hdigits c (List.mem_of_mem_drop hc)⟩
      rw [ne_eq, List.drop_eq_nil_iff]
      omega
  · refine ⟨List.forall_mem_singleton.mpr rfl, List.cons_ne_nil _ _, ?_, rfl⟩
    rintro digits ⟨⟩
    refine ⟨?_, List.forall_mem_append.mpr ⟨isDigit_of_mem_zeros, hdigits⟩⟩
    exact fun hnil => Nat.toDigits_ne_nil (List.append_eq_nil_iff.mp hnil).2

theorem digitsValue_toDigits (n : ℕ) : digitsValue (Nat.toDigits 10 n) = n :=
  Nat.ofDigitChars_ten_toDigits

theorem digitsValue_append_zeros (digits : List Char) (k : ℕ) :
    digitsValue (digits ++ List.replicate k '0') = 10 ^ k * digitsValue digits := by
  have happend := Nat.ofDigitChars_append (b := 10) (l := digits) (m := List.replicate k '0') 0
  rw [Nat.ofDigitChars_replicate_zero] at happend
  exact happend

theorem digitsValue_zeros_append (digits : List Char) (k : ℕ) :
    digitsValue (List.replicate k '0' ++ digits) = digitsValue digits := by
  have happend := Nat.ofDigitChars_append (b := 10) (l := List.replicate k '0') (m := digits) 0
  rw [Nat.ofDigitChars_replicate_zero, Nat.mul_zero] at happend
  exact happend

/-- Writing a decimal out keeps its value. -/
theorem value_numeral (d : Decimal) : d.numeral.decimal.value = d.value := by
  have hdigits := digitsValue_toDigits d.coefficient
  unfold numeral
  generalize Nat.toDigits 10 d.coefficient = digits at *
  dsimp only
  split
  · -- zeros stand behind the digits
    next hnonneg =>
    have hpower : (10 : ℚ) ^ d.exponent = 10 ^ d.exponent.toNat := by
      rw [← zpow_natCast, Int.toNat_of_nonneg hnonneg]
    simp only [Numeral.decimal, Option.getD_none, List.append_nil, digitsValue_append_zeros,
      hdigits, Option.elim_none, List.length_nil, value, hpower]
    push_cast
    ring
  split
  · -- the point stands among the digits
    next hneg hpoint =>
    have hexponent : (0 : ℤ) - (digits.drop ((digits.length : ℤ) + d.exponent).toNat).length
        = d.exponent := by
      rw [List.length_drop]
      omega
    simp only [Numeral.decimal, Option.getD_some, List.take_append_drop, hdigits,
      Option.elim_none, hexponent]
  · -- zeros stand between the point and the digits
    next hneg hpoint =>
    have hexponent : (0 : ℤ) - (List.replicate (-((digits.length : ℤ) + d.exponent)).toNat '0'
        ++ digits).length = d.exponent := by
      rw [List.length_append, List.length_replicate]
      omega
    have hvalue : digitsValue (['0'] ++ (List.replicate
        (-((digits.length : ℤ) + d.exponent)).toNat '0' ++ digits)) = d.coefficient := by
      rw [← hdigits, ← digitsValue_zeros_append digits
        (-((digits.length : ℤ) + d.exponent)).toNat]
      exact digitsValue_zeros_append _ 1
    simp only [Numeral.decimal, Option.getD_some, hvalue, Option.elim_none, hexponent]

end Decimal

/-! ## 3. The text of a finite number -/

namespace Number

/-- The text is a plain numeral, behind a minus sign or not, and read as one it is `x`. -/
inductive Spelled : Float → String → Prop
  | plain {n : Numeral} (h : n.Plain) : Spelled n.value (String.ofList n.text)
  | minus {n : Numeral} (h : n.Plain) : Spelled (-n.value) (String.ofList ('-' :: n.text))

/-- The number with no sign on zero. -/
def unsignZero (x : Float) : Float := if x == 0.0 then 0.0 else x

variable {x y : Float} {b : Binary} {s : String}

theorem ofFloat?_zero : Binary.ofFloat? 0.0 = some ⟨false, 0, -1074⟩ := by decide +kernel

theorem beq_eq (x y : Float) :
    (x == y) = (x.toModel.unpack.compare y.toModel.unpack == some .eq) := rfl

/-- Only zeros are equal to zero. -/
theorem beq_zero_iff (h : Binary.ofFloat? x = some b) :
    (x == 0.0) = true ↔ b.significand = 0 := by
  have hpositive := Binary.unpack_of_significand_eq_zero ofFloat?_zero rfl
  constructor
  · intro hequal
    by_contra hne
    have hpos := Nat.pos_of_ne_zero hne
    rw [beq_eq, Binary.unpack_of_ofFloat? h hpos, hpositive] at hequal
    unfold Binary.sign at hequal
    revert hequal
    cases b.negative <;> exact Bool.false_ne_true
  · intro hzero
    rw [beq_eq, Binary.unpack_of_significand_eq_zero h hzero, hpositive]
    rfl

theorem unsignZero_of_unsigned (h : Binary.ofFloat? x = some b) (hsign : b.negative = false) :
    unsignZero x = x := by
  unfold unsignZero
  split
  · next hequal =>
    have hzero := (beq_zero_iff h).mp hequal
    have hexponent := Binary.exponent_of_significand_eq_zero h hzero
    obtain ⟨negative, significand, exponent⟩ := b
    cases hsign
    cases hzero
    cases hexponent
    exact Binary.eq_of_ofFloat? ofFloat?_zero h
  · rfl

/-- A numeral that the fields of `x` attract is a spelling of `x`, if the sign is right. -/
theorem spelled_of_attracts {n : Numeral} (h : Binary.ofFloat? x = some b)
    (hpos : 0 < b.significand) (hplain : n.Plain) (hattracts : b.Attracts n.decimal.value) :
    Spelled x (String.ofList ((if b.negative then ['-'] else []) ++ n.text)) := by
  obtain ⟨negative, significand, exponent⟩ := b
  have hcanonical := Binary.canonical_of_ofFloat? h
  have hvalue : Binary.ofFloat? n.value = some ⟨false, significand, exponent⟩ :=
    Decimal.ofFloat?_toFloat rfl ⟨hcanonical.lt, hcanonical.least, hcanonical.greatest,
      hcanonical.hidden⟩ hpos ⟨hattracts.low, hattracts.high, hattracts.tie⟩
  cases negative with
  | false =>
    rw [Binary.eq_of_ofFloat? h hvalue]
    exact .plain hplain
  | true =>
    rw [Binary.eq_of_ofFloat? h (Binary.ofFloat?_neg hvalue)]
    exact .minus hplain

/-- The text of an integer. -/
theorem toString_neg_if (negative : Bool) {k : ℕ} (hk : 0 < k) :
    toString (if negative then -(k : ℤ) else k)
      = String.ofList ((if negative then ['-'] else []) ++ Nat.toDigits 10 k) := by
  obtain ⟨m, rfl⟩ := Nat.exists_eq_succ_of_ne_zero hk.ne'
  cases negative with
  | false => exact Nat.toString_eq_ofList_toDigits
  | true =>
    have hminus : toString (-((m.succ : ℕ) : ℤ)) = "-" ++ toString m.succ := rfl
    rw [if_pos rfl, if_pos rfl, hminus, Nat.toString_eq_ofList_toDigits, String.ofList_append]

/-- The text of a double that is equal to an integer. -/
theorem text_of_integer {i : ℤ} (h : integer? x = some i) : text x = toString i := by
  rw [text, h]

/-- The text of a finite double with something behind the point. -/
theorem text_of_fraction (hinteger : integer? x = none) (h : Binary.ofFloat? x = some b)
    (hpos : 0 < b.significand) :
    text x = String.ofList ((if b.negative then ['-'] else [])
      ++ (Decimal.shortest layout.tie b.significand b.exponent).numeral.text) := by
  have hfixed : layout.writesFixed
      (Decimal.shortest layout.tie b.significand b.exponent) = true := rfl
  have hpoint : layout.keepsPoint = false := rfl
  rw [text, hinteger]
  dsimp only
  rw [Layout.write, h]
  dsimp only
  rw [if_neg hpos.ne', if_pos hfixed, hpoint, Decimal.fixed_eq]
  cases b.negative with
  | false => rfl
  | true => rw [if_pos rfl, if_pos rfl, String.ofList_append]

theorem spelled_text (h : Binary.ofFloat? x = some b) (hpos : 0 < b.significand) :
    Spelled x (text x) := by
  have hcanonical := Binary.canonical_of_ofFloat? h
  cases hinteger : integer? x with
  | none =>
    -- a fraction is written with the fewest digits that are rounded back to it
    rw [text_of_fraction hinteger h hpos]
    refine spelled_of_attracts h hpos (Decimal.plain_numeral _) ?_
    rw [Decimal.value_numeral]
    exact Decimal.attracts_shortest layout.tie hcanonical hpos
  | some i =>
    obtain ⟨c, hc, hvalue⟩ := integer?_eq_some_iff.mp hinteger
    obtain rfl : b = c := Option.some.inj (h.symm.trans hc)
    obtain ⟨hwhole, rfl⟩ := Binary.value_eq_intCast_iff.mp hvalue
    have hmagnitude := Binary.magnitude_of_isWhole hwhole
    have hmagnitudePos : 0 < b.magnitude := by
      rw [Binary.magnitude]
      positivity
    have hwholePos : 0 < b.whole := by
      rw [hmagnitude] at hmagnitudePos
      exact_mod_cast hmagnitudePos
    -- an integer is written with all its digits, so it is read back exactly
    have hplain := Decimal.plain_numeral ⟨b.whole, 0⟩
    have htext : (Decimal.mk b.whole 0).numeral.text = Nat.toDigits 10 b.whole := by
      simp [Decimal.numeral, Numeral.text]
    rw [text_of_integer hinteger, toString_neg_if _ hwholePos, ← htext]
    refine spelled_of_attracts h hpos hplain ?_
    rw [Decimal.value_numeral, Decimal.value, zpow_zero, mul_one, ← hmagnitude]
    exact Binary.attracts_magnitude b

theorem spelled_text_zero (h : Binary.ofFloat? x = some b) (hzero : b.significand = 0) :
    Spelled 0.0 (text x) := by
  have hinteger : integer? x = some 0 := by
    refine integer?_eq_some_iff.mpr ⟨b, h, ?_⟩
    rw [Binary.value, Binary.magnitude, hzero]
    simp
  have hvalue : (Decimal.mk 0 0).numeral.value = 0.0 := by decide +kernel
  have hspelled := Spelled.plain (Decimal.plain_numeral ⟨0, 0⟩)
  rw [hvalue] at hspelled
  rw [text_of_integer hinteger]
  exact hspelled

/-- **The text of a finite number spells it.** -/
theorem spelled_unsignZero (h : Binary.ofFloat? x = some b) :
    Spelled (unsignZero x) (text x) := by
  have hiff := beq_zero_iff h
  rcases Nat.eq_zero_or_pos b.significand with hzero | hpos
  · rw [unsignZero, if_pos (hiff.mpr hzero)]
    exact spelled_text_zero h hzero
  · rw [unsignZero, if_neg (mt hiff.mp hpos.ne')]
    exact spelled_text h hpos

/-- A finite number that a decimal is read as has no sign, so it is written without one. -/
theorem text_of_decimal {d : Decimal} (hx : x = d.toFloat) (hfinite : x.isInf = false) :
    ∃ n : Numeral, n.Plain ∧ text x = String.ofList n.text ∧ n.value = x := by
  have hnotInfinity : x ≠ infinity := by
    rintro rfl
    revert hfinite
    decide +kernel
  obtain ⟨b, hb, hsign⟩ := (d.fields_of_toFloat).resolve_left (hx ▸ hnotInfinity)
  rw [← hx] at hb
  have hspelled := spelled_unsignZero hb
  rw [unsignZero_of_unsigned hb hsign] at hspelled
  generalize htext : text x = s at hspelled
  cases hspelled with
  | plain hplain => exact ⟨_, hplain, rfl, rfl⟩
  | @minus n hplain =>
    -- a decimal read back has no sign, so behind the minus sign it has one
    exfalso
    rcases n.decimal.fields_of_toFloat with hvalue | ⟨c, hc, hcsign⟩
    · have hneg : Binary.ofFloat? (-infinity) = none := by decide +kernel
      rw [Numeral.value, hvalue, hneg] at hb
      cases hb
    · have hneg := Binary.ofFloat?_neg hc
      rw [Numeral.value, hneg] at hb
      cases hb
      rw [Binary.neg, hcsign] at hsign
      cases hsign

/-! ## 4. Texts as values -/

theorem Spelled.toNumber (h : Spelled y s) : (Value.str s).toNumber = .ok y := by
  apply toNumber_of_writes
  cases h with
  | plain hplain =>
    rw [String.toList_ofList]
    exact .bare (.decimal hplain.wellFormed)
  | minus hplain =>
    rw [String.toList_ofList]
    exact .minus (.decimal hplain.wellFormed)

/-- Numerically equal, NaN to NaN. -/
def Same (x y : Float) : Prop := (x == y) = true ∨ x.isNaN = true ∧ y.isNaN = true

/-- Without the sign of zero a number is still the same. -/
theorem same_unsignZero (x : Float) : Same (unsignZero x) x := by
  unfold unsignZero
  split
  · next hzero => exact .inl (BEq.symm hzero)
  · by_cases hnan : x = Float.nan
    · have hisNaN : x.isNaN = true := Float.isNaN_eq_decide_eq_nan.trans (decide_eq_true hnan)
      exact .inr ⟨hisNaN, hisNaN⟩
    · exact .inl (Float.beq_self_iff.mpr hnan)

/-- Every text of a number stands for that number. -/
theorem toNumber_text (x : Float) : (Value.str (text x)).toNumber = .ok (unsignZero x) := by
  cases hb : Binary.ofFloat? x with
  | some b => exact (spelled_unsignZero hb).toNumber
  | none =>
    apply toNumber_of_writes
    rcases Binary.eq_of_ofFloat?_eq_none hb with rfl | rfl | rfl
    · have htext : (text nan).toList = "NaN".toList := by decide +kernel
      have hsame : unsignZero nan = nan := by decide +kernel
      rw [htext, hsame]
      exact .bare .nan
    · have htext : (text infinity).toList = "Infinity".toList := by decide +kernel
      have hsame : unsignZero infinity = infinity := by decide +kernel
      rw [htext, hsame]
      exact .bare .infinity
    · have htext : (text (-infinity)).toList = '-' :: "Infinity".toList := by decide +kernel
      have hsame : unsignZero (-infinity) = -infinity := by decide +kernel
      rw [htext, hsame]
      exact .minus .infinity

/-! ## 5. Texts as programs -/

/-- The program is a number token, or a minus sign and a number token, and its tree is the
number, or the number with the sign applied. -/
inductive Program (source : String) : Float → Prop
  | bare {x : Float} (hscan : (scan source).tokens = [⟨.number x, source, .start⟩])
      (hparse : Expr.parse source = .ok (.literal (.number x))) : Program source x
  | minus {x : Float} {digits : String} {pos : Position} (hsource : source = "-" ++ digits)
      (hscan : (scan source).tokens =
        [⟨.symbol .minus, "-", .start⟩, ⟨.number x, digits, pos⟩])
      (hparse : Expr.parse source
        = .ok (.apply (.primitive .neg) [.literal (.number x)] .start)) : Program source (-x)

/-- A minus sign in front of a digit is a token of its own. -/
theorem first_minus {c : Char} (hc : c.isDigit) (cs : List Char) :
    Piece.first '-' (c :: cs) = .lexeme (.symbol .minus) ['-'] := by
  have hgreater : c ≠ '>' := by
    rintro rfl
    cases hc
  have hsymbol : Symbol.ofFront? ('-' :: c :: cs) = some .minus := by
    simp [Symbol.ofFront?, Symbol.all, Symbol.chars, List.isPrefixOf, hgreater.symm]
  rw [Piece.first, if_neg (by decide), if_neg (by decide), Piece.word, hsymbol]
  rfl

theorem scan_minus {n : Numeral} (h : n.Plain) :
    (scan (String.ofList ('-' :: n.text))).tokens =
      [⟨.symbol .minus, "-", .start⟩,
        ⟨.number n.value, String.ofList n.text, Position.start.after '-'⟩] := by
  obtain ⟨c, cs, htext, hc⟩ := h.exists_cons
  have hfirst := first_minus hc cs
  have hcut : (Piece.first '-' (c :: cs)).chars ++ (c :: cs) = '-' :: c :: cs := by
    rw [hfirst]
    rfl
  have hrest := scanFrom_of_spells h.spells (Position.start.after '-')
  rw [htext] at hrest ⊢
  rw [scan, String.toList_ofList, scanFrom_piece .start hcut, hfirst]
  exact congrArg (_ :: ·) (congrArg Scan.tokens hrest)

open Grammar in
theorem Spelled.program (h : Spelled y s) : Program s y := by
  cases h with
  | @plain n hplain =>
    have hscan : (scan (String.ofList n.text)).tokens
        = [⟨.number n.value, String.ofList n.text, .start⟩] := by
      rw [scan, String.toList_ofList, scanFrom_of_spells hplain.spells]
    exact .bare hscan (Expr.parse_of_literal (.number rfl) hscan)
  | @minus n hplain =>
    have hscan := scan_minus hplain
    have hsource : String.ofList ('-' :: n.text) = "-" ++ String.ofList n.text :=
      @String.ofList_append ['-'] n.text
    refine .minus hsource hscan ?_
    have hliteral : Derives (.primary (.literal (.number n.value)))
        [⟨.number n.value, String.ofList n.text, Position.start.after '-'⟩] := .number rfl
    have hsigned := @Derives.signed ⟨.symbol .minus, "-", .start⟩ .neg _ _ (by decide)
      hliteral.product_of_primary
    have hsequence := Derives.sequence_of_comparison (.comparison hsigned)
    exact Parser.program_of_derives
      (c := ⟨(scan (String.ofList ('-' :: n.text))).tokens,
        (scan (String.ofList ('-' :: n.text))).finish⟩) (by rwa [hscan])

/-- A program of this kind has the number as its value. -/
theorem Program.evaluate (h : Program s y) {session : Session}
    (hflush : session.machine.sink.CanFlush 1) :
    session.evaluate s =
      (.ok (.number y), ⟨session.machine.store, session.machine.sink.flush.2⟩) := by
  have hdepth : 3 ≤ Session.depth :=
    (by decide : 3 ≤ 2 ^ 2).trans (Nat.pow_le_pow_right two_pos (by decide : 2 ≤ 62))
  cases h with
  | bare hscan hparse =>
    exact Session.evaluate_of_eval hparse hflush (n := 1) (Nat.pow_pos (by decide)) rfl
  | minus hsource hscan hparse =>
    exact Session.evaluate_of_eval hparse hflush hdepth rfl

/-! ## 6. Round trips -/

/-- **Numbers survive rendering.** The text of every number, NaN and the infinities included,
stands for the same number where a number is needed; zero comes back without its sign. The text
of a finite number is also a program, one number token that may have a minus sign in front, and
evaluates to the same number. -/
theorem text_reads_back (x : Float) :
    ((Value.str (text x)).toNumber = .ok (unsignZero x) ∧ Same (unsignZero x) x) ∧
    (x.isFinite = true → Program (text x) (unsignZero x) ∧
      ∀ session : Session, session.machine.sink.CanFlush 1 →
        session.evaluate (text x) = (.ok (.number (unsignZero x)),
          ⟨session.machine.store, session.machine.sink.flush.2⟩)) := by
  refine ⟨⟨toNumber_text x, same_unsignZero x⟩, fun hfinite => ?_⟩
  obtain ⟨b, hb⟩ := Binary.exists_ofFloat?_of_isFinite hfinite
  have hprogram := (spelled_unsignZero hb).program
  exact ⟨hprogram, fun session hflush => hprogram.evaluate hflush⟩

end Number

end CalcScript

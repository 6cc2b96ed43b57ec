/-
`Proofs/WrittenNumbers.lean` -- which texts are numbers.

Where a number is needed, a string will do if it has one written in it. The grammar stands
on its own: `Numeral.WellFormed` says what a decimal is, `WritesUnsigned` adds the two names
of numbers that are not finite, `Writes` a sign.

The reader can also be seen as a general one behind a filter (`filteredNumber?`). The general
reader knows more spellings of infinity and NaN, in any case; the filter looks at what
follows the sign and lets only the characters of decimals pass. The two agree, so nothing
that the general reader would take slips through, and nothing is lost.
-/
import CalcScript.Proofs.Separation
import CalcScript.Value.Coerce

set_option autoImplicit false

namespace CalcScript

open Lexical

/-! ## 1. Decimals -/

namespace Numeral

/-- Digits with at most one point, at least one digit on some side of it, then an exponent
or none. -/
structure WellFormed (n : Numeral) : Prop where
  whole : ∀ c ∈ n.whole, c.isDigit
  fraction : ∀ digits ∈ n.fraction, ∀ c ∈ digits, c.isDigit
  exponent : ∀ e ∈ n.exponent, IsExponent e
  nonempty : n.whole ++ n.fraction.getD [] ≠ []

/-- A decimal is read as it is spelled. -/
theorem ofChars?_text {n : Numeral} (h : n.WellFormed) : ofChars? n.text = some n := by
  obtain ⟨whole, fraction, exponent⟩ := n
  obtain ⟨hwhole, hfraction, hexponent, hne⟩ := h
  dsimp only at hwhole hfraction hexponent hne
  have hhead := head?_exponent hexponent
  have hsplit := Exponent.split_elim_text hexponent
  have hfilled : (whole ++ fraction.getD []).isEmpty = false := by
    rwa [List.isEmpty_eq_false_iff]
  cases fraction with
  | none =>
    have hfirst : splitDigits (whole ++ exponent.elim [] Exponent.text) =
        (whole, exponent.elim [] Exponent.text) :=
      splitDigits_eq hwhole fun c hc => (hhead c hc).1
    simp only [text, Option.elim_none, List.append_nil]
    rw [ofChars?, hfirst]
    dsimp only
    -- what follows the digits begins with no point
    split
    · next behind hbehind => exact absurd rfl (hhead '.' (by rw [hbehind]; rfl)).2
    · simp only [hsplit, hfilled]
      rfl
  | some digits =>
    have hdigits := hfraction digits rfl
    have hfirst : splitDigits (whole ++ '.' :: (digits ++ exponent.elim [] Exponent.text)) =
        (whole, '.' :: (digits ++ exponent.elim [] Exponent.text)) := by
      refine splitDigits_eq hwhole ?_
      rintro c ⟨⟩
      rfl
    have hlast : splitDigits (digits ++ exponent.elim [] Exponent.text) =
        (digits, exponent.elim [] Exponent.text) :=
      splitDigits_eq hdigits fun c hc => (hhead c hc).1
    simp only [text, Option.elim_some, List.append_assoc, List.cons_append]
    rw [ofChars?, hfirst]
    simp only [hlast, hsplit, hfilled]
    rfl

/-- What is read as a decimal is one, and is spelled as the text is. -/
theorem wellFormed_of_ofChars? {cs : List Char} {n : Numeral} (h : ofChars? cs = some n) :
    n.WellFormed ∧ n.text = cs := by
  unfold ofChars? at h
  have hwhole := splitDigits_append cs
  split at h
  next whole rest hsplit =>
  rw [hsplit] at hwhole
  have hdigits : ∀ c ∈ whole, c.isDigit := by
    obtain ⟨rfl, -⟩ := Prod.mk.inj hsplit
    exact isDigit_of_mem_takeWhile
  split at h
  next fraction rest' hmatch =>
  -- a point takes the digits behind it, and there may be none of them
  have hfraction : (∀ ds ∈ fraction, ∀ c ∈ ds, c.isDigit) ∧
      fraction.elim [] ('.' :: ·) ++ rest' = rest := by
    split at hmatch
    · next behind =>
      have happend := splitDigits_append behind
      cases hmatch
      refine ⟨?_, congrArg ('.' :: ·) happend⟩
      rintro ds ⟨⟩
      exact isDigit_of_mem_takeWhile
    · cases hmatch
      exact ⟨nofun, rfl⟩
  have hexponent := Exponent.text_split rest'
  split at h
  next exponent behind hexp =>
  rw [hexp] at hexponent
  split at h
  · -- nothing is left over, and there was a digit somewhere
    next hcond =>
    cases h
    simp only [Bool.and_eq_true, List.isEmpty_iff, Bool.not_eq_true',
      List.isEmpty_eq_false_iff] at hcond
    obtain ⟨rfl, hne⟩ := hcond
    rw [List.append_nil] at hexponent
    refine ⟨⟨hdigits, hfraction.1, ?_, hne⟩, ?_⟩
    · rintro e rfl
      exact Exponent.isExponent_of_split (congrArg Prod.fst hexp)
    · dsimp only [text]
      rw [List.append_assoc, hexponent, hfraction.2, hwhole]
  · cases h

theorem ofChars?_eq_some_iff {cs : List Char} {n : Numeral} :
    ofChars? cs = some n ↔ n.WellFormed ∧ n.text = cs := by
  constructor
  · exact wellFormed_of_ofChars?
  · rintro ⟨h, rfl⟩
    exact ofChars?_text h

/-- The characters that decimals consist of. -/
def hasChar (c : Char) : Bool :=
  c.isDigit || c = '.' || c = 'e' || c = 'E' || c = '+' || c = '-'

theorem WellFormed.hasChar {n : Numeral} (h : n.WellFormed) : ∀ c ∈ n.text, hasChar c := by
  have hdigit : ∀ c : Char, c.isDigit → Numeral.hasChar c :=
    fun c hc => by simp [Numeral.hasChar, hc]
  have hexponent : ∀ c ∈ n.exponent.elim [] Exponent.text, Numeral.hasChar c := by
    cases hn : n.exponent with
    | none => exact nofun
    | some e =>
      obtain ⟨hmark, hsign, hdigits, -⟩ := h.exponent e hn
      refine List.forall_mem_cons.mpr ⟨?_, List.forall_mem_append.mpr ⟨?_, ?_⟩⟩
      · rcases hmark with hmark | hmark <;> rw [hmark] <;> rfl
      · rcases hsign with hsign | hsign | hsign <;> rw [hsign] <;> simp [Numeral.hasChar]
      · exact fun c hc => hdigit c (hdigits c hc)
  have hfraction : ∀ c ∈ n.fraction.elim [] ('.' :: ·), Numeral.hasChar c := by
    cases hn : n.fraction with
    | none => exact nofun
    | some digits =>
      exact List.forall_mem_cons.mpr ⟨rfl, fun c hc => hdigit c (h.fraction digits hn c hc)⟩
  exact List.forall_mem_append.mpr ⟨List.forall_mem_append.mpr
    ⟨fun c hc => hdigit c (h.whole c hc), hfraction⟩, hexponent⟩

/-- Decimals have at least one character. -/
theorem WellFormed.text_ne_nil {n : Numeral} (h : n.WellFormed) : n.text ≠ [] := by
  intro hnil
  simp only [text, List.append_eq_nil_iff] at hnil
  obtain ⟨⟨hwhole, hfraction⟩, -⟩ := hnil
  refine h.nonempty ?_
  cases hn : n.fraction with
  | none => simp [hwhole]
  | some digits => rw [hn] at hfraction; cases hfraction

end Numeral

/-! ## 2. Blank ends -/

namespace Text

/-- The text `core` is what is left of `cs` without the blanks at its ends. -/
structure Trims (cs core : List Char) : Prop where
  around : ∃ front back, cs = front ++ (core ++ back) ∧
    (∀ c ∈ front, isBlank c) ∧ ∀ c ∈ back, isBlank c
  head : ∀ c ∈ core.head?, isBlank c = false
  last : ∀ c ∈ core.getLast?, isBlank c = false

theorem head?_dropWhile_isBlank (cs : List Char) :
    ∀ c ∈ (cs.dropWhile isBlank).head?, isBlank c = false := by
  intro c hc
  have hnot := List.head?_dropWhile_not isBlank cs
  rw [Option.mem_def.mp hc] at hnot
  simpa using hnot

theorem isBlank_of_mem_takeWhile (cs : List Char) : ∀ c ∈ cs.takeWhile isBlank, isBlank c :=
  fun c hc => List.all_eq_true.mp List.all_takeWhile c hc

theorem trims_trim (cs : List Char) : Trims cs (trim cs) := by
  have hfront : cs.takeWhile isBlank ++ cs.dropWhile isBlank = cs :=
    List.takeWhile_append_dropWhile
  have hback := congrArg List.reverse
    (List.takeWhile_append_dropWhile (p := isBlank) (l := (cs.dropWhile isBlank).reverse))
  rw [List.reverse_append, List.reverse_reverse] at hback
  refine ⟨⟨cs.takeWhile isBlank, ((cs.dropWhile isBlank).reverse.takeWhile isBlank).reverse, ?_,
    isBlank_of_mem_takeWhile cs, fun c hc => ?_⟩, fun c hc => ?_, fun c hc => ?_⟩
  · rw [trim, hback, hfront]
  · exact isBlank_of_mem_takeWhile _ c (List.mem_reverse.mp hc)
  · -- the blanks at the back are behind the first character that is left
    refine head?_dropWhile_isBlank cs c ?_
    rw [← hback, List.head?_append]
    rw [trim] at hc
    rw [Option.mem_def.mp hc]
    rfl
  · rw [trim, List.getLast?_reverse] at hc
    exact head?_dropWhile_isBlank _ c hc

/-- There is one way to leave the blanks at the ends out. -/
theorem Trims.eq {cs core : List Char} (h : Trims cs core) : trim cs = core := by
  obtain ⟨⟨front, back, rfl, hfront, hback⟩, hhead, hlast⟩ := h
  have hbackReverse : ∀ c ∈ back.reverse, isBlank c := fun c hc => hback c (List.mem_reverse.mp hc)
  have hstop {ds : List Char} (hds : ∀ c ∈ ds.head?, isBlank c = false) :
      ds.dropWhile isBlank = ds := by
    cases ds with
    | nil => rfl
    | cons d ds => simp [hds d rfl]
  cases core with
  | nil =>
    rw [List.nil_append, trim, List.dropWhile_append_of_pos hfront,
      ← List.append_nil back, List.dropWhile_append_of_pos hback]
    rfl
  | cons c core =>
    have hbehind : ((c :: core) ++ back).dropWhile isBlank = (c :: core) ++ back := hstop hhead
    rw [trim, List.dropWhile_append_of_pos hfront, hbehind, List.reverse_append,
      List.dropWhile_append_of_pos hbackReverse, hstop, List.reverse_reverse]
    rwa [List.head?_reverse]

theorem trims_iff {cs core : List Char} : Trims cs core ↔ trim cs = core := by
  constructor
  · exact Trims.eq
  · rintro rfl
    exact trims_trim cs

end Text

/-! ## 3. Written numbers -/

namespace Number

/-- The unsigned number that a text writes. -/
inductive WritesUnsigned : List Char → Float → Prop
  | infinity : WritesUnsigned "Infinity".toList infinity
  | nan : WritesUnsigned "NaN".toList nan
  | decimal {n : Numeral} (h : n.WellFormed) : WritesUnsigned n.text n.value

/-- The number that a text writes, with a sign or without. -/
inductive Writes : List Char → Float → Prop
  | bare {body x} (h : WritesUnsigned body x) : Writes body x
  | plus {body x} (h : WritesUnsigned body x) : Writes ('+' :: body) x
  | minus {body x} (h : WritesUnsigned body x) : Writes ('-' :: body) (-x)

theorem ofChars?_infinity : Numeral.ofChars? "Infinity".toList = none := by decide

theorem ofChars?_nan : Numeral.ofChars? "NaN".toList = none := by decide

theorem unsignedNumber?_eq_some_iff {body : List Char} {x : Float} :
    unsignedNumber? body = some x ↔ WritesUnsigned body x := by
  constructor
  · intro h
    unfold unsignedNumber? at h
    split at h
    · next hbody =>
      cases h
      rw [hbody]
      exact .infinity
    split at h
    · next hbody =>
      cases h
      rw [hbody]
      exact .nan
    · obtain ⟨n, hn, rfl⟩ := Option.map_eq_some_iff.mp h
      obtain ⟨hwell, rfl⟩ := Numeral.ofChars?_eq_some_iff.mp hn
      exact .decimal hwell
  · rintro (_ | _ | @⟨n, h⟩)
    · rfl
    · rfl
    · have hread := Numeral.ofChars?_text h
      -- the names are no decimals
      have hinfinity : n.text ≠ "Infinity".toList := by
        intro hname
        rw [hname, ofChars?_infinity] at hread
        cases hread
      have hnan : n.text ≠ "NaN".toList := by
        intro hname
        rw [hname, ofChars?_nan] at hread
        cases hread
      rw [unsignedNumber?, if_neg hinfinity, if_neg hnan, hread]
      rfl

/-- What is written without a sign begins with none. -/
theorem WritesUnsigned.head {body : List Char} {x : Float} (h : WritesUnsigned body x) :
    ∀ c ∈ body.head?, c ≠ '+' ∧ c ≠ '-' := by
  rintro c hc
  cases h with
  | infinity => cases hc; decide
  | nan => cases hc; decide
  | @decimal n hn =>
    -- the first character is a digit, or the point if no digit stands in front of it
    have hfirst : c.isDigit ∨ c = '.' := by
      cases hwhole : n.whole with
      | cons d ds =>
        simp only [Numeral.text, hwhole, List.cons_append, List.head?_cons] at hc
        cases hc
        exact .inl (hn.whole c (by rw [hwhole]; exact List.mem_cons_self))
      | nil =>
        cases hfraction : n.fraction with
        | none => exact absurd (by simp [hwhole, hfraction]) hn.nonempty
        | some digits =>
          simp only [Numeral.text, hwhole, hfraction, Option.elim_some, List.nil_append,
            List.cons_append, List.head?_cons] at hc
          cases hc
          exact .inr rfl
    rcases hfirst with hdigit | rfl
    · constructor <;> rintro rfl <;> cases hdigit
    · decide

theorem number?_eq_some_iff {text : String} {x : Float} :
    number? text = some x ↔ Writes (Text.trim text.toList) x := by
  unfold number?
  generalize Text.trim text.toList = cs
  constructor
  · intro h
    split at h
    · next body =>
      obtain ⟨y, hy, rfl⟩ := Option.map_eq_some_iff.mp h
      exact .minus (unsignedNumber?_eq_some_iff.mp hy)
    · next body => exact .plus (unsignedNumber?_eq_some_iff.mp h)
    · exact .bare (unsignedNumber?_eq_some_iff.mp h)
  · rintro (h | h | h)
    · have hhead := h.head
      split
      · exact absurd rfl (hhead '-' rfl).2
      · exact absurd rfl (hhead '+' rfl).1
      · exact unsignedNumber?_eq_some_iff.mpr h
    · exact unsignedNumber?_eq_some_iff.mpr h
    · exact congrArg (Option.map fun x => -x) (unsignedNumber?_eq_some_iff.mpr h)

/-! ## 4. A general reader behind a filter -/

/-- What a reader for numbers of any kind takes behind the sign: a decimal, or one of
`inf`, `infinity` and `nan` in letters of any case. -/
def generalUnsigned? (body : List Char) : Option Float :=
  let lower := body.map Char.toLower
  if lower = "inf".toList ∨ lower = "infinity".toList then some infinity
  else if lower = "nan".toList then some nan
  else (Numeral.ofChars? body).map Numeral.value

/-- A reader for numbers of any kind, which takes at most one sign. -/
def general? : List Char → Option Float
  | '-' :: body => (generalUnsigned? body).map fun x => -x
  | '+' :: body => generalUnsigned? body
  | body => generalUnsigned? body

/-- What is left of a text behind its sign, and whether that was a minus. -/
def unsign : List Char → Bool × List Char
  | '-' :: body => (true, body)
  | '+' :: body => (false, body)
  | body => (false, body)

/-- The general reader behind a filter: what follows the sign has to be one of the names
that numbers are written under, or to have none but the characters of decimals. The text is
then read with its sign. -/
def filteredNumber? (text : String) : Option Float :=
  let cs := Text.trim text.toList
  let (negative, body) := unsign cs
  if body = "Infinity".toList then some (if negative then -infinity else infinity)
  else if body = "NaN".toList then some nan
  else if !body.isEmpty && body.all Numeral.hasChar then general? cs
  else none

/-- No character of a decimal is an `n`, in upper or lower case. -/
theorem toLower_ne_of_hasChar {c : Char} (h : Numeral.hasChar c) : c.toLower ≠ 'n' := by
  have hdigit : c.isDigit → c.toLower = c := by
    intro hc
    simp only [Char.isDigit, Bool.and_eq_true, decide_eq_true_eq] at hc
    have hupper : ¬ (c.val ≥ 'A'.val ∧ c.val ≤ 'Z'.val) := by
      rintro ⟨hleast, -⟩
      exact absurd (UInt32.le_trans hleast hc.2) (by decide)
    exact dif_neg hupper
  simp only [Numeral.hasChar, Bool.or_eq_true, decide_eq_true_eq] at h
  rcases h with ((((h | rfl) | rfl) | rfl) | rfl) | rfl
  · rw [hdigit h]
    rintro rfl
    cases h
  all_goals decide

/-- Where the filter lets a text pass, the general reader finds no name in it. -/
theorem generalUnsigned?_of_hasChar {body : List Char} (h : ∀ c ∈ body, Numeral.hasChar c) :
    generalUnsigned? body = (Numeral.ofChars? body).map Numeral.value := by
  have hlower : 'n' ∉ body.map Char.toLower := by
    intro hmem
    obtain ⟨c, hc, hn⟩ := List.mem_map.mp hmem
    exact toLower_ne_of_hasChar (h c hc) hn
  have hinf : ¬ (body.map Char.toLower = "inf".toList ∨
      body.map Char.toLower = "infinity".toList) := by
    rintro (heq | heq) <;> exact hlower (by rw [heq]; decide)
  have hnan : body.map Char.toLower ≠ "nan".toList := by
    intro heq
    exact hlower (by rw [heq]; decide)
  simp only [generalUnsigned?, if_neg hinf, if_neg hnan]

/-- What the filter stops is no decimal. -/
theorem ofChars?_of_filtered {body : List Char}
    (h : (!body.isEmpty && body.all Numeral.hasChar) = false) : Numeral.ofChars? body = none := by
  refine Option.eq_none_iff_forall_ne_some.mpr fun n hn => ?_
  obtain ⟨hwell, rfl⟩ := Numeral.ofChars?_eq_some_iff.mp hn
  have hfilled : n.text.isEmpty = false := List.isEmpty_eq_false_iff.mpr hwell.text_ne_nil
  rw [hfilled, List.all_eq_true.mpr hwell.hasChar] at h
  cases h

/-- Behind a sign, the filter loses nothing of what is read there and adds nothing. -/
theorem filtered_eq (cs : List Char) {body : List Char} {negative : Bool} (f : Float → Float)
    (hgeneral : general? cs = (generalUnsigned? body).map f)
    (hinfinity : f infinity = if negative then -infinity else infinity) (hnan : f nan = nan) :
    (if body = "Infinity".toList then some (if negative then -infinity else infinity)
      else if body = "NaN".toList then some nan
      else if !body.isEmpty && body.all Numeral.hasChar then general? cs
      else none) = (unsignedNumber? body).map f := by
  rw [hgeneral, unsignedNumber?]
  split
  · exact congrArg some hinfinity.symm
  split
  · exact congrArg some hnan.symm
  split
  · next hpass =>
    rw [Bool.and_eq_true, List.all_eq_true] at hpass
    rw [generalUnsigned?_of_hasChar hpass.2]
  · next hstop =>
    rw [ofChars?_of_filtered (Bool.eq_false_iff.mpr hstop)]
    rfl

/-- The general reader behind the filter accepts the texts that are accepted, and reads the
same numbers. -/
theorem number?_eq_filteredNumber? (text : String) : number? text = filteredNumber? text := by
  unfold number? filteredNumber?
  generalize Text.trim text.toList = cs
  have hsame (body : List Char) : (unsignedNumber? body).map id = unsignedNumber? body :=
    Option.map_id_apply
  have hgeneral (body : List Char) : (generalUnsigned? body).map id = generalUnsigned? body :=
    Option.map_id_apply
  split
  · next body => exact (filtered_eq ('-' :: body) (fun x => -x) rfl rfl (by decide)).symm
  · next body =>
    rw [← hsame body]
    exact (filtered_eq ('+' :: body) id (hgeneral body).symm rfl rfl).symm
  · next hminus hplus =>
    have hunsign : unsign cs = (false, cs) := by
      unfold unsign
      split
      · exact absurd rfl (hminus _)
      · exact absurd rfl (hplus _)
      · rfl
    have hgeneral' : general? cs = (generalUnsigned? cs).map id := by
      rw [hgeneral, general?]
      · exact hminus
      · exact hplus
    dsimp only
    rw [hunsign, ← hsame cs]
    exact (filtered_eq cs id hgeneral' rfl rfl).symm

/-! ## 5. What is refused -/

/-- Where a number is needed, this string is refused with a type fault. -/
def Refuses (text : String) : Prop :=
  ∃ fault, (Value.str text).toNumber = .error fault ∧ fault.kind = .type

theorem toNumber_str_eq_ok_iff {text : String} {x : Float} :
    (Value.str text).toNumber = .ok x ↔ Writes (Text.trim text.toList) x := by
  rw [← number?_eq_some_iff, Value.toNumber]
  cases number? text <;> simp

theorem refuses_of_forall {text : String} (h : ∀ x, ¬ Writes (Text.trim text.toList) x) :
    Refuses text := by
  refine ⟨.notNumeral text, ?_, rfl⟩
  have hnone : number? text = none :=
    Option.eq_none_iff_forall_ne_some.mpr fun x hx => h x (number?_eq_some_iff.mp hx)
  simp [Value.toNumber, hnone]

/-- The characters of what is written, apart from the names, are those of decimals. -/
theorem WritesUnsigned.hasChar {body : List Char} {x : Float} (h : WritesUnsigned body x)
    (hinfinity : body ≠ "Infinity".toList) (hnan : body ≠ "NaN".toList) :
    ∀ c ∈ body, Numeral.hasChar c := by
  cases h with
  | infinity => exact absurd rfl hinfinity
  | nan => exact absurd rfl hnan
  | decimal hn => exact hn.hasChar

theorem isBlank_of_hasChar {c : Char} (h : Numeral.hasChar c) : Text.isBlank c = false := by
  have hdigit : c.isDigit → 48 ≤ c.toNat ∧ c.toNat ≤ 57 := by
    intro hc
    simpa [Char.isDigit, UInt32.le_iff_toNat_le] using hc
  simp only [Numeral.hasChar, Bool.or_eq_true, decide_eq_true_eq] at h
  rcases h with ((((h | rfl) | rfl) | rfl) | rfl) | rfl
  · obtain ⟨hleast, hmost⟩ := hdigit h
    simp only [Text.isBlank, Bool.or_eq_false_iff, Bool.and_eq_false_iff, decide_eq_false_iff_not,
      beq_eq_false_iff_ne]
    omega
  all_goals decide

theorem WritesUnsigned.ne_nil {body : List Char} {x : Float} (h : WritesUnsigned body x) :
    body ≠ [] := by
  cases h with
  | infinity => decide
  | nan => decide
  | decimal hn => exact hn.text_ne_nil

/-- Nothing that is written has a blank inside. -/
theorem Writes.isBlank {cs : List Char} {x : Float} (h : Writes cs x) :
    ∀ c ∈ cs, Text.isBlank c = false := by
  have hbody : ∀ {body y}, WritesUnsigned body y → ∀ c ∈ body, Text.isBlank c = false := by
    intro body y hy c hc
    have hname : ∀ name : String, name.toList.all (fun d => !Text.isBlank d) = true →
        body = name.toList → Text.isBlank c = false := by
      rintro name hname rfl
      simpa using List.all_eq_true.mp hname c hc
    by_cases hinfinity : body = "Infinity".toList
    · exact hname "Infinity" (by decide) hinfinity
    by_cases hnan : body = "NaN".toList
    · exact hname "NaN" (by decide) hnan
    exact isBlank_of_hasChar (hy.hasChar hinfinity hnan c hc)
  cases h with
  | bare h => exact hbody h
  | plus h => exact List.forall_mem_cons.mpr ⟨rfl, hbody h⟩
  | minus h => exact List.forall_mem_cons.mpr ⟨rfl, hbody h⟩

theorem Writes.ne_nil {cs : List Char} {x : Float} (h : Writes cs x) : cs ≠ [] := by
  cases h with
  | bare h => exact h.ne_nil
  | plus => exact List.cons_ne_nil _ _
  | minus => exact List.cons_ne_nil _ _

/-- Behind at most one sign an unsigned number is written. -/
theorem Writes.unsigned {sign body : List Char} {x : Float} (h : Writes (sign ++ body) x)
    (hsign : sign ∈ [[], ['+'], ['-']]) (hhead : ∀ c ∈ body.head?, c ≠ '+' ∧ c ≠ '-') :
    ∃ y, WritesUnsigned body y := by
  simp only [List.mem_cons, List.not_mem_nil, or_false] at hsign
  generalize hcs : sign ++ body = cs at h
  cases h with
  | bare h =>
    rcases hsign with rfl | rfl | rfl
    · obtain rfl : body = cs := hcs
      exact ⟨x, h⟩
    · exact absurd rfl (h.head '+' (by rw [← hcs]; rfl)).1
    · exact absurd rfl (h.head '-' (by rw [← hcs]; rfl)).2
  | plus h =>
    rcases hsign with rfl | rfl | rfl
    · exact absurd rfl (hhead '+' (by rw [← List.nil_append body, hcs]; rfl)).1
    · obtain rfl : body = _ := (List.cons.inj hcs).2
      exact ⟨x, h⟩
    · cases (List.cons.inj hcs).1
  | minus h =>
    rcases hsign with rfl | rfl | rfl
    · exact absurd rfl (hhead '-' (by rw [← List.nil_append body, hcs]; rfl)).2
    · cases (List.cons.inj hcs).1
    · obtain rfl : body = _ := (List.cons.inj hcs).2
      exact ⟨_, h⟩

/-- The other spellings of the names are refused. -/
theorem refuses_name {text : String} {sign body : List Char}
    (htext : Text.trim text.toList = sign ++ body) (hsign : sign ∈ [[], ['+'], ['-']])
    (hname : body.map Char.toLower ∈ ["inf".toList, "infinity".toList, "nan".toList])
    (hinfinity : body ≠ "Infinity".toList) (hnan : body ≠ "NaN".toList) : Refuses text := by
  refine refuses_of_forall fun x hx => ?_
  rw [htext] at hx
  have hn : 'n' ∈ body.map Char.toLower := by
    simp only [List.mem_cons, List.not_mem_nil, or_false] at hname
    rcases hname with heq | heq | heq <;> rw [heq] <;> decide
  have hhead : ∀ c ∈ body.head?, c ≠ '+' ∧ c ≠ '-' := by
    intro c hc
    have hlower : (body.map Char.toLower).head? = some c.toLower := by
      rw [List.head?_map, Option.mem_def.mp hc]
      rfl
    simp only [List.mem_cons, List.not_mem_nil, or_false] at hname
    constructor <;> rintro rfl <;> rcases hname with heq | heq | heq <;>
      rw [heq] at hlower <;> revert hlower <;> decide
  obtain ⟨y, hy⟩ := hx.unsigned hsign hhead
  obtain ⟨c, hc, hcn⟩ := List.mem_map.mp hn
  exact toLower_ne_of_hasChar (hy.hasChar hinfinity hnan c hc) hcn

theorem refuses_signs {text : String} {c d : Char} {rest : List Char}
    (htext : Text.trim text.toList = c :: d :: rest) (hc : c = '+' ∨ c = '-')
    (hd : d = '+' ∨ d = '-') : Refuses text := by
  refine refuses_of_forall fun x hx => ?_
  have hbody : ∀ {e : Char} {es : List Char} {y : Float}, e = '+' ∨ e = '-' →
      ¬ WritesUnsigned (e :: es) y := by
    intro e es y he hy
    have hhead := hy.head e rfl
    rcases he with rfl | rfl
    · exact hhead.1 rfl
    · exact hhead.2 rfl
  rw [htext] at hx
  cases hx with
  | bare h => exact hbody hc h
  | plus h => exact hbody hd h
  | minus h => exact hbody hd h

/-! ## 6. Numbers of programs -/

/-- What spells a number of a program writes that number. -/
theorem writes_of_spells {x : Float} {spelling : List Char} (h : Spells (.number x) spelling) :
    Writes spelling x := by
  cases h with
  | @number whole last point exponent hwhole hlast hne hexponent =>
    cases point with
    | true =>
      have hwell : Numeral.WellFormed ⟨whole, some last, exponent⟩ := by
        refine ⟨hwhole, ?_, hexponent, ?_⟩
        · rintro digits ⟨⟩
          exact hlast
        · exact fun hnil => hne (List.append_eq_nil_iff.mp hnil).2
      have hwrites := WritesUnsigned.decimal hwell
      simpa [Numeral.text, Numeral.value, Numeral.decimal, Lexical.decimal] using
        Writes.bare hwrites
    | false =>
      have hwell : Numeral.WellFormed ⟨whole ++ last, none, exponent⟩ := by
        refine ⟨List.forall_mem_append.mpr ⟨hwhole, hlast⟩, ?_, hexponent, ?_⟩
        · rintro digits ⟨⟩
        · simp [hne]
      have hwrites := WritesUnsigned.decimal hwell
      simpa [Numeral.text, Numeral.value, Numeral.decimal, Lexical.decimal] using
        Writes.bare hwrites

/-- What is written has no blanks, so all of it is read. -/
theorem toNumber_of_writes {x : Float} {text : String} (h : Writes text.toList x) :
    (Value.str text).toNumber = .ok x := by
  have htrim : Text.trim text.toList = text.toList := by
    refine Text.Trims.eq ⟨⟨[], [], by simp, nofun, nofun⟩, ?_, ?_⟩
    · exact fun c hc => h.isBlank c (List.mem_of_mem_head? hc)
    · exact fun c hc => h.isBlank c (List.mem_of_mem_getLast? hc)
  rw [toNumber_str_eq_ok_iff, htrim]
  exact h

theorem toNumber_spelled {x : Float} {lexeme : String}
    (h : Spells (.number x) lexeme.toList) : (Value.str lexeme).toNumber = .ok x :=
  toNumber_of_writes (writes_of_spells h)

end Number

/-! ## 7. The grammar -/

open Number Text in
/-- **A string is a number exactly if one is written in it**, between blanks: a decimal or one
of the names `Infinity` and `NaN`, with at most one sign. Any other is refused with a type
fault, among them the names in other letters, two signs in a row, blanks inside and no
characters at all. A general reader behind a filter on the characters would accept the same
strings. The numbers of programs are read as the numbers that they are there. -/
theorem Value.string_is_number_iff_written (text : String) :
    (∀ x, (Value.str text).toNumber = .ok x ↔
      ∃ core, Trims text.toList core ∧ Writes core x) ∧
    ((∀ core x, Trims text.toList core → ¬ Writes core x) → Refuses text) ∧
    (∀ sign body, Trims text.toList (sign ++ body) → sign ∈ [[], ['+'], ['-']] →
      body.map Char.toLower ∈ ["inf".toList, "infinity".toList, "nan".toList] →
      body ≠ "Infinity".toList → body ≠ "NaN".toList → Refuses text) ∧
    (∀ c d rest, Trims text.toList (c :: d :: rest) → c = '+' ∨ c = '-' → d = '+' ∨ d = '-' →
      Refuses text) ∧
    (∀ core, Trims text.toList core → (∃ c ∈ core, isBlank c) → Refuses text) ∧
    (Trims text.toList [] → Refuses text) ∧
    number? text = filteredNumber? text ∧
    ∀ source, ∀ t ∈ (scan source).tokens, ∀ x, t.kind = .number x →
      (Value.str t.lexeme).toNumber = .ok x := by
  simp only [trims_iff]
  refine ⟨?_, ?_, ?_, ?_, ?_, ?_, number?_eq_filteredNumber? text, ?_⟩
  · intro x
    rw [toNumber_str_eq_ok_iff]
    simp
  · intro h
    exact refuses_of_forall fun x => h _ x rfl
  · intro sign body htext hsign hname hinfinity hnan
    exact refuses_name htext hsign hname hinfinity hnan
  · intro c d rest htext hc hd
    exact refuses_signs htext hc hd
  · rintro core rfl ⟨c, hc, hblank⟩
    refine refuses_of_forall fun x hx => ?_
    rw [hx.isBlank c hc] at hblank
    cases hblank
  · intro htext
    exact refuses_of_forall fun x hx => hx.ne_nil htext
  · intro source t ht x hx
    have hspelled := Token.spelled_of_mem_scan ht (by rw [hx]; trivial)
    rw [Token.Spelled, hx] at hspelled
    exact toNumber_spelled hspelled

end CalcScript

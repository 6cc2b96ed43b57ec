/-
`Number/Numeral.lean` -- the written form of a number.

A numeral is kept as it is spelled: the digits in front of the point, those
behind it if there is a point, and the exponent if there is one. `Numeral.text`
spells it out again and `Numeral.value` is the nearest double.

There are two ways to find one in a text. `Numeral.split` takes the longest
numeral from the front of a program, where a point counts only if a digit
follows it. `Numeral.ofChars?` reads a whole text, where the point may also come
last.
-/
import CalcScript.Number.Decimal

set_option autoImplicit false

namespace CalcScript

/-- The power of ten at the end of a numeral, as it is spelled. -/
structure Exponent where
  /-- either `e` or `E` -/
  mark : Char
  /-- either `+` or `-`, if there is one -/
  sign : Option Char
  digits : List Char
deriving DecidableEq, Repr

/-- An unsigned number as it is spelled. -/
structure Numeral where
  whole : List Char
  fraction : Option (List Char)
  exponent : Option Exponent
deriving DecidableEq, Repr

/-- The natural number that a list of digits spells. -/
def digitsValue (digits : List Char) : Nat :=
  digits.foldl (fun n c => 10 * n + (c.toNat - '0'.toNat)) 0

/-- The digits at the front of a text, and the rest. -/
def splitDigits (cs : List Char) : List Char × List Char :=
  (cs.takeWhile Char.isDigit, cs.dropWhile Char.isDigit)

theorem splitDigits_append (cs : List Char) :
    (splitDigits cs).1 ++ (splitDigits cs).2 = cs :=
  List.takeWhile_append_dropWhile

namespace Exponent

def text (e : Exponent) : List Char :=
  e.mark :: e.sign.toList ++ e.digits

def value (e : Exponent) : Int :=
  if e.sign = some '-' then -(digitsValue e.digits : Int) else digitsValue e.digits

/-- Takes an exponent from the front of a text: a mark, an optional sign and at
least one digit. Short of that nothing is taken. -/
def split (cs : List Char) : Option Exponent × List Char :=
  match cs with
  | [] => (none, cs)
  | mark :: rest =>
    if mark = 'e' ∨ mark = 'E' then
      let (sign, rest) : Option Char × List Char :=
        match rest with
        | '+' :: rest => (some '+', rest)
        | '-' :: rest => (some '-', rest)
        | rest => (none, rest)
      match splitDigits rest with
      | ([], _) => (none, cs)
      | (digits, rest) => (some ⟨mark, sign, digits⟩, rest)
    else (none, cs)

/-- Splitting loses nothing. -/
theorem text_split (cs : List Char) : (split cs).1.elim [] text ++ (split cs).2 = cs := by
  unfold split
  split
  · rfl
  · next mark rest =>
    split
    · split
      next sign tail hsign =>
      have htail : sign.toList ++ tail = rest := by
        split at hsign <;> cases hsign <;> rfl
      have happend := splitDigits_append tail
      split
      · rfl
      · next digits behind _ hdigits =>
        rw [hdigits] at happend
        simp only [Option.elim_some, text, List.cons_append, List.append_assoc]
        rw [happend, htail]
    · rfl

end Exponent

namespace Numeral

def text (n : Numeral) : List Char :=
  n.whole ++ (n.fraction.elim [] ('.' :: ·)) ++ (n.exponent.elim [] Exponent.text)

/-- The number meant, exactly. -/
def decimal (n : Numeral) : Decimal :=
  let fraction := n.fraction.getD []
  ⟨digitsValue (n.whole ++ fraction), n.exponent.elim 0 Exponent.value - fraction.length⟩

/-- The double nearest to the number meant. -/
def value (n : Numeral) : Float :=
  n.decimal.toFloat

/-- Takes the longest numeral from the front of a text. A point belongs to it
only if a digit follows. -/
def split (cs : List Char) : Numeral × List Char :=
  let (whole, rest) := splitDigits cs
  let (fraction, rest) : Option (List Char) × List Char :=
    match rest with
    | '.' :: behind =>
      match splitDigits behind with
      | ([], _) => (none, rest)
      | (digits, rest) => (some digits, rest)
    | rest => (none, rest)
  let (exponent, rest) := Exponent.split rest
  (⟨whole, fraction, exponent⟩, rest)

/-- Splitting loses nothing. -/
theorem text_split (cs : List Char) : (split cs).1.text ++ (split cs).2 = cs := by
  unfold split
  have hwhole := splitDigits_append cs
  split
  next whole rest hsplit =>
  rw [hsplit] at hwhole
  split
  next fraction rest' hfraction =>
  have hrest : fraction.elim [] ('.' :: ·) ++ rest' = rest := by
    split at hfraction
    · next behind =>
      have happend := splitDigits_append behind
      split at hfraction
      · cases hfraction
        rfl
      · next digits tail _ hdigits =>
        rw [hdigits] at happend
        cases hfraction
        rw [Option.elim_some, List.cons_append, happend]
    · cases hfraction
      rfl
  have hexponent := Exponent.text_split rest'
  dsimp only [text]
  rw [List.append_assoc, List.append_assoc, hexponent, hrest, hwhole]

/-- Reads a whole text as a numeral. It needs a digit on one side of the point. -/
def ofChars? (cs : List Char) : Option Numeral :=
  let (whole, rest) := splitDigits cs
  let (fraction, rest) : Option (List Char) × List Char :=
    match rest with
    | '.' :: behind =>
      let (digits, rest) := splitDigits behind
      (some digits, rest)
    | rest => (none, rest)
  let (exponent, rest) := Exponent.split rest
  if rest.isEmpty && !(whole ++ fraction.getD []).isEmpty then some ⟨whole, fraction, exponent⟩
  else none

end Numeral

end CalcScript

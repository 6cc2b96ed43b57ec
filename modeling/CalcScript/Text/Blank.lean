/-
`Text/Blank.lean` -- the two notions of blank space.

Between tokens only five characters are blank. Around a text that is read as a
number every character with the Unicode property White_Space is.
-/

set_option autoImplicit false

namespace CalcScript.Text

/-- Blank space between tokens: space, tab, newline, form feed, carriage return. -/
def isLayoutBlank (c : Char) : Bool :=
  c = ' ' || c = '\t' || c = '\n' || c = '\x0c' || c = '\r'

/-- White_Space: 25 characters. -/
def isBlank (c : Char) : Bool :=
  let code := c.toNat
  (decide (0x09 ≤ code) && decide (code ≤ 0x0d)) || code == 0x20 || code == 0x85
    || code == 0xa0 || code == 0x1680
    || (decide (0x2000 ≤ code) && decide (code ≤ 0x200a))
    || code == 0x2028 || code == 0x2029 || code == 0x202f || code == 0x205f || code == 0x3000

/-- A text without the blanks at its two ends. -/
def trim (cs : List Char) : List Char :=
  ((cs.dropWhile isBlank).reverse.dropWhile isBlank).reverse

/-- What is blank between tokens is blank everywhere. -/
theorem isBlank_of_isLayoutBlank {c : Char} (h : isLayoutBlank c = true) : isBlank c = true := by
  simp only [isLayoutBlank, Bool.or_eq_true, decide_eq_true_eq] at h
  rcases h with (((rfl | rfl) | rfl) | rfl) | rfl <;> decide

end CalcScript.Text

/-
`Proofs/QuotedTexts.lean` -- quoted texts end where they say they end.

The escapes of a quoted text can be read off from the left, one character after the other:
what stands at the front of a text says which character it is and where it ends
(`unescapeFirst`). So nothing that is put behind a quoted text can be taken for a part of it,
and no two strings are quoted alike.
-/
import CalcScript.Text.Quoted
import CalcScript.Token.Lexer

set_option autoImplicit false

namespace CalcScript.Text

/-! ## 1. Hexadecimal digits -/

/-- The value of a digit that is shown for a number below sixteen. -/
def hexDigit (c : Char) : Nat :=
  if c.isDigit then c.toNat - '0'.toNat else c.toNat - 'a'.toNat + 10

def hexValue (digits : List Char) : Nat :=
  digits.foldl (fun n c => 16 * n + hexDigit c) 0

theorem hexDigit_digitChar {d : Nat} (h : d < 16) : hexDigit d.digitChar = d := by
  have hall : ∀ d : Fin 16, hexDigit (d : Nat).digitChar = d := by decide
  exact hall ⟨d, h⟩

theorem digitChar_ne_brace {d : Nat} (h : d < 16) : d.digitChar ≠ '\x7d' := by
  have hall : ∀ d : Fin 16, (d : Nat).digitChar ≠ '\x7d' := by decide
  exact hall ⟨d, h⟩

theorem hexValue_toDigits (n : Nat) : hexValue (Nat.toDigits 16 n) = n := by
  induction n using Nat.base_induction 16 (by decide) with
  | single m hm =>
    rw [Nat.toDigits_of_lt_base hm]
    show 16 * 0 + hexDigit m.digitChar = m
    rw [hexDigit_digitChar hm]
    omega
  | digit m k hk hm ih =>
    rw [← Nat.toDigits_append_toDigits (by decide) hm hk, Nat.toDigits_of_lt_base hk, hexValue,
      List.foldl_append, ← hexValue, ih]
    show 16 * m + hexDigit k.digitChar = 16 * m + k
    rw [hexDigit_digitChar hk]

theorem ne_brace_of_mem_toDigits (n : Nat) : ∀ c ∈ Nat.toDigits 16 n, c ≠ '\x7d' := by
  induction n using Nat.base_induction 16 (by decide) with
  | single m hm =>
    rw [Nat.toDigits_of_lt_base hm]
    exact List.forall_mem_singleton.mpr (digitChar_ne_brace hm)
  | digit m k hk hm ih =>
    rw [← Nat.toDigits_append_toDigits (by decide) hm hk, Nat.toDigits_of_lt_base hk]
    exact List.forall_mem_append.mpr ⟨ih, List.forall_mem_singleton.mpr (digitChar_ne_brace hk)⟩

/-! ## 2. Escapes -/

/-- The first character of a quoted text, and what stands behind its escape. -/
def unescapeFirst : List Char → Option (Char × List Char)
  | '\\' :: 'u' :: '\x7b' :: cs =>
    some (.ofNat (hexValue (cs.takeWhile (· ≠ '\x7d'))), (cs.dropWhile (· ≠ '\x7d')).tail)
  | '\\' :: c :: cs => some (unescape c, cs)
  | c :: cs => some (c, cs)
  | [] => none

theorem unescapeFirst_codePoint (c : Char) (rest : List Char) :
    unescapeFirst ('\\' :: 'u' :: '\x7b' :: (Nat.toDigits 16 c.toNat ++ '\x7d' :: rest))
      = some (c, rest) := by
  have hbraces : ∀ d ∈ Nat.toDigits 16 c.toNat, (decide (d ≠ '\x7d')) = true :=
    fun d hd => decide_eq_true (ne_brace_of_mem_toDigits _ d hd)
  rw [unescapeFirst, List.takeWhile_append_of_pos hbraces, List.dropWhile_append_of_pos hbraces]
  simp [hexValue_toDigits]

/-- An escape is read back, whatever stands behind it. -/
theorem unescapeFirst_escape (c : Char) (rest : List Char) :
    unescapeFirst (escape c ++ rest) = some (c, rest) := by
  unfold escape
  split
  · next hc => subst hc; rfl
  split
  · next hc => subst hc; rfl
  split
  · next hc => subst hc; rfl
  split
  · next hc => subst hc; rfl
  split
  · next hc => subst hc; rfl
  split
  · next hc => subst hc; rfl
  next hbackslash =>
  split
  · rw [List.singleton_append, unescapeFirst]
    · exact fun _ h => absurd h hbackslash
    · exact fun _ _ h => absurd h hbackslash
  · have hcode := unescapeFirst_codePoint c rest
    simpa using hcode

/-- No escape begins with the quote that ends the text. -/
theorem escape_head (c : Char) : ∃ d ds, escape c = d :: ds ∧ d ≠ '"' := by
  unfold escape
  split
  · exact ⟨_, _, rfl, by decide⟩
  split
  · exact ⟨_, _, rfl, by decide⟩
  split
  · exact ⟨_, _, rfl, by decide⟩
  split
  · exact ⟨_, _, rfl, by decide⟩
  split
  · exact ⟨_, _, rfl, by decide⟩
  next hquote =>
  split
  · exact ⟨_, _, rfl, by decide⟩
  split
  · exact ⟨_, _, rfl, hquote⟩
  · exact ⟨_, _, rfl, by decide⟩

theorem escape_unique {c d : Char} {r s : List Char} (h : escape c ++ r = escape d ++ s) :
    c = d ∧ r = s := by
  have hread := unescapeFirst_escape c r
  rw [h, unescapeFirst_escape] at hread
  cases hread
  exact ⟨rfl, rfl⟩

/-! ## 3. Quoted texts -/

theorem escapes_unique {cs ds r s : List Char}
    (h : cs.flatMap escape ++ '"' :: r = ds.flatMap escape ++ '"' :: s) : cs = ds ∧ r = s := by
  induction cs generalizing ds with
  | nil =>
    cases ds with
    | nil => exact ⟨rfl, (List.cons.inj h).2⟩
    | cons d ds =>
      obtain ⟨e, es, hescape, hquote⟩ := escape_head d
      rw [List.flatMap_cons, hescape] at h
      exact absurd (List.cons.inj h).1.symm hquote
  | cons c cs ih =>
    cases ds with
    | nil =>
      obtain ⟨e, es, hescape, hquote⟩ := escape_head c
      rw [List.flatMap_cons, hescape] at h
      exact absurd (List.cons.inj h).1 hquote
    | cons d ds =>
      rw [List.flatMap_cons, List.flatMap_cons, List.append_assoc, List.append_assoc] at h
      obtain ⟨rfl, htail⟩ := escape_unique h
      obtain ⟨rfl, rfl⟩ := ih htail
      exact ⟨rfl, rfl⟩

theorem toList_quoted (s : String) :
    (quoted s).toList = '"' :: (s.toList.flatMap escape ++ ['"']) := by
  rw [quoted, String.toList_ofList]
  rfl

/-- **A quoted text says where it ends** and which string it stands for. -/
theorem quoted_unique {s t : String} {r u : List Char}
    (h : (quoted s).toList ++ r = (quoted t).toList ++ u) : s = t ∧ r = u := by
  rw [toList_quoted, toList_quoted, List.cons_append, List.cons_append, List.append_assoc,
    List.append_assoc] at h
  obtain ⟨hchars, hrest⟩ := escapes_unique (List.cons.inj h).2
  exact ⟨String.toList_inj.mp hchars, hrest⟩

end CalcScript.Text

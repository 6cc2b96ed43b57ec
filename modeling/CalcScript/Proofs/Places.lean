/-
`Proofs/Places.lean` -- the places of tokens, and what a diagnostic shows there.

Two parts of the library count lines and columns, each in its own way. The scanner moves a
place over the text, character by character. A diagnostic cuts the text into lines, takes
the carriage return off a line that a newline ends, begins no line behind the last newline,
and only then looks up the line by its number. Here both are measured against the text
itself: the line of a place is one more than the newlines in front of it, its column is the
number of characters behind the last of them, and the line that a diagnostic shows is the
one that the token begins on.
-/
import CalcScript.Proofs.Scanning
import CalcScript.Text.Excerpt
import Mathlib.Data.List.DropRight

set_option autoImplicit false

namespace CalcScript

open Lexical

/-! ## 1. Counting -/

namespace Text

/-- The characters behind the last newline. -/
def lastLine (cs : List Char) : List Char := cs.rtakeWhile (· ≠ '\n')

theorem lastLine_concat (cs : List Char) (c : Char) :
    lastLine (cs ++ [c]) = if c = '\n' then [] else lastLine cs ++ [c] := by
  by_cases hc : c = '\n' <;> simp [lastLine, hc]

theorem lastLine_eq_self {cs : List Char} (h : '\n' ∉ cs) : lastLine cs = cs := by
  refine List.rtakeWhile_eq_self_iff.mpr fun c hc => ?_
  simp only [decide_eq_true_eq]
  rintro rfl
  exact h hc

/-- What stands in front of a newline is no part of the last line. -/
theorem lastLine_append_newline (cs ds : List Char) :
    lastLine (cs ++ '\n' :: ds) = lastLine ds := by
  induction ds using List.reverseRecOn with
  | nil => simp [lastLine]
  | append_singleton ds c ih =>
    have hassoc : cs ++ '\n' :: (ds ++ [c]) = cs ++ '\n' :: ds ++ [c] := by simp
    rw [hassoc, lastLine_concat, lastLine_concat, ih]

/-- The last line is empty if there is nothing at all, or nothing behind a newline. -/
theorem lastLine_eq_nil_iff {cs : List Char} :
    lastLine cs = [] ↔ cs = [] ∨ cs.getLast? = some '\n' := by
  induction cs using List.reverseRecOn with
  | nil => simp [lastLine]
  | append_singleton cs c ih => by_cases hc : c = '\n' <;> simp [lastLine_concat, hc]

end Text

/-- The place behind a text, counted on the text. -/
theorem Position.advance_start (cs : List Char) :
    Position.start.advance cs = ⟨1 + cs.count '\n', (Text.lastLine cs).length⟩ := by
  induction cs using List.reverseRecOn with
  | nil => rfl
  | append_singleton cs c ih =>
    rw [advance_append, ih, advance_cons, advance_nil, Text.lastLine_concat, after]
    by_cases hc : c = '\n'
    · simp [hc, Nat.add_assoc]
    · simp [hc]

/-! ## 2. Lines by their numbers -/

namespace Text

theorem takeWhile_line {front : List Char} (h : '\n' ∉ front) (behind : List Char) :
    (front ++ behind).takeWhile (· ≠ '\n') = front ++ behind.takeWhile (· ≠ '\n') := by
  refine List.takeWhile_append_of_pos fun c hc => ?_
  simp only [decide_eq_true_eq]
  rintro rfl
  exact h hc

theorem dropWhile_line {front : List Char} (h : '\n' ∉ front) (behind : List Char) :
    (front ++ '\n' :: behind).dropWhile (· ≠ '\n') = '\n' :: behind := by
  rw [List.dropWhile_append_of_pos]
  · simp
  · intro c hc
    simp only [decide_eq_true_eq]
    rintro rfl
    exact h hc

/-- The line that begins behind the last newline of `front` and goes on behind `front`. -/
def lineAt (front behind : List Char) : List Char :=
  lastLine front ++ behind.takeWhile (· ≠ '\n')

/-- Skipping as many lines as there are newlines in front leads to this line. The induction
is on that number; each step cuts `front` at its first newline. -/
theorem line?_append {front behind : List Char} (h : lastLine front ++ behind ≠ []) :
    line? (front.count '\n') (front ++ behind) =
      some (if behind.contains '\n' then dropReturn (lineAt front behind)
        else lineAt front behind) := by
  induction hn : front.count '\n' generalizing front with
  | zero =>
    have hnone : '\n' ∉ front := List.count_eq_zero.mp hn
    rw [lastLine_eq_self hnone] at h
    have hcontains : (front ++ behind).contains '\n' = behind.contains '\n' := by
      simp [hnone]
    rw [line?, hcontains, takeWhile_line hnone, lineAt, lastLine_eq_self hnone]
    exact h
  | succ n ih =>
    have hmem : '\n' ∈ front := List.count_pos_iff.mp (by omega)
    obtain ⟨before, rest, rfl, hbefore⟩ := List.eq_append_cons_of_mem hmem
    have hcount : rest.count '\n' = n := by
      rw [List.count_append, List.count_eq_zero.mpr hbefore, List.count_cons_self] at hn
      omega
    rw [lastLine_append_newline] at h
    have hline : lineAt (before ++ '\n' :: rest) behind = lineAt rest behind := by
      rw [lineAt, lineAt, lastLine_append_newline]
    have hstep : line? (n + 1) (before ++ '\n' :: rest ++ behind) = line? n (rest ++ behind) := by
      rw [line?, List.append_assoc, List.cons_append, dropWhile_line hbefore, List.drop_succ_cons,
        List.drop_zero]
      simp
    rw [hstep, ih h hcount, hline]

/-- No line begins where the text ends and the last line is empty. -/
theorem line?_of_lastLine_eq_nil {cs : List Char} (h : lastLine cs = []) :
    line? (cs.count '\n') cs = none := by
  induction hn : cs.count '\n' generalizing cs with
  | zero =>
    have hnone : '\n' ∉ cs := List.count_eq_zero.mp hn
    rw [lastLine_eq_self hnone] at h
    rw [h, line?]
  | succ n ih =>
    have hmem : '\n' ∈ cs := List.count_pos_iff.mp (by omega)
    obtain ⟨before, rest, rfl, hbefore⟩ := List.eq_append_cons_of_mem hmem
    rw [List.count_append, List.count_eq_zero.mpr hbefore, List.count_cons_self] at hn
    rw [lastLine_append_newline] at h
    rw [line?, dropWhile_line hbefore, List.drop_succ_cons, List.drop_zero, ih h (by omega)]
    simp

/-! ## 3. The caret -/

/-- The text consists of two lines: `shown`, which is the source line without the carriage
returns at its end, and a caret behind `col` characters, tabs where `shown` has tabs and
spaces elsewhere. -/
structure Points (line shown : List Char) (col : Nat) (text : String) : Prop where
  returns : ∃ k, line = shown ++ List.replicate k '\r'
  last : shown.getLast? ≠ some '\r'
  caret : ∃ pad : List Char, pad.length = col ∧
    (∀ i < col, pad[i]? = some (if shown[i]? = some '\t' then '\t' else ' ')) ∧
    text = String.ofList (shown ++ '\n' :: (pad ++ ['^']))

theorem exists_dropReturns (cs : List Char) :
    ∃ k, cs = dropReturns cs ++ List.replicate k '\r' := by
  have hsplit : cs.rdropWhile (· = '\r') ++ cs.rtakeWhile (· = '\r') = cs :=
    List.rdropWhile_append_rtakeWhile
  have hreturns : cs.rtakeWhile (· = '\r') =
      List.replicate (cs.rtakeWhile (· = '\r')).length '\r' := by
    refine List.eq_replicate_of_mem fun c hc => ?_
    simpa using List.mem_rtakeWhile_imp hc
  refine ⟨(cs.rtakeWhile (· = '\r')).length, ?_⟩
  rw [← hreturns]
  exact hsplit.symm

theorem getLast?_dropReturns (cs : List Char) : (dropReturns cs).getLast? ≠ some '\r' := by
  have hdrop : dropReturns cs = cs.rdropWhile (· = '\r') := rfl
  rw [hdrop]
  intro hlast
  obtain ⟨hne, hget⟩ := List.mem_getLast?_eq_getLast hlast
  exact List.rdropWhile_last_not (· = '\r') cs hne (by simpa using hget.symm)

theorem exists_dropReturn (cs : List Char) : ∃ k, cs = dropReturn cs ++ List.replicate k '\r' := by
  rw [dropReturn]
  split
  · next hlast =>
    refine ⟨1, ?_⟩
    obtain ⟨ds, rfl⟩ := List.getLast?_eq_some_iff.mp hlast
    simp
  · exact ⟨0, by simp⟩

/-- Carriage returns at the end are no tabs. -/
theorem getElem?_append_returns (cs : List Char) (k i : Nat) :
    (cs ++ List.replicate k '\r')[i]? = some '\t' ↔ cs[i]? = some '\t' := by
  by_cases hi : i < cs.length
  · rw [List.getElem?_append_left hi]
  · rw [List.getElem?_append_right (by omega), List.getElem?_replicate,
      List.getElem?_eq_none (by omega)]
    split <;> simp

theorem getElem?_caretIndent (cs : List Char) {col i : Nat} (hi : i < col) :
    (caretIndent cs col)[i]? = some (if cs[i]? = some '\t' then '\t' else ' ') := by
  rw [caretIndent]
  by_cases hcs : i < cs.length
  · rw [List.getElem?_append_left (by simp; omega), List.getElem?_map, List.getElem?_take_of_lt hi,
      List.getElem?_eq_getElem hcs]
    by_cases htab : cs[i] = '\t' <;> simp [htab]
  · rw [List.getElem?_append_right (by simp; omega), List.getElem?_replicate,
      List.getElem?_eq_none (by omega), if_pos (by simp; omega)]
    simp

/-- A diagnostic points into the line it has found, whether or not a carriage return has
been cut off that line. -/
theorem points_of_line? {source : String} {p : Position} {line found : List Char} {k : Nat}
    (hfound : line? (p.line - 1) source.toList = some found)
    (hline : line = found ++ List.replicate k '\r') :
    Points line (dropReturns found) p.col (excerpt source p) := by
  obtain ⟨j, hj⟩ := exists_dropReturns found
  refine ⟨⟨j + k, ?_⟩, getLast?_dropReturns found,
    caretIndent found p.col, length_caretIndent found p.col, fun i hi => ?_, ?_⟩
  · rw [hline, ← List.replicate_append_replicate, ← List.append_assoc, ← hj]
  · rw [getElem?_caretIndent found hi]
    have htab : found[i]? = some '\t' ↔ (dropReturns found)[i]? = some '\t' := by
      rw [← getElem?_append_returns (dropReturns found) j i, ← hj]
    simp only [htab]
  · rw [excerpt, hfound]
    simp [String.append_assoc]

/-- What does not end the line and is no carriage return is shown. -/
theorem Points.getElem?_shown {cs shown : List Char} {col i : Nat} {text : String} {c : Char}
    (h : Points cs shown col text) (hc : c ≠ '\r') (hi : cs[i]? = some c) :
    shown[i]? = some c := by
  obtain ⟨k, hk⟩ := h.returns
  rw [hk] at hi
  by_cases hlt : i < shown.length
  · rwa [List.getElem?_append_left hlt] at hi
  · rw [List.getElem?_append_right (by omega), List.getElem?_replicate] at hi
    split at hi
    · exact absurd (Option.some.inj hi).symm hc
    · cases hi

/-- A diagnostic has two lines unless it has nothing to show. -/
theorem Points.ne_atEnd {line shown : List Char} {col : Nat} {text : String}
    (h : Points line shown col text) : text ≠ "at end of input" := by
  obtain ⟨pad, -, -, rfl⟩ := h.caret
  intro heq
  have hmem : '\n' ∈ "at end of input".toList := by
    rw [← heq, String.toList_ofList]
    simp
  exact absurd hmem (by decide)

/-- At a place behind `front` a diagnostic shows the line there, unless nothing is left of
the text and nothing stands on the line. -/
theorem points_excerpt {source : String} {front behind : List Char}
    (hsource : source.toList = front ++ behind) (h : lastLine front ++ behind ≠ []) :
    ∃ shown, Points (lineAt front behind) shown (lastLine front).length
      (excerpt source (Position.start.advance front)) := by
  have hpos := Position.advance_start front
  have hline := line?_append h
  have hnumber : (Position.start.advance front).line - 1 = front.count '\n' := by
    rw [hpos]
    simp
  have hcol : (Position.start.advance front).col = (lastLine front).length := by rw [hpos]
  rw [← hnumber, ← hsource] at hline
  obtain ⟨k, hk⟩ : ∃ k, lineAt front behind = (if behind.contains '\n' then
      dropReturn (lineAt front behind) else lineAt front behind) ++ List.replicate k '\r' := by
    split
    · exact exists_dropReturn _
    · exact ⟨0, by simp⟩
  have hpoints := points_of_line? hline hk
  rw [hcol] at hpoints
  exact ⟨_, hpoints⟩

end Text

/-! ## 4. Tokens -/

/-- A lexeme begins with no blank. -/
theorem Lexical.Bare.head_notMem {c : Char} {cs : List Char} (h : Bare (c :: cs)) :
    c ∉ [' ', '\t', '\n', '\x0c', '\r'] := by
  intro hc
  have hnil := h [c] cs rfl (.blank hc .nil)
  cases hnil

/-- The token of the end is the last one, and nothing of the text is left for it. -/
theorem finish_of_cut {source : String} {tokens before after : List (List Char × Token)}
    {gap : List Char} {t : Token} (htokens : tokens.map Prod.snd = (scan source).all)
    (hsplit : tokens = before ++ (gap, t) :: after) (hfinish : t.kind = .finish) :
    after = [] ∧ t.lexeme = "" := by
  have hall : before.map Prod.snd ++ t :: after.map Prod.snd =
      (scan source).tokens ++ [.finish (scan source).finish] := by
    rw [← Scan.all, ← htokens, hsplit]
    simp
  rcases List.eq_nil_or_concat after with rfl | ⟨init, last, rfl⟩
  · obtain ⟨-, hlast⟩ := List.append_inj' hall rfl
    obtain rfl := (List.cons.inj hlast).1
    exact ⟨rfl, rfl⟩
  · -- otherwise the token would be one of those in front of the end
    have hmem : t ∈ (scan source).tokens := by
      have hinit : before.map Prod.snd ++ t :: init.map Prod.snd ++ [last.2] =
          (scan source).tokens ++ [.finish (scan source).finish] := by
        rw [← hall]
        simp
      obtain ⟨htokens, -⟩ := List.append_inj' hinit rfl
      rw [← htokens]
      simp
    exact absurd hfinish (kind_ne_finish_of_mem_scan source t hmem)

/-- Places and diagnostics agree with the text. Each token stands on the line numbered by
the newlines in front of its lexeme, and its column is the number of characters on that
line in front of it. A diagnostic at a token shows the line that the lexeme begins on, with
the caret under the lexeme's first character. At the end it shows the last line with the
caret behind it, and if there is no such line it says so. -/
theorem scan_places_are_exact (source : String) :
    ∃ tokens : List (List Char × Token), tokens.map Prod.snd = (scan source).all ∧
      spelled tokens = source.toList ∧
      ∀ before gap t after, tokens = before ++ (gap, t) :: after →
        let front := spelled before ++ gap
        let behind := t.lexeme.toList ++ spelled after
        IsLayout gap behind ∧
        t.pos.line = 1 + front.count '\n' ∧ t.pos.col = (Text.lastLine front).length ∧
        (t.kind ≠ .finish → ∃ c shown, t.lexeme.toList.head? = some c ∧
          shown[t.pos.col]? = some c ∧
          Text.Points (Text.lineAt front behind) shown t.pos.col (Text.excerpt source t.pos)) ∧
        (t.kind = .finish →
          (Text.excerpt source t.pos = "at end of input" ↔
            source = "" ∨ source.toList.getLast? = some '\n') ∧
          (¬ (source = "" ∨ source.toList.getLast? = some '\n') →
            ∃ shown, Text.Points (Text.lastLine source.toList) shown
              (Text.lastLine source.toList).length (Text.excerpt source t.pos))) := by
  obtain ⟨tokens, htokens, hspelled, hcut⟩ := exists_cut .start source.toList
  refine ⟨tokens, htokens, hspelled, fun before gap t after hsplit => ?_⟩
  have hplaced := hcut before gap t after hsplit
  have hsource : source.toList = spelled before ++ gap ++ (t.lexeme.toList ++ spelled after) := by
    rw [← hspelled, hsplit]
    simp [spelled]
  have hpos := hplaced.pos.trans (Position.advance_start _)
  refine ⟨hplaced.layout, by rw [hpos], by rw [hpos], fun hkind => ?_, fun hkind => ?_⟩
  · -- the lexeme has a first character, which is shown because it is no carriage return
    cases hlexeme : t.lexeme.toList with
    | nil => exact absurd (hplaced.nonempty hlexeme) hkind
    | cons c cs =>
      rw [hlexeme] at hsource
      have hblank : c ∉ [' ', '\t', '\n', '\x0c', '\r'] := by
        have hbare := hplaced.bare
        rw [hlexeme] at hbare
        exact hbare.head_notMem
      obtain ⟨shown, hpoints⟩ := Text.points_excerpt hsource (by simp)
      have hcol : t.pos.col = (Text.lastLine (spelled before ++ gap)).length := by rw [hpos]
      have hnewline : c ≠ '\n' := fun h => hblank (by simp [h])
      have hreturn : c ≠ '\r' := fun h => hblank (by simp [h])
      rw [← hplaced.pos, ← hcol] at hpoints
      refine ⟨c, shown, rfl, hpoints.getElem?_shown hreturn ?_, hpoints⟩
      rw [Text.lineAt, List.getElem?_append_right (by omega), hcol]
      simp [hnewline]
  · obtain ⟨rfl, hlexeme⟩ := finish_of_cut htokens hsplit hkind
    -- nothing stands behind the last token, so all of the source stands in front of it
    have hfront : spelled before ++ gap = source.toList := by
      rw [hsource, hlexeme]
      simp [spelled]
    have hempty : source = "" ↔ source.toList = [] := String.toList_eq_nil_iff.symm
    have hline : Text.lineAt source.toList [] = Text.lastLine source.toList := by
      simp [Text.lineAt]
    rw [hplaced.pos, hfront, hempty, ← Text.lastLine_eq_nil_iff]
    have hshows : Text.lastLine source.toList ≠ [] →
        ∃ shown, Text.Points (Text.lastLine source.toList) shown
          (Text.lastLine source.toList).length
          (Text.excerpt source (Position.start.advance source.toList)) := by
      intro hne
      obtain ⟨shown, hpoints⟩ := Text.points_excerpt (List.append_nil source.toList).symm
        (by simpa using hne)
      rw [hline] at hpoints
      exact ⟨shown, hpoints⟩
    refine ⟨⟨fun hend => ?_, fun hnil => ?_⟩, hshows⟩
    · -- a last line with something in it would be shown, and no line that is shown looks like that
      by_contra hne
      obtain ⟨shown, hpoints⟩ := hshows hne
      exact hpoints.ne_atEnd hend
    · -- the last line is empty, and the excerpt finds no line with its number
      have hnumber : (Position.start.advance source.toList).line - 1 =
          source.toList.count '\n' := by
        rw [Position.advance_start]
        simp
      rw [Text.excerpt, hnumber, Text.line?_of_lastLine_eq_nil hnil]

/-- The caret under a character behind a tab and a letter of two bytes, on a line that ends
with two carriage returns. -/
theorem scan_places_behind_tab :
    let source := "x :=\n\t\"é\" @\r\r\ny"
    let t : Token := ⟨.malformed (.unexpected '@'), "@", ⟨2, 5⟩⟩
    t ∈ (scan source).all ∧ ∃ front behind shown : List Char,
      source.toList = front ++ '@' :: behind ∧ front.count '\n' = 1 ∧
      (Text.lastLine front).length = 5 ∧ shown[5]? = some '@' ∧
      Text.Points (Text.lineAt front ('@' :: behind)) shown 5 "\t\"é\" @\n\t    ^" := by
  intro source t
  obtain ⟨tokens, htokens, hspelled, hplaces⟩ := scan_places_are_exact source
  have hmem : t ∈ (scan source).all := by decide +kernel
  rw [← htokens] at hmem
  obtain ⟨⟨gap, u⟩, hpair, hu⟩ := List.mem_map.mp hmem
  obtain rfl : u = t := hu
  obtain ⟨before, after, hsplit⟩ := List.append_of_mem hpair
  obtain ⟨-, hline, hcol, hshows, -⟩ := hplaces before gap t after hsplit
  obtain ⟨c, shown, hhead, hshown, hpoints⟩ := hshows nofun
  have hlexeme : t.lexeme.toList = ['@'] := by decide +kernel
  rw [hlexeme] at hhead hpoints
  obtain rfl : '@' = c := Option.some.inj hhead
  have htext : Text.excerpt source t.pos = "\t\"é\" @\n\t    ^" := by decide +kernel
  rw [htext] at hpoints
  rw [htokens] at hmem
  refine ⟨hmem, spelled before ++ gap, spelled after, shown, ?_, ?_, hcol.symm, hshown, hpoints⟩
  · rw [← hspelled, hsplit]
    simp [spelled, hlexeme]
  · have htwo : 2 = 1 + (spelled before ++ gap).count '\n' := hline
    omega

end CalcScript

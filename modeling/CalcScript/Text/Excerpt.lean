/-
`Text/Excerpt.lean` -- the source line of a diagnostic, with a caret under it.
-/
import CalcScript.Position

set_option autoImplicit false

namespace CalcScript.Text

/-- Drops one carriage return from the end. -/
def dropReturn (cs : List Char) : List Char :=
  if cs.getLast? = some '\r' then cs.dropLast else cs

/-- Drops all carriage returns from the end. -/
def dropReturns (cs : List Char) : List Char :=
  (cs.reverse.dropWhile (· = '\r')).reverse

/-- Line number `n` of a text, counted from zero. A newline ends a line, and a
carriage return right in front of it is no part of the line. Behind the last
newline a line begins only if there is a character to put on it. -/
def line? : Nat → List Char → Option (List Char)
  | _, [] => none
  | 0, cs =>
    let line := cs.takeWhile (· ≠ '\n')
    some (if cs.contains '\n' then dropReturn line else line)
  | n + 1, cs => line? n ((cs.dropWhile (· ≠ '\n')).drop 1)

/-- What stands in front of the caret: a tab under a tab, else a space. -/
def caretIndent (line : List Char) (col : Nat) : List Char :=
  (line.take col).map (fun c => if c = '\t' then '\t' else ' ')
    ++ List.replicate (col - line.length) ' '

theorem length_caretIndent (line : List Char) (col : Nat) :
    (caretIndent line col).length = col := by
  simp only [caretIndent, List.length_append, List.length_map, List.length_take,
    List.length_replicate]
  omega

/-- The source line at a place and a second line with a caret under its column.
A place below the last line has no source line to show. -/
def excerpt (source : String) (p : Position) : String :=
  match line? (p.line - 1) source.toList with
  | none => "at end of input"
  | some line =>
    String.ofList (dropReturns line) ++ "\n" ++ String.ofList (caretIndent line p.col ++ ['^'])

end CalcScript.Text

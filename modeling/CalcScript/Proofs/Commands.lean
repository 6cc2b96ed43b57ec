/-
`Proofs/Commands.lean` -- what the commands make of one program text.

Four commands read a program. `tokenize` goes through all its tokens, while `parse`, `run`
and `eval` stop at the first problem; each of them has its own way from a problem to a
report. They agree nevertheless. A program is rejected by all commands that read a tree or
by none (`parse_eq_of_error`, `run_eq_of_error`), with the same complaint, and one with a
malformed token is rejected, because a program that is accepted has been read to its end
(`Expr.isWord_of_parse`). What an accepted program does is never reported as a rejection
(`Session.evaluateExpr_ne_parse`).
-/
import CalcScript.CommandLine
import CalcScript.Proofs.Composition

set_option autoImplicit false

namespace CalcScript

/-! ## 1. Accepted programs have no malformed token -/

/-- Reading a program to its end means having looked at every token of it. -/
theorem Expr.isWord_of_parse {source : String} {e : Expr} (h : Expr.parse source = .ok e) :
    ∀ t ∈ (scan source).all, ∀ m, t.kind ≠ .malformed m := by
  intro t ht m hm
  rw [Scan.all, List.mem_append, List.mem_singleton] at ht
  rcases ht with ht | rfl
  · have hword := (Expr.derives_of_parse h).isWord t ht
    rw [hm] at hword
    cases hword
  · cases hm

namespace Session

/-- A session rejects a program before it evaluates anything, never afterwards. -/
theorem evaluateExpr_ne_parse (s : Session) (e : Expr) (source : String) (err : ParseError) :
    (s.evaluateExpr e).1 ≠ .error (.parse source err) := by
  intro h
  rw [evaluateExpr] at h
  cases hx : eval depth e globals s.machine with
  | ok value m =>
    rw [finish_of_ok hx] at h
    rcases answer_of_flushed h with hanswer | ⟨reason, hanswer⟩ <;> cases hanswer
  | error signal m =>
    rw [finish_of_error hx] at h
    rcases answer_of_flushed h with hanswer | ⟨reason, hanswer⟩
    · cases signal <;> cases hanswer
    · cases hanswer

end Session

namespace CommandLine

variable {source : String}

/-! ## 2. Files -/

/-- A file that holds a text in UTF-8 is read as this text. -/
theorem decode_toUTF8 (source : String) : decode source.toUTF8 = .ok source := by
  have hvalid : String.fromUTF8? source.toUTF8 = some source := by
    simp only [String.fromUTF8?, String.toUTF8_eq_toByteArray, dif_pos source.isValidUTF8]
    rfl
  rw [decode, hvalid]

/-- What a command reports on a file that holds the text. -/
def fileReport (source path : String) (command : FileCommand) : Report :=
  onFile command path (decode source.toUTF8)

/-! ## 3. Reports -/

/-- Listing the tokens fails exactly if one of them is malformed. -/
theorem tokenize_code_eq_iff (source : String) :
    (tokenize source).code = 65 ↔ ∃ t ∈ (scan source).all, ∃ m, t.kind = .malformed m := by
  simp only [tokenize, List.isEmpty_iff, List.filterMap_eq_nil_iff]
  constructor
  · intro h
    split at h
    · cases h
    · next hcomplaint =>
      obtain ⟨t, hcomplaint⟩ := not_forall.mp hcomplaint
      obtain ⟨ht, hne⟩ := Classical.not_imp.mp hcomplaint
      refine ⟨t, ht, ?_⟩
      split at hne
      · next m hm => exact ⟨m, hm⟩
      · exact absurd rfl hne
  · rintro ⟨t, ht, m, hm⟩
    rw [if_neg]
    intro hnone
    have hcomplaint := hnone t ht
    rw [hm] at hcomplaint
    cases hcomplaint

theorem parse_code_of_ok {e : Expr} (h : Expr.parse source = .ok e) (asJson : Bool) :
    (parse asJson source).code = 0 := by
  rw [parse, h]

theorem parse_eq_of_error {err : ParseError} (h : Expr.parse source = .error err) (asJson : Bool) :
    parse asJson source = ⟨65, .empty, asLine (err.text source)⟩ := by
  rw [parse, h]

/-- Evaluation of a program that is rejected writes nothing and complains as reading does. -/
theorem run_eq_of_error {err : ParseError} (h : Expr.parse source = .error err) :
    run source = ⟨65, .empty, asLine (err.text source)⟩ := by
  rw [run, Session.evaluate, h]
  rfl

/-- Once it is accepted, a program succeeds or fails at run time. -/
theorem run_code_of_ok {e : Expr} (h : Expr.parse source = .ok e) :
    (run source).code = 0 ∨ (run source).code = 70 := by
  rw [run, Session.evaluate, h]
  dsimp only
  split
  · exact .inl rfl
  · next err s hanswer =>
    have herror : ((Session.new .unlimited).evaluateExpr e).1 = .error err := by rw [hanswer]
    cases err with
    | parse text problem => exact absurd herror (Session.evaluateExpr_ne_parse _ e text problem)
    | runtime e => exact .inr rfl
    | flush reason => exact .inr rfl
    | exhausted => exact .inr rfl

/-! ## 4. All commands on one text -/

/-- **The commands agree on malformed programs.** Take any program text, in a file and on
the command line. If `tokenize` rejects it, with code 65, so does `parse`. Both forms of
`parse` reject it if and only if `run` does, and if and only if `eval` does; then all of them
write the same complaint and no output. Otherwise `parse` succeeds, and `run` and `eval`
report the same: success, or a failure at run time. -/
theorem commands_agree_on_rejection (source path : String) :
    ((fileReport source path .tokenize).code = 65 →
      (fileReport source path (.parse false)).code = 65) ∧
    ((fileReport source path (.parse true)).code = 65 ↔
      (fileReport source path (.parse false)).code = 65) ∧
    ((fileReport source path .run).code = 65 ↔
      (fileReport source path (.parse false)).code = 65) ∧
    ((run source).code = 65 ↔ (fileReport source path (.parse false)).code = 65) ∧
    ((fileReport source path (.parse false)).code = 65 → ∃ complaint,
      ∀ report ∈ [fileReport source path (.parse false), fileReport source path (.parse true),
        fileReport source path .run, run source],
      report.stderr = complaint ∧ report.stdout = .empty) ∧
    ((fileReport source path (.parse false)).code = 65 ∨
      (fileReport source path (.parse false)).code = 0) ∧
    ((fileReport source path (.parse false)).code = 0 →
      ((run source).code = 0 ∨ (run source).code = 70) ∧
        run source = fileReport source path .run) := by
  simp only [fileReport, decode_toUTF8, onFile]
  cases h : Expr.parse source with
  | ok e =>
    have hshown : ∀ asJson, (parse asJson source).code = 0 := parse_code_of_ok h
    have hran := run_code_of_ok h
    have hne : (run source).code ≠ 65 := by omega
    have hlisted : (tokenize source).code ≠ 65 := by
      intro hcode
      obtain ⟨t, ht, m, hm⟩ := (tokenize_code_eq_iff source).mp hcode
      exact Expr.isWord_of_parse h t ht m hm
    simp [hshown, hran, hne, hlisted]
  | error err =>
    simp [parse_eq_of_error h, run_eq_of_error h]

end CommandLine

end CalcScript

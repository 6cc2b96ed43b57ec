/-
`Proofs/Layout.lean` -- what stands between tokens has no meaning.

Take the lexemes of a program that has no malformed tokens and write them down again with
other gaps between them. Three things follow, one from the other. The scanner finds the
same tokens, because a gap begins with a blank and a blank ends every lexeme. No two tokens
of a program stand at one place, so the new places are a function of the old ones; the
parser commutes with moving tokens, so it builds the same tree or gives up at the same
token. And the evaluator only carries places along, so both programs do the same.
-/
import CalcScript.Proofs.Composition
import CalcScript.Proofs.Equivariance
import CalcScript.Proofs.Viability

set_option autoImplicit false

namespace CalcScript

open Lexical

/-! ## 1. Gaps -/

namespace Lexical

/-- Blanks and whole comments. A line comment has its newline with it, and a block comment
ends where it first can. -/
inductive Filler : List Char → Prop
  | nil : Filler []
  | blank {c gap} (hc : c ∈ [' ', '\t', '\n', '\x0c', '\r']) (h : Filler gap) : Filler (c :: gap)
  | line {body gap} (hbody : '\n' ∉ body) (h : Filler gap) :
    Filler ('/' :: '/' :: (body ++ '\n' :: gap))
  | block {body gap} (hbody : ¬ ['*', '/'] <:+: body) (h : Filler gap) :
    Filler ('/' :: '*' :: (body ++ '*' :: '/' :: gap))

/-- What separates two tokens, whatever they are: a blank and any filler behind it. -/
inductive IsGap : List Char → Prop
  | mk {c gap} (hc : c ∈ [' ', '\t', '\n', '\x0c', '\r']) (h : Filler gap) : IsGap (c :: gap)

theorem IsGap.filler {gap : List Char} (h : IsGap gap) : Filler gap := by
  cases h with
  | mk hc h => exact .blank hc h

end Lexical

/-- A comment is closed by the first mark that can close it. -/
theorem commentRest?_of_not_infix {body : List Char} (h : ¬ ['*', '/'] <:+: body)
    (tail : List Char) :
    commentRest? (body ++ '*' :: '/' :: tail) = some (body ++ ['*', '/']) := by
  induction body with
  | nil => rfl
  | cons c body ih =>
    have htail : ¬ ['*', '/'] <:+: body := fun hbody =>
      h (hbody.trans (List.suffix_cons c body).isInfix)
    rw [List.cons_append, commentRest?, ih htail]
    · rfl
    · -- the mark would begin here, and what follows it is in the body or is a star
      rintro rest rfl hrest
      cases body with
      | nil => cases hrest
      | cons d body =>
        obtain ⟨rfl, -⟩ := List.cons.inj hrest
        exact h (List.prefix_append ['*', '/'] body).isInfix

/-- A piece of layout gives no token. -/
theorem scanFrom_layout {c : Char} {cs chars rest : List Char} (pos : Position)
    (hfirst : Piece.first c cs = .layout chars) (hrest : chars ++ rest = c :: cs) :
    scanFrom pos 0 (c :: cs) = scanFrom (pos.advance chars) 0 rest := by
  have hchars : (Piece.first c cs).chars ++ rest = c :: cs := by
    rw [hfirst]
    exact hrest
  have hpiece := scanFrom_piece pos hchars
  rw [hfirst] at hpiece
  exact hpiece

theorem scanFrom_blank {c : Char} (hc : c ∈ [' ', '\t', '\n', '\x0c', '\r']) (pos : Position)
    (tail : List Char) : scanFrom pos 0 (c :: tail) = scanFrom (pos.after c) 0 tail := by
  have hfirst : Piece.first c tail = .layout [c] := by
    rw [Piece.first, if_pos (Piece.mem_blanks.mp hc)]
  exact scanFrom_layout pos hfirst rfl

/-- Scanning walks over filler, whatever stands behind it. -/
theorem scanFrom_filler {gap : List Char} (h : Filler gap) (pos : Position) (tail : List Char) :
    scanFrom pos 0 (gap ++ tail) = scanFrom (pos.advance gap) 0 tail := by
  induction h generalizing pos with
  | nil => rfl
  | blank hc _ ih => rw [List.cons_append, scanFrom_blank hc, ih, Position.advance_cons]
  | @line body gap hbody _ ih =>
    -- the comment ends at its own line break: there is none inside
    have hcomment : (body ++ '\n' :: (gap ++ tail)).takeWhile (· ≠ '\n') = body := by
      rw [List.takeWhile_append_of_pos]
      · simp
      · intro c hc
        simp only [decide_eq_true_eq]
        rintro rfl
        exact hbody hc
    have hfirst : Piece.first '/' ('/' :: (body ++ '\n' :: (gap ++ tail))) =
        .layout ('/' :: '/' :: body) := by
      rw [← congrArg (fun cs => Piece.layout ('/' :: '/' :: cs)) hcomment]
      rfl
    have htext : '/' :: '/' :: (body ++ '\n' :: gap) ++ tail =
        '/' :: '/' :: (body ++ '\n' :: (gap ++ tail)) := by simp
    have hsplit : ('/' :: '/' :: body) ++ '\n' :: (gap ++ tail) =
        '/' :: '/' :: (body ++ '\n' :: (gap ++ tail)) := rfl
    rw [htext, scanFrom_layout pos hfirst hsplit, scanFrom_blank (by simp), ih]
    simp [Position.advance_append]
  | @block body gap hbody _ ih =>
    -- the comment ends at its own end mark: there is none inside
    have hcomment := commentRest?_of_not_infix hbody (gap ++ tail)
    have hfirst : Piece.first '/' ('*' :: (body ++ '*' :: '/' :: (gap ++ tail))) =
        .layout ('/' :: '*' :: (body ++ ['*', '/'])) := by
      have hblank : Text.isLayoutBlank '/' = false := rfl
      simp only [Piece.first, hblank, Piece.comment?, hcomment, Bool.false_eq_true, if_false,
        if_true, Option.getD_some]
    have htext : '/' :: '*' :: (body ++ '*' :: '/' :: gap) ++ tail =
        '/' :: '*' :: (body ++ '*' :: '/' :: (gap ++ tail)) := by simp
    have hsplit : '/' :: '*' :: (body ++ ['*', '/']) ++ (gap ++ tail) =
        '/' :: '*' :: (body ++ '*' :: '/' :: (gap ++ tail)) := by simp
    rw [htext, scanFrom_layout pos hfirst hsplit, ih]
    simp [Position.advance_append]

/-! ## 2. Lexemes between gaps -/

/-- The characters of tokens, each with a gap behind it. -/
def laidOutChars (ws : List (Token × List Char)) : List Char :=
  ws.flatMap fun (t, gap) => t.lexeme.toList ++ gap

/-- The program with the given lexemes, a gap in front and one behind each. -/
def laidOut (lead : List Char) (ws : List (Token × List Char)) : String :=
  String.ofList (lead ++ laidOutChars ws)

/-- Lexemes between gaps are scanned as the tokens they spell. The induction is on the
tokens; the gap behind each is the one in front of the next. -/
theorem scanFrom_laidOut {lead : List Char} {ws : List (Token × List Char)} (pos : Position)
    (hlead : IsGap lead) (hws : ∀ w ∈ ws, w.1.Spelled ∧ IsGap w.2) :
    (scanFrom pos 0 (lead ++ laidOutChars ws)).tokens.map Token.word =
      ws.map fun w => w.1.word := by
  induction ws generalizing pos lead with
  | nil =>
    rw [scanFrom_filler hlead.filler]
    rfl
  | cons w ws ih =>
    obtain ⟨t, gap⟩ := w
    obtain ⟨⟨hspelled, hgap⟩, htail⟩ := List.forall_mem_cons.mp hws
    have hbehind := ih ((pos.advance lead).advance t.lexeme.toList) hgap htail
    rw [scanFrom_filler hlead.filler]
    rw [Token.Spelled] at hspelled
    cases hlexeme : t.lexeme.toList with
    | nil => exact absurd hlexeme hspelled.ne_nil
    | cons c cs =>
      rw [hlexeme] at hspelled hbehind
      cases hgap with
      -- the blank that begins the gap ends the lexeme
      | @mk b rest hb hrest =>
        have hchars : laidOutChars ((t, b :: rest) :: ws) =
            c :: (cs ++ b :: (rest ++ laidOutChars ws)) := by
          simp [laidOutChars, hlexeme]
        have hfirst := Piece.first_of_spells hspelled (Piece.mem_blanks.mp hb)
          (rest ++ laidOutChars ws)
        have hsplit : (Piece.first c (cs ++ b :: (rest ++ laidOutChars ws))).chars ++
            b :: (rest ++ laidOutChars ws) = c :: (cs ++ b :: (rest ++ laidOutChars ws)) := by
          rw [hfirst]
          rfl
        rw [hchars, scanFrom_piece _ hsplit, hfirst]
        refine List.cons_eq_cons.mpr ⟨?_, hbehind⟩
        simp only [Token.word, Piece.lexeme, ← hlexeme, String.ofList_toList]

/-! ## 3. No two tokens at one place -/

/-- The first place is on an earlier line, or further to the left on the same. -/
def Position.Before (p q : Position) : Prop :=
  p.line < q.line ∨ p.line = q.line ∧ p.col < q.col

theorem Position.before_after (p : Position) (c : Char) : p.Before (p.after c) := by
  unfold after
  split
  · exact .inl (Nat.lt_succ_self _)
  · exact .inr ⟨rfl, Nat.lt_succ_self _⟩

theorem Position.Before.trans {p q r : Position} (h₁ : p.Before q) (h₂ : q.Before r) :
    p.Before r := by
  unfold Before at *
  omega

theorem Position.Before.ne {p q : Position} (h : p.Before q) : p ≠ q := by
  rintro rfl
  unfold Before at h
  omega

theorem Position.before_advance (p : Position) {cs : List Char} (h : cs ≠ []) :
    p.Before (p.advance cs) := by
  induction cs generalizing p with
  | nil => exact absurd rfl h
  | cons c cs ih =>
    by_cases hcs : cs = []
    · rw [hcs]
      exact p.before_after c
    · exact (p.before_after c).trans (ih (p.after c) hcs)

/-- Tokens stand behind the place where scanning begins, or at it. -/
theorem exists_advance_of_mem_scanFrom {pos : Position} {skip : Nat} {cs : List Char} :
    ∀ t ∈ (scanFrom pos skip cs).all, ∃ ds, t.pos = pos.advance ds := by
  fun_induction scanFrom pos skip cs with
  | case1 pos skip =>
    intro t ht
    obtain rfl := List.mem_singleton.mp ht
    exact ⟨[], rfl⟩
  | case2 pos skip c cs ih =>
    intro t ht
    obtain ⟨ds, hds⟩ := ih t ht
    exact ⟨c :: ds, hds⟩
  | case3 pos c cs piece hkind ih =>
    intro t ht
    obtain ⟨ds, hds⟩ := ih t ht
    exact ⟨c :: ds, hds⟩
  | case4 pos c cs piece kind hkind ih =>
    intro t ht
    rcases List.mem_cons.mp ht with rfl | ht
    · exact ⟨[], rfl⟩
    · obtain ⟨ds, hds⟩ := ih t ht
      exact ⟨c :: ds, hds⟩

/-- Each token stands behind all tokens in front of it. -/
theorem pairwise_before_scanFrom (pos : Position) (skip : Nat) (cs : List Char) :
    (scanFrom pos skip cs).all.Pairwise fun t u => t.pos.Before u.pos := by
  fun_induction scanFrom pos skip cs with
  | case1 => exact List.pairwise_singleton _ _
  | case2 pos skip c cs ih => exact ih
  | case3 pos c cs piece hkind ih => exact ih
  | case4 pos c cs piece kind hkind ih =>
    refine List.pairwise_cons.mpr ⟨fun u hu => ?_, ih⟩
    obtain ⟨ds, hds⟩ := exists_advance_of_mem_scanFrom u hu
    rw [hds]
    exact pos.before_advance (List.cons_ne_nil c ds)

/-- Tokens of the same words, of which the first ones stand at different places, differ by
a function on places. -/
theorem Token.exists_relocate {ts us : List Token}
    (hplaces : ts.Pairwise fun t u => t.pos.Before u.pos)
    (hwords : us.map Token.word = ts.map Token.word) :
    ∃ f : Position → Position, us = ts.map (Token.relocate f) := by
  induction ts generalizing us with
  | nil => exact ⟨id, List.map_eq_nil_iff.mp hwords⟩
  | cons t ts ih =>
    obtain ⟨u, us', rfl, hhead, htail⟩ := List.map_eq_cons_iff.mp hwords
    obtain ⟨hfirst, hplaces⟩ := List.pairwise_cons.mp hplaces
    obtain ⟨f, rfl⟩ := ih hplaces htail
    refine ⟨fun p => if p = t.pos then u.pos else f p, List.cons_eq_cons.mpr ⟨?_, ?_⟩⟩
    · obtain ⟨hkind, hlexeme⟩ := Prod.mk.inj hhead
      obtain ⟨kind, lexeme, pos⟩ := u
      simp only [relocate, if_true, Token.mk.injEq, and_true]
      exact ⟨hkind, hlexeme⟩
    · -- the tokens behind stand elsewhere, so for them nothing has changed
      refine List.map_congr_left fun v hv => ?_
      rw [relocate, relocate, if_neg (hfirst v hv).ne.symm]

/-! ## 4. Trees -/

/-- A program whose tokens are those of another one, moved, is read alike. -/
theorem Expr.parse_of_relocated {source source' : String} {f : Position → Position}
    (h : (scan source').all = (scan source).all.map (Token.relocate f)) :
    Expr.parse source' = Parser.moved f (Expr.relocate f) (Expr.parse source) := by
  rw [Scan.all, Scan.all, List.map_append] at h
  obtain ⟨htokens, hend⟩ := List.append_inj' h rfl
  have hfinish : (scan source').finish = f (scan source).finish :=
    congrArg Token.pos (List.cons.inj hend).1
  rw [Expr.parse, Expr.parse, ← Parser.program_relocate, Cursor.relocate, htokens, hfinish]

/-- Without malformed tokens a program is rejected for its syntax, at one of its tokens. -/
theorem Expr.parse_error_at_token {source : String} {err : ParseError}
    (hwords : ∀ t ∈ (scan source).tokens, ∀ m, t.kind ≠ .malformed m)
    (h : Expr.parse source = .error err) :
    err.problem.isSyntax ∧ ∃ (i : Nat) (t : Token), (scan source).all[i]? = some t ∧
      err.pos = t.pos := by
  obtain ⟨problem, pos⟩ := err
  obtain ⟨ts, x, hcursor, -, hpos, hcases⟩ := Parser.program_error h
  obtain ⟨post, hpost⟩ := x.exists_all
  have htokens : (scan source).tokens = ts ++ x.rest := congrArg Cursor.rest hcursor
  have hfinish : (scan source).finish = x.finish := congrArg Cursor.finish hcursor
  refine ⟨?_, ts.length, x.current, ?_, hpos⟩
  · rcases hcases with ⟨m, -, hkind⟩ | ⟨hkinds, -⟩
    · -- the token would be one of the program, and these are well formed
      exfalso
      rw [Cursor.kind, Cursor.current] at hkind
      cases hrest : x.rest with
      | nil => rw [hrest] at hkind; cases hkind
      | cons t rest =>
        rw [hrest] at hkind
        exact hwords t (by rw [htokens, hrest]; simp) m hkind
    · exact hkinds
  · rw [Scan.all, htokens, hfinish, List.append_assoc, hpost]
    simp

/-! ## 5. Sessions -/

/-- The error without places, and without the text that they are places in. -/
def Error.bare : Error → Error
  | .parse _ e => .parse "" ⟨e.problem, .start⟩
  | e => e.relocate fun _ => .start

theorem Signal.bare_toError (signal : Signal) :
    signal.toError.bare = (signal.relocate fun _ => .start).toError := by
  cases signal <;> rfl

theorem Machine.sink_eq_of_bare {m m' : Machine} (h : m'.bare = m.bare) : m'.sink = m.sink := by
  have hsink : m'.bare.sink = m.bare.sink := congrArg Machine.sink h
  exact hsink

namespace Session

/-- The session without the places in its functions. -/
def bare (s : Session) : Session := ⟨s.machine.bare⟩

theorem bare_flushed {m m' : Machine} (h : m'.bare = m.bare) :
    bare ⟨m'.store, m'.sink.flush.2⟩ = bare ⟨m.store, m.sink.flush.2⟩ := by
  have hstore : m'.bare.store = m.bare.store := congrArg Machine.store h
  have hsink := Machine.sink_eq_of_bare h
  have hbare : ∀ m₁ : Machine, bare ⟨m₁.store, m₁.sink.flush.2⟩ =
      ⟨m₁.bare.store, m₁.sink.flush.2⟩ := fun _ => rfl
  rw [hbare, hbare, hstore, hsink]

/-- Runs that differ in places only have answers that differ in places only. -/
theorem finish_bare_congr {s : Session} {x x' : Eval Value}
    (h : Eval.outcomeAt (fun _ => .start) (x' s.machine) =
      Eval.outcomeAt (fun _ => .start) (x s.machine)) :
    (s.finish x').1.mapError Error.bare = (s.finish x).1.mapError Error.bare ∧
      (s.finish x').2.bare = (s.finish x).2.bare := by
  cases hx : x s.machine with
  | ok v m =>
    cases hx' : x' s.machine with
    | error signal' m' => rw [hx, hx'] at h; cases h
    | ok v' m' =>
      rw [hx, hx'] at h
      obtain ⟨rfl, hm⟩ := EStateM.Result.ok.inj h
      rw [finish_of_ok hx, finish_of_ok hx', Machine.sink_eq_of_bare hm]
      exact ⟨rfl, Machine.sink_eq_of_bare hm ▸ bare_flushed hm⟩
  | error signal m =>
    cases hx' : x' s.machine with
    | ok v' m' => rw [hx, hx'] at h; cases h
    | error signal' m' =>
      rw [hx, hx'] at h
      obtain ⟨hsignal, hm⟩ := EStateM.Result.error.inj h
      have herror : signal'.toError.bare = signal.toError.bare := by
        rw [signal'.bare_toError, signal.bare_toError, hsignal]
      rw [finish_of_error hx, finish_of_error hx', Machine.sink_eq_of_bare hm]
      refine ⟨?_, Machine.sink_eq_of_bare hm ▸ bare_flushed hm⟩
      dsimp only
      cases m.sink.flush.1 with
      | ok => exact congrArg Except.error herror
      | error reason => rfl

/-- Programs that are read alike are evaluated alike. -/
theorem evaluate_of_moved {source source' : String} {f : Position → Position}
    (h : Expr.parse source' = Parser.moved f (Expr.relocate f) (Expr.parse source)) (s : Session) :
    (s.evaluate source').1.mapError Error.bare = (s.evaluate source).1.mapError Error.bare ∧
      (s.evaluate source').2.bare = (s.evaluate source).2.bare := by
  rw [evaluate, evaluate, h]
  cases Expr.parse source with
  | error err => exact ⟨rfl, rfl⟩
  | ok e => exact finish_bare_congr (eval_bare_congr (e.relocate_relocate f _) depth globals _)

end Session

/-! ## 6. Programs laid out anew -/

/-- Layout has no meaning. The lexemes of a program without malformed tokens, written down
with any gaps in front of them, between them and behind them, are the same tokens at other
places. They are read as the same tree at these places, or rejected for the same problem at
the same token. In every session both programs have the same value or the same error, leave
the same output and the same state, but for places. -/
theorem layout_has_no_meaning {source : String} {lead : List Char} {ws : List (Token × List Char)}
    (hwords : ∀ t ∈ (scan source).tokens, ∀ m, t.kind ≠ .malformed m)
    (htokens : ws.map Prod.fst = (scan source).tokens) (hlead : IsGap lead)
    (hgaps : ∀ w ∈ ws, IsGap w.2) :
    ∃ f : Position → Position,
      (scan (laidOut lead ws)).all = (scan source).all.map (Token.relocate f) ∧
      ((∃ e, Expr.parse source = .ok e ∧ Expr.parse (laidOut lead ws) = .ok (e.relocate f)) ∨
        ∃ (i : Nat) (t : Token) (problem : Problem), problem.isSyntax ∧
          (scan source).all[i]? = some t ∧ Expr.parse source = .error ⟨problem, t.pos⟩ ∧
          (scan (laidOut lead ws)).all[i]? = some (t.relocate f) ∧
          Expr.parse (laidOut lead ws) = .error ⟨problem, (t.relocate f).pos⟩) ∧
      ∀ s : Session,
        (s.evaluate (laidOut lead ws)).1.mapError Error.bare =
          (s.evaluate source).1.mapError Error.bare ∧
        (s.evaluate (laidOut lead ws)).2.bare = (s.evaluate source).2.bare := by
  -- the lexemes of a source without malformed tokens spell what they are
  have hspelled : ∀ w ∈ ws, w.1.Spelled ∧ IsGap w.2 := by
    intro w hw
    have hmem : w.1 ∈ (scan source).tokens := by
      rw [← htokens]
      exact List.mem_map_of_mem hw
    exact ⟨Token.spelled_of_mem_scan hmem (Token.Kind.isWord_iff.mpr (hwords w.1 hmem)),
      hgaps w hw⟩
  -- so the laid out text has the same words, wherever they stand
  have hscan : (scan (laidOut lead ws)).all.map Token.word =
      (scan source).all.map Token.word := by
    have hlaid : (scan (laidOut lead ws)).tokens.map Token.word = ws.map fun w => w.1.word := by
      rw [scan, laidOut, String.toList_ofList]
      exact scanFrom_laidOut .start hlead hspelled
    rw [Scan.all, Scan.all, List.map_append, List.map_append, hlaid, ← htokens, List.map_map]
    rfl
  -- no two tokens stand at one place, so the new places are a function of the old ones
  obtain ⟨f, hf⟩ := Token.exists_relocate (pairwise_before_scanFrom .start 0 source.toList) hscan
  have hparse := Expr.parse_of_relocated hf
  refine ⟨f, hf, ?_, Session.evaluate_of_moved hparse⟩
  cases h : Expr.parse source with
  | ok e =>
    rw [h] at hparse
    exact .inl ⟨e, rfl, hparse⟩
  | error err =>
    obtain ⟨hkinds, i, t, hi, hpos⟩ := Expr.parse_error_at_token hwords h
    obtain ⟨problem, pos⟩ := err
    obtain rfl : pos = t.pos := hpos
    rw [h] at hparse
    refine .inr ⟨i, t, problem, hkinds, hi, rfl, ?_, hparse⟩
    rw [hf, List.getElem?_map]
    exact congrArg (Option.map (Token.relocate f)) hi

/-- A quotient with a line comment behind each lexeme, also behind the division sign, which
without a blank there would be the first character of the comment. -/
theorem layout_around_division :
    let source := "x:=y/z"
    let spread := "\nx // /*\n:= // /*\ny // /*\n/ // /*\nz // /*\n"
    ∃ f : Position → Position,
      (scan spread).all = (scan source).all.map (Token.relocate f) ∧
      ∀ s : Session, (s.evaluate spread).1.mapError Error.bare =
          (s.evaluate source).1.mapError Error.bare ∧
        (s.evaluate spread).2.bare = (s.evaluate source).2.bare := by
  intro source spread
  let ws := (scan source).tokens.map fun t => (t, " // /*\n".toList)
  have hcomment : Filler "// /*\n".toList :=
    @Filler.line " /*".toList [] (by decide) .nil
  have hgap : IsGap " // /*\n".toList := .mk (by decide) hcomment
  have hlead : IsGap ['\n'] := .mk (by decide) .nil
  have hwords : ∀ t ∈ (scan source).tokens, t.kind.isWord := by decide +kernel
  have htokens : ws.map Prod.fst = (scan source).tokens := by
    rw [List.map_map]
    exact List.map_id _
  have hgaps : ∀ w ∈ ws, IsGap w.2 := by
    intro w hw
    obtain ⟨t, -, rfl⟩ := List.mem_map.mp hw
    exact hgap
  have hspread : laidOut ['\n'] ws = spread := by decide +kernel
  obtain ⟨f, hscan, -, hsessions⟩ := layout_has_no_meaning
    (fun t ht => Token.Kind.isWord_iff.mp (hwords t ht)) htokens hlead hgaps
  rw [hspread] at hscan hsessions
  exact ⟨f, hscan, hsessions⟩

end CalcScript

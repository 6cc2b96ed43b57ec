/-
`Proofs/Viability.lean` -- errors point at the first offending token.

Words are viable if some accepted program begins with them. A program is rejected at its
first malformed token, if that comes first, or else at the token that makes its words not
viable: all that stand in front of it begin some accepted program, and with it none does.

What a run has read where it gives up can be completed to a derivation (`Completable`),
and a derivation can be written down as a program; that makes the words viable. A program
with the offending token in the same place is read alike up to there, whatever follows
(`Tracks`), and so it is rejected too.
-/
import CalcScript.Proofs.Lookahead

set_option autoImplicit false

namespace CalcScript

open Grammar

/-! ## 1. Whole programs -/

namespace Parser

/-- A sequence with the end behind it, as a production. -/
def whole (n : Nat) (c : Cursor) : Read (Expr × Cursor) :=
  sequence n c >>= fun p => if p.2.kind = .finish then .ok p else p.2.fail .expectedEnd

/-- A program is read as a whole, if its first token is not malformed. -/
theorem program_eq (c : Cursor) :
    (∃ p, c.kind = .malformed p ∧ program c = .error ⟨.malformed p, c.pos⟩) ∨
      (c.kind.isWord ∧ program c = whole c.depth c >>= fun p => .ok p.1) := by
  have hprogram : c.check = .ok c → program c = whole c.depth c >>= fun p => .ok p.1 := by
    intro hcheck
    rw [program, hcheck, ok_bind, whole]
    cases sequence c.depth c with
    | error err => rfl
    | ok result =>
      obtain ⟨e, x⟩ := result
      dsimp only [ok_bind]
      split <;> rfl
  cases hkind : c.kind with
  | malformed p =>
    refine .inl ⟨p, rfl, ?_⟩
    rw [program, Cursor.check, hkind]
    rfl
  | _ => exact .inr ⟨rfl, hprogram (by rw [Cursor.check, hkind])⟩

theorem tracks_whole {n : Nat} {c : Cursor} (hc : c.kind.isWord)
    (hdepth : 16 * c.rest.length + 15 ≤ n) : Tracks (Completable .sequence) whole n c := by
  refine .bind ((tracks_productions n).sequence hc hdepth) fun e x ts hread hts hx => ?_
  dsimp only
  by_cases hfinish : x.kind = .finish
  · refine .of_current (fun k y hy => ?_) (.pure hx e)
    rw [Cursor.kind_congr hy, if_pos hfinish]
  · -- what has been read is a program of its own
    have hsequence := ((sound n).sequence hread).derives hts
    refine .of_current (fun k y hy => ?_) (.fail .expectedEnd hx rfl ?_)
    · rw [Cursor.kind_congr hy, if_neg hfinish]
    · rw [List.append_nil]
      exact .of_derives hsequence

/-- Where a program is rejected, and what that says about other programs. -/
theorem program_error {c : Cursor} {problem : Problem} {pos : Position}
    (h : program c = .error ⟨problem, pos⟩) :
    ∃ (ts : List Token) (x : Cursor), c = x.before ts ∧ (∀ t ∈ ts, t.kind.isWord) ∧ pos = x.pos ∧
      ((∃ p, problem = .malformed p ∧ x.kind = .malformed p) ∨
        (problem.isSyntax ∧ x.kind.isWord ∧ Completable .sequence ts ∧
          ∀ x' : Cursor, x'.current = x.current → ∀ e, program (x'.before ts) ≠ .ok e)) := by
  rcases program_eq c with ⟨p, hkind, hprogram⟩ | ⟨hword, hprogram⟩
  · rw [hprogram] at h
    cases h
    exact ⟨[], c, rfl, nofun, rfl, .inl ⟨p, rfl, hkind⟩⟩
  have hrun : whole c.depth c = .error ⟨problem, pos⟩ := by
    rw [hprogram] at h
    cases hwhole : whole c.depth c with
    | ok result =>
      rw [hwhole] at h
      cases h
    | error err =>
      rw [hwhole] at h
      cases h
      rfl
  have hdepth : 16 * c.rest.length + 15 ≤ c.depth := by
    rw [Cursor.depth]
    omega
  obtain ⟨ts, x, hc, hts, hpos, hgives⟩ := (tracks_whole hword hdepth).error hrun
  refine ⟨ts, x, hc, hts, hpos, ?_⟩
  cases hgives with
  | malformed hkind => exact .inl ⟨_, rfl, hkind⟩
  | offended hnext hproblem hcompletable hnever =>
    refine .inr ⟨hproblem, hnext, hcompletable, fun x' hx' e he => ?_⟩
    -- at a depth that is enough for both programs the one cannot be accepted
    generalize hother : x'.before ts = y at he
    rcases program_eq y with ⟨p, -, hy⟩ | ⟨hword', hy⟩
    · rw [hy] at he
      cases he
    rw [hy] at he
    obtain ⟨⟨e', z⟩, hread, -⟩ := bind_eq_ok he
    have hdepth' : 16 * y.rest.length + 15 ≤ y.depth := by
      rw [Cursor.depth]
      omega
    obtain ⟨us, hz, hreplay⟩ := (tracks_whole hword' hdepth').ok hread
    have hmore := hreplay.again (max c.depth y.depth) (Nat.le_max_right _ _) z rfl
    rw [← hz, ← hother] at hmore
    exact hnever _ (Nat.le_max_left _ _) x' hx' _ hmore

end Parser

/-! ## 2. Viable words -/

/-- Some accepted program begins with these words; the word behind its last one is the
end. -/
def Viable (ws : List (Token.Kind × String)) : Prop :=
  ∃ source e, Expr.parse source = .ok e ∧ ws <+: (scan source).all.map Token.word

theorem viable_of_completable {ts : List Token} (h : Parser.Completable .sequence ts)
    (hts : ∀ t ∈ ts, t.Spelled) : Viable (ts.map Token.word) := by
  obtain ⟨us, e, hderives, hus⟩ := h
  obtain ⟨source, e', hparse, -, hwords⟩ :=
    Expr.parse_of_spelled hderives (List.forall_mem_append.mpr ⟨hts, hus⟩)
  refine ⟨source, e', hparse, ?_⟩
  rw [Scan.all, List.map_append, hwords, List.map_append, List.append_assoc]
  exact List.prefix_append _ _

/-- The tokens ahead of a cursor, the end last, begin with its current one. -/
theorem Cursor.exists_all (x : Cursor) :
    ∃ post, x.rest ++ [Token.finish x.finish] = x.current :: post := by
  obtain ⟨rest, finish⟩ := x
  cases rest with
  | nil => exact ⟨[], rfl⟩
  | cons t ts => exact ⟨ts ++ [Token.finish finish], rfl⟩

/-- Words that no program begins with are not viable. -/
theorem not_viable_of_never {ts : List Token} {x : Cursor}
    (hfinish : x.kind = .finish → x.rest = [])
    (hnever : ∀ x' : Cursor, x'.current = x.current → ∀ e, Parser.program (x'.before ts) ≠ .ok e) :
    ¬ Viable ((ts ++ [x.current]).map Token.word) := by
  rintro ⟨source, e, hparse, hfront⟩
  rw [Scan.all, List.map_append, List.map_append, List.map_singleton, List.map_singleton] at hfront
  rcases List.prefix_concat_iff.mp hfront with hall | hfront
  · -- the token is the end, and the words in front of it are all words of the program
    obtain ⟨hwords, hlast⟩ := List.append_inj' hall rfl
    have hkind : x.kind = .finish := congrArg Prod.fst (List.cons.inj hlast).1
    have hsame : (Cursor.mk (scan source).tokens (scan source).finish).rest.map Token.word =
        (x.before ts).rest.map Token.word := by
      rw [Cursor.before, hfinish hkind, List.append_nil]
      exact hwords.symm
    obtain ⟨e', he', -⟩ := Parser.program_of_words hsame hparse
    exact hnever x rfl e' he'
  · -- the token stands in the program, with others behind it
    obtain ⟨ws, hws⟩ := hfront
    obtain ⟨us, vs, htokens, hus, hvs⟩ := List.map_eq_append_iff.mp hws.symm
    have hsame : (Cursor.mk (scan source).tokens (scan source).finish).rest.map Token.word =
        (Cursor.before ⟨x.current :: vs, x.finish⟩ ts).rest.map Token.word := by
      simp only [Cursor.before, htokens, List.map_append, hus, List.map_cons]
      simp
    obtain ⟨e', he', -⟩ := Parser.program_of_words hsame hparse
    exact hnever ⟨x.current :: vs, x.finish⟩ rfl e' he'

theorem Token.Kind.isWord_iff {k : Token.Kind} : k.isWord ↔ ∀ p, k ≠ .malformed p := by
  cases k <;> simp [isWord]

/-! ## 3. The token of an error -/

/-- A program is rejected at its first malformed token, or else at the first token that no
accepted program has behind the words in front of it. Malformed tokens come only behind
that one, and no program that has any is accepted. -/
theorem Expr.parse_error_at_first_offending_token (source : String) :
    (∀ err, Expr.parse source = .error err → ∃ pre t post,
      (scan source).all = pre ++ t :: post ∧ err.pos = t.pos ∧
      (∀ u ∈ pre, ∀ p, u.kind ≠ .malformed p) ∧
      ((∃ p, err.problem = .malformed p ∧ t.kind = .malformed p) ∨
        (err.problem.isSyntax ∧ (∀ p, t.kind ≠ .malformed p) ∧ Viable (pre.map Token.word) ∧
          ¬ Viable ((pre ++ [t]).map Token.word)))) ∧
      ((∃ t ∈ (scan source).tokens, ∃ p, t.kind = .malformed p) →
        ∀ e, Expr.parse source ≠ .ok e) := by
  constructor
  · rintro ⟨problem, pos⟩ hparse
    obtain ⟨ts, x, hc, hts, hpos, hcases⟩ := Parser.program_error hparse
    have htokens : (scan source).tokens = ts ++ x.rest := congrArg Cursor.rest hc
    have hend : (scan source).finish = x.finish := congrArg Cursor.finish hc
    obtain ⟨post, hpost⟩ := x.exists_all
    refine ⟨ts, x.current, post, ?_, hpos,
      fun u hu => Token.Kind.isWord_iff.mp (hts u hu), ?_⟩
    · rw [Scan.all, htokens, hend, List.append_assoc, hpost]
    rcases hcases with hmalformed | ⟨hproblem, hword, hcompletable, hnever⟩
    · exact .inl hmalformed
    refine .inr ⟨hproblem, Token.Kind.isWord_iff.mp hword, ?_, ?_⟩
    · refine viable_of_completable hcompletable fun t ht => ?_
      have hmem : t ∈ (scan source).tokens := by
        rw [htokens]
        exact List.mem_append_left _ ht
      exact Token.spelled_of_mem_scan hmem (hts t ht)
    · refine not_viable_of_never (fun hfinish => ?_) hnever
      cases hrest : x.rest with
      | nil => rfl
      | cons t us =>
        -- no token of a program is the end
        have ht : t ∈ (scan source).tokens := by
          rw [htokens, hrest]
          exact List.mem_append_right _ List.mem_cons_self
        rw [Cursor.kind, Cursor.current, hrest] at hfinish
        exact absurd hfinish (kind_ne_finish_of_mem_scan source t ht)
  · rintro ⟨t, ht, p, hp⟩ e hparse
    have hderives := Parser.derives_of_program (kind_ne_finish_of_mem_scan source) hparse
    have hword := hderives.isWord t ht
    rw [hp] at hword
    cases hword

/-- A call cannot be defined: the error stands at `:=`, though it is raised one token
later. -/
theorem Expr.parse_error_at_store_of_call :
    Expr.parse "f(a) := b" = .error ⟨.badTarget, ⟨1, 5⟩⟩ ∧ ∃ pre t post,
      (scan "f(a) := b").all = pre ++ t :: post ∧ (⟨1, 5⟩ : Position) = t.pos ∧
      (∀ u ∈ pre, ∀ p, u.kind ≠ .malformed p) ∧
      ((∃ p, Problem.badTarget = .malformed p ∧ t.kind = .malformed p) ∨
        (Problem.badTarget.isSyntax ∧ (∀ p, t.kind ≠ .malformed p) ∧
          Viable (pre.map Token.word) ∧ ¬ Viable ((pre ++ [t]).map Token.word))) := by
  have hparse : Expr.parse "f(a) := b" = .error ⟨.badTarget, ⟨1, 5⟩⟩ := rfl
  exact ⟨hparse, (Expr.parse_error_at_first_offending_token "f(a) := b").1 _ hparse⟩

end CalcScript

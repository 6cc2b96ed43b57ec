/-
`Proofs/Composition.lean` -- one program behind another.

Two programs with a semicolon on a line of its own between them are one program:
its tokens are those of both, the second ones further down, and its tree is the
sequence of all their expressions. Evaluating it is evaluating one after the
other: either the first fails and nothing else happens, or the second finds the
session as the first has left it. What is otherwise is said by a `Drift`: the
places of the second program are further down, and a sink is flushed once
instead of twice.
-/
import CalcScript.Proofs.Exits
import CalcScript.Proofs.Separation
import CalcScript.Proofs.Similarity

set_option autoImplicit false

namespace CalcScript

open Eval Grammar

/-! ## 1. Sequences of expressions -/

theorem Eval.bind_congr_at {α β : Type} {x y : Eval α} {f : α → Eval β} {m m' : Machine}
    (h : x m = y m') : (x >>= f) m = (y >>= f) m' := by
  show EStateM.bind x f m = EStateM.bind y f m'
  rw [EStateM.bind, EStateM.bind, h]

theorem eval_seq_of_ok {n : Nat} {first rest : Expr} {scope : ScopeRef} {m m₁ : Machine} {v : Value}
    (h : eval n first scope m = .ok v m₁) :
    eval (n + 1) (.seq first rest) scope m = eval n rest scope m₁ := by
  rw [eval, bind_of_ok (Point.discard_of_ok h)]

theorem eval_seq_of_error {n : Nat} {first rest : Expr} {scope : ScopeRef} {m m₁ : Machine}
    {signal : Signal} (h : eval n first scope m = .error signal m₁) :
    eval (n + 1) (.seq first rest) scope m = .error signal m₁ := by
  rw [eval, bind_of_error (Point.discard_of_error h)]

/-- Expressions behind others are evaluated behind them, if it comes to that. The
induction is on the expressions in front; each of them takes one more level of depth. -/
theorem eval_append {xs ys : List Expr} (hys : ys ≠ []) {n k : Nat} (hk : n ≤ k)
    {scope : ScopeRef} {m : Machine}
    (hdone : ∀ m₁, eval n (.ofSequence xs) scope m ≠ .error .exhausted m₁) :
    eval (k + xs.length) (.ofSequence (xs ++ ys)) scope m =
      (eval n (.ofSequence xs) scope >>= fun _ => eval k (.ofSequence ys) scope) m := by
  induction xs generalizing n k m with
  | nil =>
    cases n with
    | zero => exact absurd rfl (hdone m)
    | succ n => rfl
  | cons x xs ih =>
    have hne : xs ++ ys ≠ [] := by simp [hys]
    rw [List.cons_append, ofSequence_cons x hne, List.length_cons, ← Nat.add_assoc]
    cases xs with
    | nil =>
      rw [ofSequence_singleton] at hdone ⊢
      -- the last one in front has no level of its own, so more depth has to be harmless
      have hx : eval k x scope m = eval n x scope m := eval_of_le hk hdone
      cases h : eval n x scope m with
      | ok v m₁ =>
        rw [bind_of_ok h]
        exact eval_seq_of_ok (hx.trans h)
      | error signal m₁ =>
        rw [bind_of_error h]
        exact eval_seq_of_error (hx.trans h)
    | cons y xs =>
      have hseq := ofSequence_cons x (List.cons_ne_nil y xs)
      rw [hseq] at hdone ⊢
      cases n with
      | zero => exact absurd rfl (hdone m)
      | succ n =>
        cases h : eval n x scope m with
        | error signal m₁ =>
          have hsignal : signal ≠ .exhausted := by
            rintro rfl
            exact hdone m₁ (eval_seq_of_error h)
          rw [bind_of_error (eval_seq_of_error h)]
          exact eval_seq_of_error (eval_of_error (by omega) hsignal h)
        | ok v m₁ =>
          have hrest := @eval_seq_of_ok n x (.ofSequence (y :: xs)) scope m m₁ v h
          rw [hrest] at hdone
          rw [eval_seq_of_ok (eval_of_ok (by omega) h), ih (by omega) hdone]
          exact bind_congr_at hrest.symm

/-! ## 2. Texts -/

/-- Two programs as one: a semicolon on a line of its own between them. -/
def joined (source₁ source₂ : String) : String := source₁ ++ "\n;\n" ++ source₂

/-- The lines in front of the second of two programs. -/
def linesBefore (source₁ : String) : Nat := source₁.toList.count '\n' + 2

theorem Position.line_advance (pos : Position) (cs : List Char) :
    (pos.advance cs).line = pos.line + cs.count '\n' := by
  induction cs generalizing pos with
  | nil => rfl
  | cons c cs ih =>
    rw [advance_cons, ih, List.count_cons, after]
    by_cases hc : c = '\n'
    · simp only [hc, if_true, beq_self_eq_true]
      omega
    · simp only [hc, if_false, beq_iff_eq]
      rfl

/-- The second program begins at the beginning of a line, so many lines down. -/
theorem advance_joined (source₁ : String) :
    (Position.start.advance source₁.toList).advance ['\n', ';', '\n'] =
      Position.start.down (linesBefore source₁) := by
  have hline := Position.line_advance .start source₁.toList
  generalize Position.start.advance source₁.toList = pos at hline
  have hend : pos.advance ['\n', ';', '\n'] = ⟨pos.line + 1 + 1, 0⟩ := rfl
  rw [hend, hline, Position.down, linesBefore, Position.start]
  simp only [Position.mk.injEq, and_true]
  omega

/-- The tokens of two programs as one. -/
theorem tokens_joined {source₁ : String} (hwords : ∀ t ∈ (scan source₁).tokens, t.kind.isWord)
    (source₂ : String) :
    ∃ t : Token, t.kind = .symbol .semicolon ∧ (scan (joined source₁ source₂)).tokens =
      (scan source₁).tokens ++
        t :: (scan source₂).tokens.map (Token.relocate (Position.down (linesBefore source₁))) := by
  have hchars : (joined source₁ source₂).toList =
      source₁.toList ++ '\n' :: ';' :: '\n' :: source₂.toList := by
    simp [joined]
  have hdown := scanFrom_down (linesBefore source₁) .start 0 source₂.toList
  rw [← advance_joined] at hdown
  refine ⟨⟨.symbol .semicolon, ";", (Position.start.advance source₁.toList).after '\n'⟩, rfl, ?_⟩
  rw [scan, hchars, scanFrom_append_newline .start source₁.toList _ hwords]
  generalize Position.start.advance source₁.toList = pos at hdown ⊢
  -- the separator is a text of its own, in front of a newline too
  have hseparator : scanFrom pos 0 ['\n', ';'] =
      ⟨[⟨.symbol .semicolon, ";", pos.after '\n'⟩], pos.advance ['\n', ';']⟩ := rfl
  have hbetween := scanFrom_append_newline pos ['\n', ';'] source₂.toList (by
    rw [hseparator]
    exact List.forall_mem_singleton.mpr rfl)
  have hnewline : scanFrom (pos.advance ['\n', ';']) 0 ('\n' :: source₂.toList) =
      scanFrom (pos.advance ['\n', ';', '\n']) 0 source₂.toList := rfl
  rw [hseparator, hnewline, hdown] at hbetween
  exact congrArg ((scan source₁).tokens ++ ·.tokens) hbetween

/-! ## 3. Trees -/

/-- Items, a semicolon and more items are items. -/
theorem Grammar.Derives.items_append {es es' : List Expr} {ts us : List Token} {t : Token}
    (h : Derives (.items es) ts) (ht : t.kind = .symbol .semicolon)
    (h' : Derives (.items es') us) : Derives (.items (es ++ es')) (ts ++ t :: us) := by
  generalize hphrase : Phrase.items es = phrase at h
  induction h generalizing es with
  | noItem =>
    cases hphrase
    exact .semicolon ht h'
  | semicolon hsemicolon _ ih =>
    cases hphrase
    exact .semicolon hsemicolon (ih rfl)
  | lastItem he =>
    cases hphrase
    exact .item he ht h'
  | item he hsemicolon _ _ ih =>
    cases hphrase
    rw [List.append_assoc]
    exact .item he hsemicolon (ih rfl)
  | _ => cases hphrase

/-- No items are nothing but semicolons. -/
theorem Grammar.Derives.kind_of_noItem {ts : List Token} (h : Derives (.items []) ts) :
    ∀ t ∈ ts, t.kind = .symbol .semicolon := by
  generalize hphrase : Phrase.items [] = phrase at h
  induction h with
  | noItem =>
    intro t ht
    cases ht
  | semicolon hsemicolon _ ih => exact List.forall_mem_cons.mpr ⟨hsemicolon, ih hphrase⟩
  | _ => cases hphrase

theorem Grammar.Derives.exists_items {e : Expr} {ts : List Token} (h : Derives (.sequence e) ts) :
    ∃ es, e = .ofSequence es ∧ Derives (.items es) ts := by
  cases h with
  | sequence h => exact ⟨_, rfl, h⟩

theorem Expr.derives_of_parse {source : String} {e : Expr} (h : Expr.parse source = .ok e) :
    Derives (.sequence e) (scan source).tokens :=
  Parser.derives_of_program (kind_ne_finish_of_mem_scan source) h

/-- The second program further down derives its tree further down. -/
theorem Expr.derives_relocate {source : String} {e : Expr} (h : Expr.parse source = .ok e)
    (f : Position → Position) :
    Derives (.sequence (e.relocate f)) ((scan source).tokens.map (Token.relocate f)) := by
  let c : Cursor := ⟨(scan source).tokens, (scan source).finish⟩
  have hprogram : Parser.program c = .ok e := h
  refine Parser.derives_of_program (c := c.relocate f) (fun t ht => ?_) ?_
  · obtain ⟨t', ht', rfl⟩ := List.mem_map.mp ht
    exact kind_ne_finish_of_mem_scan source t' ht'
  · rw [Parser.program_relocate, hprogram]
    rfl

/-- The tree of two programs as one: the expressions of both, those of the second
further down. -/
theorem Expr.parse_joined {source₁ source₂ : String} {e₁ e₂ : Expr}
    (h₁ : Expr.parse source₁ = .ok e₁) (h₂ : Expr.parse source₂ = .ok e₂)
    (hitem : ∃ t ∈ (scan source₂).tokens, t.kind ≠ .symbol .semicolon) :
    ∃ xs ys, e₁ = .ofSequence xs ∧
      e₂.relocate (Position.down (linesBefore source₁)) = .ofSequence ys ∧ ys ≠ [] ∧
      Expr.parse (joined source₁ source₂) = .ok (.ofSequence (xs ++ ys)) := by
  have hderives₁ := derives_of_parse h₁
  obtain ⟨xs, rfl, hxs⟩ := hderives₁.exists_items
  obtain ⟨ys, hys, hitems⟩ :=
    (derives_relocate h₂ (Position.down (linesBefore source₁))).exists_items
  -- moving a token leaves its kind alone, so the second program still has an expression
  have hne : ys ≠ [] := by
    rintro rfl
    obtain ⟨t, ht, hkind⟩ := hitem
    exact hkind (hitems.kind_of_noItem (t.relocate _) (List.mem_map_of_mem ht))
  obtain ⟨t, ht, htokens⟩ := tokens_joined hderives₁.isWord source₂
  refine ⟨xs, ys, rfl, hys, hne, Parser.program_of_derives ?_⟩
  show Derives _ (scan (joined source₁ source₂)).tokens
  rw [htokens]
  exact .sequence (hxs.items_append ht hitems)

/-! ## 4. Sessions -/

/-- So many flushes will succeed. -/
def Sink.CanFlush (s : Sink) (times : Nat) : Prop := ∀ left, s.flushes = some left → times ≤ left

theorem Sink.flush_fst {s : Sink} (h : s.CanFlush 1) : s.flush.1 = .ok () := by
  cases hflushes : s.flushes with
  | none => rw [flush, hflushes]
  | some left =>
    cases left with
    | zero => exact absurd (h 0 hflushes) (by omega)
    | succ left => rw [flush, hflushes]

theorem Sink.flush_snd (s : Sink) : s.flush.2 = { s with flushes := s.flushes.map (· - 1) } := by
  obtain ⟨written, room, flushes, _, _⟩ := s
  rcases flushes with _ | _ | left <;> rfl

theorem Sink.CanFlush.flush {s : Sink} {times : Nat} (h : s.CanFlush (times + 1)) :
    s.flush.2.CanFlush times := by
  intro left hleft
  rw [s.flush_snd] at hleft
  obtain ⟨before, hbefore, rfl⟩ := Option.map_eq_some_iff.mp hleft
  have hle := h before hbefore
  omega

theorem Sink.CanFlush.mono {s : Sink} {times times' : Nat} (h : s.CanFlush times)
    (hle : times' ≤ times) : s.CanFlush times' :=
  fun left hleft => Nat.le_trans hle (h left hleft)

def Error.relocate (f : Position → Position) : Error → Error
  | .runtime e => .runtime (e.relocate f)
  | e => e

theorem Signal.toError_relocate (f : Position → Position) (signal : Signal) :
    (signal.relocate f).toError = signal.toError.relocate f := by
  cases signal <;> rfl

theorem Signal.toError_eq_exhausted {signal : Signal} :
    signal.toError = .exhausted ↔ signal = .exhausted := by
  cases signal <;> simp [toError]

namespace Session

/-- Evaluates a program within the given depth. -/
def evaluateWithin (n : Nat) (s : Session) (source : String) : Except Error Value × Session :=
  match Expr.parse source with
  | .ok e => s.finish (eval n e globals)
  | .error e => (.error (.parse source e), s)

theorem evaluate_eq (s : Session) (source : String) :
    s.evaluate source = s.evaluateWithin depth source := rfl

/-- The evaluation of a program ends, and with this outcome: it has it within some
depth. -/
def Ends (s : Session) (source : String) (r : Except Error Value) (s' : Session) : Prop :=
  r ≠ .error .exhausted ∧ ∃ n, s.evaluateWithin n source = (r, s')

theorem ends_of_toOption (s : Session) (n : Nat) (source : String) (v : Value)
    (h : (s.evaluateWithin n source).1.toOption = some v) :
    s.Ends source (.ok v) (s.evaluateWithin n source).2 := by
  refine ⟨by simp, n, Prod.ext ?_ rfl⟩
  generalize (s.evaluateWithin n source).1 = r at h
  cases r with
  | ok w =>
    cases h
    rfl
  | error e => cases h

/-- What a session answers, with its sink flushed. -/
def answer : EStateM.Result Signal Machine Value → Except Error Value × Session
  | .ok value m => (.ok value, ⟨m.store, m.sink.flush.2⟩)
  | .error signal m => (.error signal.toError, ⟨m.store, m.sink.flush.2⟩)

variable {s s' : Session} {source : String} {r : Except Error Value}

theorem finish_eval (hflush : s.machine.sink.CanFlush 1) (n : Nat) (e : Expr) (scope : ScopeRef) :
    s.finish (eval n e scope) = answer (eval n e scope s.machine) := by
  have hflushes : ∀ {m}, Leaves (eval n e scope) s.machine m → m.sink.flush.1 = .ok () := by
    intro m hm
    refine Sink.flush_fst fun left hleft => hflush left ?_
    rw [← eval_flushes hm, hleft]
  cases h : eval n e scope s.machine with
  | ok v m => rw [finish_of_ok h, hflushes (.inl ⟨v, h⟩)]; rfl
  | error signal m => rw [finish_of_error h, hflushes (.inr ⟨signal, h⟩)]; rfl

theorem answer_ne_exhausted {R : EStateM.Result Signal Machine Value} :
    (answer R).1 ≠ .error .exhausted ↔ ∀ m, R ≠ .error .exhausted m := by
  cases R with
  | ok v m => simp [answer]
  | error signal m => simp [answer, Signal.toError_eq_exhausted]

theorem evaluateWithin_eq {e : Expr} (he : Expr.parse source = .ok e)
    (hflush : s.machine.sink.CanFlush 1) (n : Nat) :
    s.evaluateWithin n source = answer (eval n e globals s.machine) := by
  rw [evaluateWithin, he]
  exact finish_eval hflush n e globals

/-- How a program that can be read ends. -/
theorem ends_iff {e : Expr} (he : Expr.parse source = .ok e)
    (hflush : s.machine.sink.CanFlush 1) :
    s.Ends source r s' ↔ ∃ n, (∀ m, eval n e globals s.machine ≠ .error .exhausted m) ∧
      answer (eval n e globals s.machine) = (r, s') := by
  constructor
  · rintro ⟨hr, n, hn⟩
    rw [evaluateWithin_eq he hflush] at hn
    refine ⟨n, answer_ne_exhausted.mp ?_, hn⟩
    rw [hn]
    exact hr
  · rintro ⟨n, hdone, hn⟩
    refine ⟨?_, n, (evaluateWithin_eq he hflush n).trans hn⟩
    have hr := answer_ne_exhausted.mpr hdone
    rw [hn] at hr
    exact hr

/-- A program that ends is evaluated to its end, unless the depth is spent before. -/
theorem Ends.evaluate_eq {e : Expr} (he : Expr.parse source = .ok e)
    (hflush : s.machine.sink.CanFlush 1) (h : s.Ends source r s')
    (hdone : (s.evaluate source).1 ≠ .error .exhausted) : s.evaluate source = (r, s') := by
  obtain ⟨n, hn, hanswer⟩ := (ends_iff he hflush).mp h
  rw [Session.evaluate_eq, evaluateWithin_eq he hflush] at hdone ⊢
  -- both depths are enough, so they lead to the same
  have hsame : eval depth e globals s.machine = eval n e globals s.machine := by
    rcases Nat.le_total n depth with hle | hle
    · exact eval_of_le hle hn
    · exact (eval_of_le hle (answer_ne_exhausted.mp hdone)).symm
  rw [hsame, hanswer]

/-- A program that a small depth is enough for is evaluated. -/
theorem evaluate_of_eval {e : Expr} {n : Nat} {v : Value} {m : Machine}
    (he : Expr.parse source = .ok e) (hflush : s.machine.sink.CanFlush 1) (hn : n ≤ depth)
    (heval : eval n e globals s.machine = .ok v m) :
    s.evaluate source = (.ok v, ⟨m.store, m.sink.flush.2⟩) := by
  rw [Session.evaluate_eq, evaluateWithin_eq he hflush, eval_of_ok hn heval]
  rfl

end Session

/-! ## 5. Outcomes behind a flush -/

namespace Drift

variable {d : Drift}

/-- What is otherwise once both sinks have been flushed. -/
def flushed (d : Drift) : Drift :=
  { d with flushes := d.flushes.map (· - 1), flushes' := d.flushes'.map (· - 1) }

theorem Alike.flush {m m' : Machine} (h : d.Alike m m') :
    d.flushed.Alike ⟨m.store, m.sink.flush.2⟩ ⟨m'.store, m'.sink.flush.2⟩ := by
  obtain ⟨hflushes, functions, ⟨hsize, hshared, hmoved⟩, rfl⟩ := h
  refine ⟨?_, functions, ⟨hsize, hshared, hmoved⟩, ?_⟩
  · rw [Sink.flush_snd, hflushes]
    rfl
  · rw [Sink.flush_snd, Sink.flush_snd]
    rfl

/-- Like outcomes get like answers. -/
theorem Outcome.answer {R R' : EStateM.Result Signal Machine Value} (h : d.Outcome R R')
    (hdone : ∀ m, R ≠ .error .exhausted m) :
    ∃ f, d.flushed.Moves f ∧ (∀ m, R' ≠ .error .exhausted m) ∧
      (Session.answer R').1 = (Session.answer R).1.mapError (Error.relocate f) ∧
      d.flushed.Alike (Session.answer R).2.machine (Session.answer R').2.machine := by
  cases h with
  | ok hm => exact ⟨id, .inl rfl, by simp, rfl, hm.flush⟩
  | error signal hf hm =>
    have hsignal : signal ≠ .exhausted := fun h => hdone _ (by rw [h])
    refine ⟨_, hf, ?_, ?_, hm.flush⟩
    · simp [signal.relocate_ne_exhausted _ hsignal]
    · exact congrArg Except.error (signal.toError_relocate _)
  | exhausted => exact absurd rfl (hdone _)

/-- The machine in front of a flush and the one behind it. -/
theorem alike_unflushed (lines : Nat) (m : Machine) :
    Alike ⟨lines, m.store.closures.size, m.sink.flush.2.flushes, m.sink.flushes⟩
      ⟨m.store, m.sink.flush.2⟩ m := by
  have hself : (Machine.mk m.store m.sink.flush.2).patch m.store.closures m.sink.flushes = m := by
    rw [Sink.flush_snd]
    rfl
  have halike := alike_patch
    (d := ⟨lines, m.store.closures.size, m.sink.flush.2.flushes, m.sink.flushes⟩)
    (m := ⟨m.store, m.sink.flush.2⟩) (Nat.le_refl _) rfl
  rw [hself] at halike
  exact halike

end Drift

/-! ## 6. Two programs as one -/

namespace Session

section Joined

variable {s s₁ s₂ : Session} {source₁ source₂ : String} {xs ys : List Expr} {e₂ : Expr}

/-- The second program starts where the first one has ended in a value. -/
theorem ends_joined_of_ok {v : Value} {r : Except Error Value}
    (h₁ : Expr.parse source₁ = .ok (.ofSequence xs)) (h₂ : Expr.parse source₂ = .ok e₂)
    (hys : e₂.relocate (Position.down (linesBefore source₁)) = .ofSequence ys) (hne : ys ≠ [])
    (hparse : Expr.parse (joined source₁ source₂) = .ok (.ofSequence (xs ++ ys)))
    (hflush : s.machine.sink.CanFlush 2) (hends₁ : s.Ends source₁ (.ok v) s₁)
    (hends₂ : s₁.Ends source₂ r s₂) :
    ∃ (d : Drift) (f : Position → Position) (s' : Session),
      d.lines = linesBefore source₁ ∧ d.shared = s₁.machine.store.closures.size ∧ d.Moves f ∧
      s.Ends (joined source₁ source₂) (r.mapError (Error.relocate f)) s' ∧
      d.Alike s₂.machine s'.machine := by
  have hflush₁ := hflush.mono (Nat.le_succ 1)
  obtain ⟨n₁, hdone₁, hanswer₁⟩ := (ends_iff h₁ hflush₁).mp hends₁
  cases hrun : eval n₁ (.ofSequence xs) globals s.machine with
  | error signal m₁ => rw [hrun] at hanswer₁; cases hanswer₁
  | ok w m₁ =>
    rw [hrun] at hanswer₁
    cases hanswer₁
    have hflushes : m₁.sink.CanFlush 2 := fun left hleft =>
      hflush left (by rw [← eval_flushes (.inl ⟨v, hrun⟩), hleft])
    obtain ⟨n₂, hdone₂, hanswer₂⟩ := (ends_iff h₂ hflushes.flush).mp hends₂
    -- alone the program finds the machine flushed, here it finds it as it is
    have hout := (Drift.within _ (Nat.le_max_right n₁ n₂)).eval (Drift.moves_down _) e₂ globals _ _
      (Drift.alike_unflushed (linesBefore source₁) m₁)
    rw [hys] at hout
    obtain ⟨f, hf, hdone, hvalue, halike⟩ := hout.answer hdone₂
    have hwhole : eval (max n₁ n₂ + xs.length) (.ofSequence (xs ++ ys)) globals s.machine =
        eval (max n₁ n₂) (.ofSequence ys) globals m₁ := by
      rw [eval_append hne (Nat.le_max_left n₁ n₂) hdone₁, bind_of_ok hrun]
    -- so the whole answers as the second run does
    rw [hanswer₂] at hvalue halike
    rw [← hwhole] at hdone hvalue halike
    exact ⟨_, f, _, rfl, rfl, hf,
      (ends_iff hparse hflush₁).mpr ⟨_, hdone, Prod.ext hvalue rfl⟩, halike⟩

/-- The second program is not reached if the first one ends with an error. -/
theorem ends_joined_of_error {e : RuntimeError} (h₁ : Expr.parse source₁ = .ok (.ofSequence xs))
    (hne : ys ≠ []) (hparse : Expr.parse (joined source₁ source₂) = .ok (.ofSequence (xs ++ ys)))
    (hflush : s.machine.sink.CanFlush 1) (hends₁ : s.Ends source₁ (.error (.runtime e)) s₁) :
    s.Ends (joined source₁ source₂) (.error (.runtime e)) s₁ := by
  obtain ⟨n, hdone, hanswer⟩ := (ends_iff h₁ hflush).mp hends₁
  -- nothing behind an error is evaluated
  have hwhole : eval (n + xs.length) (.ofSequence (xs ++ ys)) globals s.machine =
      eval n (.ofSequence xs) globals s.machine := by
    rw [eval_append hne (Nat.le_refl n) hdone]
    cases hrun : eval n (.ofSequence xs) globals s.machine with
    | ok v m => rw [hrun] at hanswer; cases hanswer
    | error signal m => exact bind_of_error hrun
  rw [← hwhole] at hdone hanswer
  exact (ends_iff hparse hflush).mpr ⟨_, hdone, hanswer⟩

end Joined

/-- Two programs as one are read, as the expressions of the first and then those of the
second, further down. If the first ends in a value, the whole ends as the second does in
the session that the first leaves, but for these places; if the first ends with an error,
so does the whole, and at once. Evaluation finds this end unless its depth is spent
before. -/
theorem evaluate_joined (s : Session) {source₁ source₂ : String} {e₁ e₂ : Expr}
    (h₁ : Expr.parse source₁ = .ok e₁) (h₂ : Expr.parse source₂ = .ok e₂)
    (hitem : ∃ t ∈ (scan source₂).tokens, t.kind ≠ .symbol .semicolon)
    (hflush : s.machine.sink.CanFlush 2) :
    (∃ xs ys, e₁ = .ofSequence xs ∧
      e₂.relocate (Position.down (linesBefore source₁)) = .ofSequence ys ∧
      Expr.parse (joined source₁ source₂) = .ok (.ofSequence (xs ++ ys))) ∧
    (∀ v s₁ r s₂, s.Ends source₁ (.ok v) s₁ → s₁.Ends source₂ r s₂ →
      ∃ (d : Drift) (f : Position → Position) (s' : Session),
        d.lines = linesBefore source₁ ∧ d.shared = s₁.machine.store.closures.size ∧ d.Moves f ∧
        s.Ends (joined source₁ source₂) (r.mapError (Error.relocate f)) s' ∧
        d.Alike s₂.machine s'.machine) ∧
    (∀ e s₁, s.Ends source₁ (.error (.runtime e)) s₁ →
      s.Ends (joined source₁ source₂) (.error (.runtime e)) s₁) ∧
    (∀ r s', s.Ends (joined source₁ source₂) r s' →
      (s.evaluate (joined source₁ source₂)).1 ≠ .error .exhausted →
      s.evaluate (joined source₁ source₂) = (r, s')) := by
  obtain ⟨xs, ys, rfl, hys, hne, hparse⟩ := Expr.parse_joined h₁ h₂ hitem
  have hflush₁ := hflush.mono (Nat.le_succ 1)
  refine ⟨⟨xs, ys, rfl, hys, hparse⟩, ?_, ?_, fun r s' h => h.evaluate_eq hparse hflush₁⟩
  · intro v s₁ r s₂ hends₁ hends₂
    exact ends_joined_of_ok h₁ h₂ hys hne hparse hflush hends₁ hends₂
  · intro e s₁ hends₁
    exact ends_joined_of_error h₁ hne hparse hflush₁ hends₁

theorem evaluate_joined_behind_comment :
    let s := Session.new .unlimited
    let source₁ := "x := [] // kept"
    let source₂ := "; fun f() x end; f()"
    ∃ (s₁ s₂ s' : Session) (d : Drift),
      s.Ends source₁ (.ok .null) s₁ ∧ s₁.Ends source₂ (.ok (.array ⟨0⟩)) s₂ ∧
      d.lines = 2 ∧ d.shared = 0 ∧ s.Ends (joined source₁ source₂) (.ok (.array ⟨0⟩)) s' ∧
      d.Alike s₂.machine s'.machine := by
  intro s source₁ source₂
  have hends₁ := s.ends_of_toOption 9 source₁ .null (by decide +kernel)
  have hends₂ := (s.evaluateWithin 9 source₁).2.ends_of_toOption 9 source₂ (.array ⟨0⟩)
    (by decide +kernel)
  have hparse₁ : (Expr.parse source₁).isOk = true := by decide +kernel
  have hparse₂ : (Expr.parse source₂).isOk = true := by decide +kernel
  have hitem : ∃ t ∈ (scan source₂).tokens, t.kind ≠ .symbol .semicolon := by decide +kernel
  have hflush : s.machine.sink.CanFlush 2 := by
    intro left hleft
    cases hleft
  cases h₁ : Expr.parse source₁ with
  | error e => rw [h₁] at hparse₁; cases hparse₁
  | ok e₁ =>
    cases h₂ : Expr.parse source₂ with
    | error e => rw [h₂] at hparse₂; cases hparse₂
    | ok e₂ =>
      obtain ⟨d, f, s', hlines, hshared, -, hends, halike⟩ :=
        (evaluate_joined s h₁ h₂ hitem hflush).2.1 _ _ _ _ hends₁ hends₂
      exact ⟨_, _, s', d, hends₁, hends₂, hlines.trans (by decide +kernel),
        hshared.trans (by decide +kernel), hends, halike⟩

end Session

end CalcScript

/-
`Proofs/ParserSoundness.lean` -- what the parser reads, the grammar derives.

A production that succeeds has moved its cursor over some tokens, and these form
the phrase of the production with the tree that it returns (`Spans`). A production
that continues a left operand turns any tokens of the operand, followed by those it
has read, into the larger phrase (`Extends`): that is how a loop over operators
meets the left-recursive rules.

The productions call each other, so all of these facts are proved together, by
induction on the depth (`Sound`).
-/
import CalcScript.Proofs.Grammar

set_option autoImplicit false

namespace CalcScript

open Grammar

/-! ## 1. Cursors -/

namespace Cursor

/-- The cursor at the tokens `ts`, with those ahead of `c` behind them. -/
def before (c : Cursor) (ts : List Token) : Cursor := { c with rest := ts ++ c.rest }

@[simp] theorem before_nil (c : Cursor) : c.before [] = c := rfl

theorem before_append (c : Cursor) (ts us : List Token) :
    c.before (ts ++ us) = (c.before us).before ts := by
  simp [before]

@[simp] theorem current_before_cons (c : Cursor) (t : Token) (ts : List Token) :
    (c.before (t :: ts)).current = t := rfl

@[simp] theorem kind_before_cons (c : Cursor) (t : Token) (ts : List Token) :
    (c.before (t :: ts)).kind = t.kind := rfl

theorem check_eq_ok {c c' : Cursor} (h : c.check = .ok c') : c' = c := by
  unfold check at h
  split at h
  · cases h
  · cases h
    rfl

/-- Taking a token moves over it, unless the end is reached. -/
theorem advance_eq_ok {c c' : Cursor} (h : c.advance = .ok c') (hkind : c.kind ≠ .finish) :
    c = c'.before [c.current] := by
  obtain ⟨rest, finish⟩ := c
  have hc' := check_eq_ok h
  cases rest with
  | nil => exact absurd rfl hkind
  | cons t ts =>
    subst hc'
    rfl

/-- Taking a token and then moving over others. -/
theorem eq_before_of_advance {c c₁ c₂ : Cursor} {ts : List Token} (h : c.advance = .ok c₁)
    (hkind : c.kind ≠ .finish) (hc₁ : c₁ = c₂.before ts) : c = c₂.before (c.current :: ts) := by
  have hc := advance_eq_ok h hkind
  rw [hc₁] at hc
  exact hc

theorem takeSymbol_eq_ok {c c' : Cursor} {s : Symbol} (h : c.takeSymbol s = .ok c') :
    ∃ t, t.kind = .symbol s ∧ c = c'.before [t] := by
  unfold takeSymbol at h
  split at h
  · next hkind => exact ⟨c.current, hkind, advance_eq_ok h (by rw [hkind]; exact nofun)⟩
  · cases h

theorem takeKeyword_eq_ok {c c' : Cursor} {k : Keyword} (h : c.takeKeyword k = .ok c') :
    ∃ t, t.kind = .keyword k ∧ c = c'.before [t] := by
  unfold takeKeyword at h
  split at h
  · next hkind => exact ⟨c.current, hkind, advance_eq_ok h (by rw [hkind]; exact nofun)⟩
  · cases h

end Cursor

/-- How tightly a token binds what stands in front of it: the level of the phrases
that it continues. Everything else ends them all. -/
def Token.Kind.level : Token.Kind → Nat
  | .symbol .openParen | .symbol .openBracket => 0
  | .symbol .caret => 1
  | .symbol .times | .symbol .slash | .symbol .percent | .keyword .divK => 2
  | .symbol .plus | .symbol .minus => 3
  | .symbol .equal | .symbol .notEqual | .symbol .less | .symbol .lessEqual
  | .symbol .greater | .symbol .greaterEqual => 4
  | .symbol .and => 5
  | .symbol .or => 6
  | .symbol .store | .symbol .update => 7
  | _ => 8

/-- Only an opening bracket continues a term. -/
theorem Token.Kind.level_pos {k : Token.Kind} (hparen : k ≠ .symbol .openParen)
    (hbracket : k ≠ .symbol .openBracket) : 0 < k.level := by
  cases k with
  | symbol s =>
    cases s with
    | openParen => exact absurd rfl hparen
    | openBracket => exact absurd rfl hbracket
    | _ => decide
  | keyword k => cases k <;> decide
  | _ => exact Nat.zero_lt_succ 7

/-! ## 2. Reading in steps -/

namespace Parser

theorem bind_eq_ok {α β : Type} {x : Read α} {f : α → Read β} {b : β} (h : x >>= f = .ok b) :
    ∃ a, x = .ok a ∧ f a = .ok b := by
  cases x with
  | ok a => exact ⟨a, rfl, h⟩
  | error e => cases h

theorem takeName?_eq_ok {c c' : Cursor} {name : Option String} (h : c.takeName? = .ok (name, c')) :
    ∃ ts, OptionalName name ts ∧ c = c'.before ts := by
  unfold Cursor.takeName? at h
  split at h
  · next hkind =>
    obtain ⟨c₁, hadvance, h⟩ := bind_eq_ok h
    cases h
    exact ⟨[c.current], .present hkind, c.advance_eq_ok hadvance (by rw [hkind]; exact nofun)⟩
  · cases h
    exact ⟨[], .absent, rfl⟩

/-- The parameters read are distinct, and distinct from those read before. -/
theorem parameters_eq_ok {n : Nat} {seen names : List String} {c c' : Cursor}
    (h : parameters n seen c = .ok (names, c')) :
    ∃ ts close, Parameters names ts ∧ names.Nodup ∧ (∀ name ∈ names, name ∉ seen) ∧
      close.kind = .symbol .closeParen ∧ c = c'.before (ts ++ [close]) := by
  induction n generalizing seen names c with
  | zero => cases h
  | succ n ih =>
    rw [parameters] at h
    split at h
    · next hkind =>
      obtain ⟨c₁, hadvance, h⟩ := bind_eq_ok h
      cases h
      exact ⟨[], c.current, .nil, .nil, nofun, hkind,
        c.advance_eq_ok hadvance (by rw [hkind]; exact nofun)⟩
    · next hkind =>
      obtain ⟨c₁, hadvance, h⟩ := bind_eq_ok h
      have hc := c.advance_eq_ok hadvance (by rw [hkind]; exact nofun)
      split at h
      · cases h
      next hfresh =>
      have hname : c.current.lexeme ∉ seen := by simpa using hfresh
      split at h
      · next hcomma =>
        obtain ⟨c₂, hadvance₂, h⟩ := bind_eq_ok h
        obtain ⟨⟨names', c₃⟩, hrest, h⟩ := bind_eq_ok h
        cases h
        obtain ⟨ts, close, hparams, hnodup, hseen, hclose, hc₂⟩ := ih hrest
        have hc₁ := c₁.advance_eq_ok hadvance₂ (by rw [hcomma]; exact nofun)
        -- the rest was read with this name among those seen, so it is not there again
        refine ⟨c.current :: c₁.current :: ts, close, .cons hkind hcomma hparams, ?_, ?_,
          hclose, ?_⟩
        · exact List.nodup_cons.mpr ⟨fun hmem => hseen _ hmem List.mem_cons_self, hnodup⟩
        · intro name hmem
          rcases List.mem_cons.mp hmem with rfl | hmem
          · exact hname
          · exact fun hold => hseen name hmem (List.mem_cons_of_mem _ hold)
        · rw [hc₂] at hc₁
          rw [hc₁] at hc
          exact hc
      · obtain ⟨c₂, htake, h⟩ := bind_eq_ok h
        cases h
        obtain ⟨close, hclose, hc₁⟩ := c₁.takeSymbol_eq_ok htake
        refine ⟨[c.current], close, .last hkind, by simp, ?_, hclose, ?_⟩
        · intro name hmem
          rw [List.mem_singleton.mp hmem]
          exact hname
        · rw [hc₁] at hc
          exact hc
    · cases h

/-! ## 3. Phrases between cursors -/

/-- Between the two cursors stands the phrase. -/
def Spans (phrase : Phrase) (c c' : Cursor) : Prop :=
  ∃ ts, c = c'.before ts ∧ Derives phrase ts

/-- What stands between the two cursors makes the first phrase the second. -/
def Extends (phrase phrase' : Phrase) (c c' : Cursor) : Prop :=
  ∃ us, c = c'.before us ∧ ∀ ts, Derives phrase ts → Derives phrase' (ts ++ us)

section Phrases

variable {phrase phrase₁ phrase₂ phrase₃ : Phrase} {c c₁ c₂ c₃ : Cursor}

theorem Spans.map (h : Spans phrase₁ c c₁) (f : ∀ ts, Derives phrase₁ ts → Derives phrase₂ ts) :
    Spans phrase₂ c c₁ := by
  obtain ⟨ts, hc, hts⟩ := h
  exact ⟨ts, hc, f ts hts⟩

theorem Spans.extend (h : Spans phrase₁ c c₁) (hext : Extends phrase₁ phrase₂ c₁ c₂) :
    Spans phrase₂ c c₂ := by
  obtain ⟨ts, rfl, hts⟩ := h
  obtain ⟨us, rfl, hus⟩ := hext
  exact ⟨ts ++ us, (c₂.before_append ts us).symm, hus ts hts⟩

theorem Extends.refl : Extends phrase phrase c c :=
  ⟨[], rfl, fun ts hts => by rwa [List.append_nil]⟩

theorem Extends.trans (h₁ : Extends phrase₁ phrase₂ c c₁) (h₂ : Extends phrase₂ phrase₃ c₁ c₂) :
    Extends phrase₁ phrase₃ c c₂ := by
  obtain ⟨us, rfl, hus⟩ := h₁
  obtain ⟨vs, rfl, hvs⟩ := h₂
  refine ⟨us ++ vs, (c₂.before_append us vs).symm, fun ts hts => ?_⟩
  rw [← List.append_assoc]
  exact hvs _ (hus ts hts)

/-- An operator with its right operand extends the left one. -/
theorem Extends.operator (hadvance : c.advance = .ok c₁) (hkind : c.kind ≠ .finish)
    (h : Spans phrase₂ c₁ c₂)
    (f : ∀ ts us, Derives phrase₁ ts → Derives phrase₂ us →
      Derives phrase₃ (ts ++ c.current :: us)) : Extends phrase₁ phrase₃ c c₂ := by
  obtain ⟨us, hc₁, hus⟩ := h
  exact ⟨c.current :: us, Cursor.eq_before_of_advance hadvance hkind hc₁,
    fun ts hts => f ts us hts hus⟩

/-- A token in front of a phrase. -/
theorem Spans.cons (hadvance : c.advance = .ok c₁) (hkind : c.kind ≠ .finish)
    (h : Spans phrase₁ c₁ c₂)
    (f : ∀ ts, Derives phrase₁ ts → Derives phrase₂ (c.current :: ts)) : Spans phrase₂ c c₂ := by
  obtain ⟨ts, hc₁, hts⟩ := h
  exact ⟨c.current :: ts, Cursor.eq_before_of_advance hadvance hkind hc₁, f ts hts⟩

/-- A phrase between two tokens. -/
theorem Spans.enclosed {c₃ : Cursor} {close : Token} (hadvance : c.advance = .ok c₁)
    (hkind : c.kind ≠ .finish) (h : Spans phrase₁ c₁ c₂) (hclose : c₂ = c₃.before [close])
    (f : ∀ ts, Derives phrase₁ ts → Derives phrase₂ (c.current :: (ts ++ [close]))) :
    Spans phrase₂ c c₃ := by
  obtain ⟨ts, hc₁, hts⟩ := h
  rw [hclose, ← Cursor.before_append] at hc₁
  exact ⟨c.current :: (ts ++ [close]), Cursor.eq_before_of_advance hadvance hkind hc₁, f ts hts⟩

end Phrases

/-! ## 4. The productions -/

/-- All productions of a given depth derive what they read. A term has taken
whatever could be called or indexed; `!` is the primary that makes a term. -/
structure Sound (n : Nat) : Prop where
  sequence {c c' : Cursor} {e : Expr} :
    sequence n c = .ok (e, c') → Spans (.sequence e) c c'
  statements {c c' : Cursor} {es : List Expr} :
    statements n c = .ok (es, c') → Spans (.items es) c c'
  expression {c c' : Cursor} {e : Expr} :
    expression n c = .ok (e, c') → Spans (.expression e) c c'
  disjunction {c c' : Cursor} {e : Expr} :
    disjunction n c = .ok (e, c') → Spans (.disjunction e) c c'
  disjunctionRest {c c' : Cursor} {left e : Expr} :
    disjunctionRest n left c = .ok (e, c') → Extends (.disjunction left) (.disjunction e) c c'
  conjunction {c c' : Cursor} {e : Expr} :
    conjunction n c = .ok (e, c') → Spans (.conjunction e) c c'
  conjunctionRest {c c' : Cursor} {left e : Expr} :
    conjunctionRest n left c = .ok (e, c') → Extends (.conjunction left) (.conjunction e) c c'
  comparison {c c' : Cursor} {e : Expr} :
    comparison n c = .ok (e, c') → Spans (.comparison e) c c'
  sum {c c' : Cursor} {e : Expr} :
    sum n c = .ok (e, c') → Spans (.sum e) c c'
  sumRest {c c' : Cursor} {left e : Expr} :
    sumRest n left c = .ok (e, c') → Extends (.sum left) (.sum e) c c'
  product {c c' : Cursor} {e : Expr} :
    product n c = .ok (e, c') → Spans (.product e) c c'
  productRest {c c' : Cursor} {left e : Expr} :
    productRest n left c = .ok (e, c') → Extends (.product left) (.product e) c c'
  power {c c' : Cursor} {e : Expr} :
    power n c = .ok (e, c') → Spans (.power e) c c'
  term {c c' : Cursor} {e : Expr} :
    term n c = .ok (e, c') → Spans (.term e) c c' ∧ 0 < c'.kind.level
  termRest {c c' : Cursor} {head e : Expr} :
    termRest n head c = .ok (e, c') →
      Extends (.operand head) (.operand e) c c' ∧ 0 < c'.kind.level
  list {c c' : Cursor} {close : Symbol} {es : List Expr} :
    list n close c = .ok (es, c') → ∃ ts t, t.kind = .symbol close ∧
      c = c'.before (ts ++ [t]) ∧ Derives (.list es) ts
  primary {c c' : Cursor} {e : Expr} :
    primary n c = .ok (e, c') →
      Spans (.primary e) c c' ∨ (Spans (.term e) c c' ∧ 0 < c'.kind.level)
  conditional {c c' : Cursor} {e : Expr} :
    conditional n c = .ok (e, c') → Spans (.branches e) c c'
  loop {c c' : Cursor} {e : Expr} {t : Token} (ht : t.kind = .keyword .whileK) :
    loop n c = .ok (e, c') → Spans (.primary e) (c.before [t]) c'
  function {c c' : Cursor} {e : Expr} {t : Token} (ht : t.kind = .keyword .funK) :
    function n c = .ok (e, c') → Spans (.primary e) (c.before [t]) c'
  block {c c' : Cursor} {e : Expr} {t : Token} (ht : t.kind = .keyword .blockK) :
    block n c = .ok (e, c') → Spans (.primary e) (c.before [t]) c'

/-- With no depth left nothing is read. -/
theorem sound_zero : Sound 0 := by
  constructor <;> intros <;> contradiction

namespace Sound

variable {n : Nat} {c c' : Cursor} {e left : Expr}

theorem sequence_succ (ih : Sound n) (h : Parser.sequence (n + 1) c = .ok (e, c')) :
    Spans (.sequence e) c c' := by
  rw [Parser.sequence] at h
  obtain ⟨⟨es, c₁⟩, hes, h⟩ := bind_eq_ok h
  cases h
  exact (ih.statements hes).map fun _ => .sequence

theorem statements_succ (ih : Sound n) {es : List Expr}
    (h : Parser.statements (n + 1) c = .ok (es, c')) : Spans (.items es) c c' := by
  rw [Parser.statements] at h
  split at h
  · next hkind =>
    obtain ⟨c₁, hadvance, h⟩ := bind_eq_ok h
    exact .cons hadvance (by rw [hkind]; exact nofun) (ih.statements h) fun _ => .semicolon hkind
  split at h
  · cases h
    exact ⟨[], rfl, .noItem⟩
  obtain ⟨⟨item, c₁⟩, hitem, h⟩ := bind_eq_ok h
  dsimp only at h
  split at h
  · next hkind =>
    obtain ⟨c₂, hadvance, h⟩ := bind_eq_ok h
    obtain ⟨⟨items, c₃⟩, hitems, h⟩ := bind_eq_ok h
    cases h
    exact (ih.expression hitem).extend
      (.operator hadvance (by rw [hkind]; exact nofun) (ih.statements hitems)
        fun _ _ hts hus => .item hts hkind hus)
  · cases h
    exact (ih.expression hitem).map fun _ => .lastItem

theorem expression_succ (ih : Sound n) (h : Parser.expression (n + 1) c = .ok (e, c')) :
    Spans (.expression e) c c' := by
  rw [Parser.expression] at h
  obtain ⟨⟨target, c₁⟩, htarget, h⟩ := bind_eq_ok h
  have htarget := ih.disjunction htarget
  dsimp only at h
  split at h
  · next hkind =>
    obtain ⟨c₂, hadvance, h⟩ := bind_eq_ok h
    split at h
    · obtain ⟨⟨value, c₃⟩, hvalue, h⟩ := bind_eq_ok h
      cases h
      exact htarget.extend (.operator hadvance (by rw [hkind]; exact nofun)
        (ih.disjunction hvalue) fun _ _ hts hus => .store hts hkind hus)
    · cases h
  · next hkind =>
    obtain ⟨c₂, hadvance, h⟩ := bind_eq_ok h
    split at h
    · obtain ⟨⟨value, c₃⟩, hvalue, h⟩ := bind_eq_ok h
      cases h
      exact htarget.extend (.operator hadvance (by rw [hkind]; exact nofun)
        (ih.disjunction hvalue) fun _ _ hts hus => .update hts hkind hus)
    · obtain ⟨⟨value, c₃⟩, hvalue, h⟩ := bind_eq_ok h
      cases h
      exact htarget.extend (.operator hadvance (by rw [hkind]; exact nofun)
        (ih.disjunction hvalue) fun _ _ hts hus => .replace hts hkind hus)
    · cases h
  · cases h
    exact htarget.map fun _ => .expression

theorem disjunction_succ (ih : Sound n) (h : Parser.disjunction (n + 1) c = .ok (e, c')) :
    Spans (.disjunction e) c c' := by
  rw [Parser.disjunction] at h
  obtain ⟨⟨left, c₁⟩, hleft, h⟩ := bind_eq_ok h
  exact ((ih.conjunction hleft).map fun _ => .disjunction).extend (ih.disjunctionRest h)

theorem disjunctionRest_succ (ih : Sound n)
    (h : Parser.disjunctionRest (n + 1) left c = .ok (e, c')) :
    Extends (.disjunction left) (.disjunction e) c c' := by
  rw [Parser.disjunctionRest] at h
  split at h
  · next hkind =>
    obtain ⟨c₁, hadvance, h⟩ := bind_eq_ok h
    obtain ⟨⟨right, c₂⟩, hright, h⟩ := bind_eq_ok h
    exact (Extends.operator hadvance (by rw [hkind]; exact nofun) (ih.conjunction hright)
      fun _ _ hts hus => .or hts hkind hus).trans (ih.disjunctionRest h)
  · cases h
    exact .refl

theorem conjunction_succ (ih : Sound n) (h : Parser.conjunction (n + 1) c = .ok (e, c')) :
    Spans (.conjunction e) c c' := by
  rw [Parser.conjunction] at h
  obtain ⟨⟨left, c₁⟩, hleft, h⟩ := bind_eq_ok h
  exact ((ih.comparison hleft).map fun _ => .conjunction).extend (ih.conjunctionRest h)

theorem conjunctionRest_succ (ih : Sound n)
    (h : Parser.conjunctionRest (n + 1) left c = .ok (e, c')) :
    Extends (.conjunction left) (.conjunction e) c c' := by
  rw [Parser.conjunctionRest] at h
  split at h
  · next hkind =>
    obtain ⟨c₁, hadvance, h⟩ := bind_eq_ok h
    obtain ⟨⟨right, c₂⟩, hright, h⟩ := bind_eq_ok h
    exact (Extends.operator hadvance (by rw [hkind]; exact nofun) (ih.comparison hright)
      fun _ _ hts hus => .and hts hkind hus).trans (ih.conjunctionRest h)
  · cases h
    exact .refl

theorem comparison_succ (ih : Sound n) (h : Parser.comparison (n + 1) c = .ok (e, c')) :
    Spans (.comparison e) c c' := by
  rw [Parser.comparison] at h
  obtain ⟨⟨left, c₁⟩, hleft, h⟩ := bind_eq_ok h
  dsimp only at h
  split at h
  · next op hop =>
    obtain ⟨c₂, hadvance, h⟩ := bind_eq_ok h
    obtain ⟨⟨right, c₃⟩, hright, h⟩ := bind_eq_ok h
    cases h
    exact (ih.sum hleft).extend (.operator hadvance (by rintro hk; rw [hk] at hop; cases hop)
      (ih.sum hright) fun _ _ hts hus => .compare hts (mem_comparisons.mpr hop) hus)
  · cases h
    exact (ih.sum hleft).map fun _ => .comparison

theorem sum_succ (ih : Sound n) (h : Parser.sum (n + 1) c = .ok (e, c')) :
    Spans (.sum e) c c' := by
  rw [Parser.sum] at h
  split at h
  · next op hop =>
    obtain ⟨c₁, hadvance, h⟩ := bind_eq_ok h
    obtain ⟨⟨operand, c₂⟩, hoperand, h⟩ := bind_eq_ok h
    have hsigned : Spans (.sum (operation op c.current [operand])) c c₂ :=
      .cons hadvance (by rintro hk; rw [hk] at hop; cases hop) (ih.product hoperand)
        fun _ hts => .signed (mem_signs.mpr hop) hts
    exact hsigned.extend (ih.sumRest h)
  · obtain ⟨⟨left, c₁⟩, hleft, h⟩ := bind_eq_ok h
    exact ((ih.product hleft).map fun _ => .sum).extend (ih.sumRest h)

theorem sumRest_succ (ih : Sound n) (h : Parser.sumRest (n + 1) left c = .ok (e, c')) :
    Extends (.sum left) (.sum e) c c' := by
  rw [Parser.sumRest] at h
  split at h
  · next op hop =>
    obtain ⟨c₁, hadvance, h⟩ := bind_eq_ok h
    obtain ⟨⟨right, c₂⟩, hright, h⟩ := bind_eq_ok h
    have hadd : Extends (.sum left) (.sum (operation op c.current [left, right])) c c₂ :=
      .operator hadvance (by rintro hk; rw [hk] at hop; cases hop) (ih.product hright)
        fun _ _ hts hus => .add hts (mem_additions.mpr hop) hus
    exact hadd.trans (ih.sumRest h)
  · cases h
    exact .refl

theorem product_succ (ih : Sound n) (h : Parser.product (n + 1) c = .ok (e, c')) :
    Spans (.product e) c c' := by
  rw [Parser.product] at h
  obtain ⟨⟨left, c₁⟩, hleft, h⟩ := bind_eq_ok h
  exact ((ih.power hleft).map fun _ => .product).extend (ih.productRest h)

theorem productRest_succ (ih : Sound n) (h : Parser.productRest (n + 1) left c = .ok (e, c')) :
    Extends (.product left) (.product e) c c' := by
  rw [Parser.productRest] at h
  split at h
  · next op hop =>
    obtain ⟨c₁, hadvance, h⟩ := bind_eq_ok h
    obtain ⟨⟨right, c₂⟩, hright, h⟩ := bind_eq_ok h
    have hmultiply :
        Extends (.product left) (.product (operation op c.current [left, right])) c c₂ :=
      .operator hadvance (by rintro hk; rw [hk] at hop; cases hop) (ih.power hright)
        fun _ _ hts hus => .multiply hts (mem_multiplications.mpr hop) hus
    exact hmultiply.trans (ih.productRest h)
  · cases h
    exact .refl

theorem power_succ (ih : Sound n) (h : Parser.power (n + 1) c = .ok (e, c')) :
    Spans (.power e) c c' := by
  rw [Parser.power] at h
  obtain ⟨⟨base, c₁⟩, hbase, h⟩ := bind_eq_ok h
  have hbase := (ih.term hbase).1
  dsimp only at h
  split at h
  · next hkind =>
    obtain ⟨c₂, hadvance, h⟩ := bind_eq_ok h
    obtain ⟨⟨exponent, c₃⟩, hexponent, h⟩ := bind_eq_ok h
    cases h
    exact hbase.extend (.operator hadvance (by rw [hkind]; exact nofun) (ih.power hexponent)
      fun _ _ hts hus => .raise hts hkind hus)
  · cases h
    exact hbase.map fun _ => .power

/-- Nothing is called or indexed where no bracket follows. -/
theorem termRest_of_level {head : Expr} (hlevel : 0 < c.kind.level)
    (h : Parser.termRest n head c = .ok (e, c')) : e = head ∧ c' = c := by
  cases n with
  | zero => cases h
  | succ n =>
    rw [Parser.termRest] at h
    split at h
    · next hkind => rw [hkind] at hlevel; exact absurd hlevel (Nat.lt_irrefl 0)
    · next hkind => rw [hkind] at hlevel; exact absurd hlevel (Nat.lt_irrefl 0)
    · cases h
      exact ⟨rfl, rfl⟩

theorem term_succ (ih : Sound n) (h : Parser.term (n + 1) c = .ok (e, c')) :
    Spans (.term e) c c' ∧ 0 < c'.kind.level := by
  rw [Parser.term] at h
  obtain ⟨⟨head, c₁⟩, hhead, h⟩ := bind_eq_ok h
  rcases ih.primary hhead with hprimary | ⟨hterm, hlevel⟩
  · obtain ⟨hext, hend⟩ := ih.termRest h
    exact ⟨((hprimary.map fun _ => .operand).extend hext).map fun _ => .term, hend⟩
  · -- behind a `!` and its term nothing is left to call or index
    obtain ⟨rfl, rfl⟩ := termRest_of_level hlevel h
    exact ⟨hterm, hlevel⟩

theorem termRest_succ (ih : Sound n) {head : Expr}
    (h : Parser.termRest (n + 1) head c = .ok (e, c')) :
    Extends (.operand head) (.operand e) c c' ∧ 0 < c'.kind.level := by
  rw [Parser.termRest] at h
  split at h
  · next hkind =>
    obtain ⟨c₁, hadvance, h⟩ := bind_eq_ok h
    obtain ⟨⟨args, c₂⟩, hargs, h⟩ := bind_eq_ok h
    obtain ⟨us, close, hclose, hc₁, hus⟩ := ih.list hargs
    have hcall : Extends (.operand head) (.operand (.apply head args c.pos)) c c₂ := by
      have hc := Cursor.eq_before_of_advance hadvance (by rw [hkind]; exact nofun) hc₁
      exact ⟨c.current :: (us ++ [close]), hc, fun ts hts => .call hts hkind hus hclose⟩
    obtain ⟨hrest, hend⟩ := ih.termRest h
    exact ⟨hcall.trans hrest, hend⟩
  · next hkind =>
    obtain ⟨c₁, hadvance, h⟩ := bind_eq_ok h
    obtain ⟨⟨i, c₂⟩, hi, h⟩ := bind_eq_ok h
    obtain ⟨c₃, htake, h⟩ := bind_eq_ok h
    obtain ⟨us, hc₁, hus⟩ := ih.expression hi
    obtain ⟨close, hclose, hc₂⟩ := c₂.takeSymbol_eq_ok htake
    have hindex : Extends (.operand head) (.operand (operation .get c.current [head, i])) c c₃ := by
      rw [hc₂, ← Cursor.before_append] at hc₁
      have hc := Cursor.eq_before_of_advance hadvance (by rw [hkind]; exact nofun) hc₁
      exact ⟨c.current :: (us ++ [close]), hc, fun ts hts => .index hts hkind hus hclose⟩
    obtain ⟨hrest, hend⟩ := ih.termRest h
    exact ⟨hindex.trans hrest, hend⟩
  · next hparen hbracket =>
    cases h
    exact ⟨.refl, Token.Kind.level_pos hparen hbracket⟩

theorem list_succ (ih : Sound n) {close : Symbol} {es : List Expr}
    (h : Parser.list (n + 1) close c = .ok (es, c')) :
    ∃ ts t, t.kind = .symbol close ∧ c = c'.before (ts ++ [t]) ∧ Derives (.list es) ts := by
  rw [Parser.list] at h
  split at h
  · next hkind =>
    obtain ⟨c₁, hadvance, h⟩ := bind_eq_ok h
    cases h
    exact ⟨[], c.current, hkind, c.advance_eq_ok hadvance (by rw [hkind]; exact nofun), .noElement⟩
  obtain ⟨⟨item, c₁⟩, hitem, h⟩ := bind_eq_ok h
  obtain ⟨ts, hc, hts⟩ := ih.expression hitem
  dsimp only at h
  split at h
  · next hkind =>
    obtain ⟨c₂, hadvance, h⟩ := bind_eq_ok h
    obtain ⟨⟨items, c₃⟩, hitems, h⟩ := bind_eq_ok h
    cases h
    obtain ⟨us, t, ht, hc₂, hus⟩ := ih.list hitems
    have hc₁ := Cursor.eq_before_of_advance hadvance (by rw [hkind]; exact nofun) hc₂
    refine ⟨ts ++ c₁.current :: us, t, ht, ?_, .element hts hkind hus⟩
    rw [hc, List.append_assoc, Cursor.before_append]
    exact congrArg (Cursor.before · ts) hc₁
  · obtain ⟨c₂, htake, h⟩ := bind_eq_ok h
    cases h
    obtain ⟨t, ht, hc₁⟩ := c₁.takeSymbol_eq_ok htake
    refine ⟨ts, t, ht, ?_, .lastElement hts⟩
    rw [hc, hc₁, Cursor.before_append]

/-- One token is a primary of its own. -/
theorem spans_token {phrase : Phrase} (hadvance : c.advance = .ok c') (hkind : c.kind ≠ .finish)
    (h : Derives phrase [c.current]) : Spans phrase c c' :=
  ⟨[c.current], c.advance_eq_ok hadvance hkind, h⟩

theorem primary_succ (ih : Sound n) (h : Parser.primary (n + 1) c = .ok (e, c')) :
    Spans (.primary e) c c' ∨ (Spans (.term e) c c' ∧ 0 < c'.kind.level) := by
  rw [Parser.primary] at h
  split at h
  -- `!` is the one that makes a term; all others are primaries
  case h_4 hkind =>
    obtain ⟨c₁, hadvance, h⟩ := bind_eq_ok h
    obtain ⟨⟨operand, c₂⟩, hoperand, h⟩ := bind_eq_ok h
    cases h
    obtain ⟨hterm, hlevel⟩ := ih.term hoperand
    exact .inr ⟨.cons hadvance (by rw [hkind]; exact nofun) hterm fun _ => .not hkind, hlevel⟩
  all_goals refine .inl ?_
  case h_1 x hkind =>
    obtain ⟨c₁, hadvance, h⟩ := bind_eq_ok h
    cases h
    exact spans_token hadvance (by rw [hkind]; exact nofun) (.number hkind)
  case h_2 s hkind =>
    obtain ⟨c₁, hadvance, h⟩ := bind_eq_ok h
    cases h
    exact spans_token hadvance (by rw [hkind]; exact nofun) (.str hkind)
  case h_3 hkind =>
    obtain ⟨c₁, hadvance, h⟩ := bind_eq_ok h
    cases h
    exact spans_token hadvance (by rw [hkind]; exact nofun) (.var hkind)
  case h_5 hkind =>
    obtain ⟨c₁, hadvance, h⟩ := bind_eq_ok h
    obtain ⟨⟨inner, c₂⟩, hinner, h⟩ := bind_eq_ok h
    obtain ⟨c₃, htake, h⟩ := bind_eq_ok h
    cases h
    obtain ⟨close, hclose, hc₂⟩ := c₂.takeSymbol_eq_ok htake
    exact .enclosed hadvance (by rw [hkind]; exact nofun) (ih.sequence hinner) hc₂
      fun _ hts => .parentheses hkind hts hclose
  case h_6 hkind =>
    obtain ⟨c₁, hadvance, h⟩ := bind_eq_ok h
    obtain ⟨⟨items, c₂⟩, hitems, h⟩ := bind_eq_ok h
    cases h
    obtain ⟨ts, close, hclose, hc₁, hts⟩ := ih.list hitems
    have hc := Cursor.eq_before_of_advance hadvance (by rw [hkind]; exact nofun) hc₁
    exact ⟨c.current :: (ts ++ [close]), hc, .array hkind hts hclose⟩
  case h_7 hkind =>
    obtain ⟨c₁, hadvance, h⟩ := bind_eq_ok h
    cases h
    exact spans_token hadvance (by rw [hkind]; exact nofun) (.null hkind)
  case h_8 hkind =>
    obtain ⟨c₁, hadvance, h⟩ := bind_eq_ok h
    cases h
    exact spans_token hadvance (by rw [hkind]; exact nofun) (.true hkind)
  case h_9 hkind =>
    obtain ⟨c₁, hadvance, h⟩ := bind_eq_ok h
    cases h
    exact spans_token hadvance (by rw [hkind]; exact nofun) (.false hkind)
  case h_10 hkind =>
    obtain ⟨c₁, hadvance, h⟩ := bind_eq_ok h
    obtain ⟨⟨tree, c₂⟩, htree, h⟩ := bind_eq_ok h
    obtain ⟨c₃, htake, h⟩ := bind_eq_ok h
    cases h
    obtain ⟨close, hclose, hc₂⟩ := c₂.takeKeyword_eq_ok htake
    exact .enclosed hadvance (by rw [hkind]; exact nofun) (ih.conditional htree) hc₂
      fun _ hts => .cond hkind hts hclose
  case h_11 hkind =>
    obtain ⟨c₁, hadvance, h⟩ := bind_eq_ok h
    rw [c.advance_eq_ok hadvance (by rw [hkind]; exact nofun)]
    exact ih.loop hkind h
  case h_12 hkind =>
    obtain ⟨c₁, hadvance, h⟩ := bind_eq_ok h
    rw [c.advance_eq_ok hadvance (by rw [hkind]; exact nofun)]
    exact ih.function hkind h
  case h_13 hkind =>
    obtain ⟨c₁, hadvance, h⟩ := bind_eq_ok h
    rw [c.advance_eq_ok hadvance (by rw [hkind]; exact nofun)]
    exact ih.block hkind h
  case h_14 => cases h

/-- The word in front of a branch. -/
theorem branchWord_eq_ok {β : Type} {f : Cursor → Read β} {b : β}
    (h : (if c.kind = .keyword .thenK then c.advance >>= f else c.takeKeyword .doK >>= f) = .ok b) :
    ∃ c₁ d, (d.kind = .keyword .doK ∨ d.kind = .keyword .thenK) ∧ c = c₁.before [d] ∧
      f c₁ = .ok b := by
  split at h
  · next hkind =>
    obtain ⟨c₁, hadvance, h⟩ := bind_eq_ok h
    exact ⟨c₁, c.current, .inr hkind, c.advance_eq_ok hadvance (by rw [hkind]; exact nofun), h⟩
  · obtain ⟨c₁, htake, h⟩ := bind_eq_ok h
    obtain ⟨d, hd, hc⟩ := c.takeKeyword_eq_ok htake
    exact ⟨c₁, d, .inl hd, hc, h⟩

theorem conditional_succ (ih : Sound n) (h : Parser.conditional (n + 1) c = .ok (e, c')) :
    Spans (.branches e) c c' := by
  rw [Parser.conditional] at h
  obtain ⟨⟨condition, c₁⟩, hcondition, h⟩ := bind_eq_ok h
  obtain ⟨c₂, d, hd, hc₁, h⟩ := branchWord_eq_ok h
  obtain ⟨⟨consequent, c₃⟩, hconsequent, h⟩ := bind_eq_ok h
  obtain ⟨ts, hc, hts⟩ := ih.sequence hcondition
  obtain ⟨us, hc₂, hus⟩ := ih.sequence hconsequent
  -- all conditionals have these two parts; the next word says whether there is a third
  have hc : c = c₃.before (ts ++ d :: us) := by
    rw [hc, hc₁, hc₂]
    simp [Cursor.before]
  dsimp only at h
  split at h
  · next hkind =>
    obtain ⟨c₄, hadvance, h⟩ := bind_eq_ok h
    obtain ⟨⟨alternate, c₅⟩, halternate, h⟩ := bind_eq_ok h
    cases h
    obtain ⟨vs, hc₄, hvs⟩ := ih.conditional halternate
    have hc₃ := Cursor.eq_before_of_advance hadvance (by rw [hkind]; exact nofun) hc₄
    refine ⟨ts ++ d :: (us ++ c₃.current :: vs), ?_, .elifBranch hts hd hus hkind hvs⟩
    rw [hc₃, ← Cursor.before_append] at hc
    simpa using hc
  · next hkind =>
    obtain ⟨c₄, hadvance, h⟩ := bind_eq_ok h
    obtain ⟨⟨alternate, c₅⟩, halternate, h⟩ := bind_eq_ok h
    cases h
    obtain ⟨vs, hc₄, hvs⟩ := ih.sequence halternate
    have hc₃ := Cursor.eq_before_of_advance hadvance (by rw [hkind]; exact nofun) hc₄
    refine ⟨ts ++ d :: (us ++ c₃.current :: vs), ?_, .elseBranch hts hd hus hkind hvs⟩
    rw [hc₃, ← Cursor.before_append] at hc
    simpa using hc
  · cases h
    exact ⟨ts ++ d :: us, hc, .oneBranch hts hd hus⟩

theorem loop_succ (ih : Sound n) {t : Token} (ht : t.kind = .keyword .whileK)
    (h : Parser.loop (n + 1) c = .ok (e, c')) : Spans (.primary e) (c.before [t]) c' := by
  rw [Parser.loop] at h
  obtain ⟨⟨condition, c₁⟩, hcondition, h⟩ := bind_eq_ok h
  obtain ⟨ts, hc, hts⟩ := ih.sequence hcondition
  dsimp only at h
  split at h
  · next hkind =>
    obtain ⟨c₂, hadvance, h⟩ := bind_eq_ok h
    obtain ⟨⟨body, c₃⟩, hbody, h⟩ := bind_eq_ok h
    obtain ⟨c₄, htake, h⟩ := bind_eq_ok h
    cases h
    obtain ⟨us, hc₂, hus⟩ := ih.sequence hbody
    obtain ⟨close, hclose, hc₃⟩ := c₃.takeKeyword_eq_ok htake
    rw [hc₃, ← Cursor.before_append] at hc₂
    have hc₁ := Cursor.eq_before_of_advance hadvance (by rw [hkind]; exact nofun) hc₂
    refine ⟨t :: (ts ++ c₁.current :: (us ++ [close])), ?_, .loop ht hts hkind hus hclose⟩
    rw [hc₁, ← Cursor.before_append] at hc
    rw [hc]
    rfl
  · obtain ⟨c₂, htake, h⟩ := bind_eq_ok h
    cases h
    obtain ⟨close, hclose, hc₁⟩ := c₁.takeKeyword_eq_ok htake
    refine ⟨t :: (ts ++ [close]), ?_, .emptyLoop ht hts hclose⟩
    rw [hc₁, ← Cursor.before_append] at hc
    rw [hc]
    rfl

/-- The arrow, if there is one. -/
theorem arrow_eq_ok {β : Type} {f : Cursor → Read β} {b : β}
    (h : (if c.kind = .symbol .arrow then c.advance >>= f else pure c >>= f) = .ok b) :
    ∃ c₁ ts, OptionalArrow ts ∧ c = c₁.before ts ∧ f c₁ = .ok b := by
  split at h
  · next hkind =>
    obtain ⟨c₁, hadvance, h⟩ := bind_eq_ok h
    exact ⟨c₁, [c.current], .present hkind,
      c.advance_eq_ok hadvance (by rw [hkind]; exact nofun), h⟩
  · exact ⟨c, [], .absent, rfl, h⟩

theorem function_succ (ih : Sound n) {t : Token} (ht : t.kind = .keyword .funK)
    (h : Parser.function (n + 1) c = .ok (e, c')) : Spans (.primary e) (c.before [t]) c' := by
  rw [Parser.function] at h
  obtain ⟨⟨name, c₁⟩, hname, h⟩ := bind_eq_ok h
  obtain ⟨c₂, hopen, h⟩ := bind_eq_ok h
  obtain ⟨⟨params, c₃⟩, hparams, h⟩ := bind_eq_ok h
  obtain ⟨c₄, arrow, harrow, hc₃, h⟩ := arrow_eq_ok h
  obtain ⟨⟨body, c₅⟩, hbody, h⟩ := bind_eq_ok h
  obtain ⟨c₆, hend, h⟩ := bind_eq_ok h
  obtain ⟨ns, hns, hc⟩ := takeName?_eq_ok hname
  obtain ⟨left, hleft, hc₁⟩ := c₁.takeSymbol_eq_ok hopen
  obtain ⟨ps, right, hps, hdistinct, -, hright, hc₂⟩ := parameters_eq_ok hparams
  obtain ⟨ts, hc₄, hts⟩ := ih.sequence hbody
  obtain ⟨close, hclose, hc₅⟩ := c₅.takeKeyword_eq_ok hend
  -- with a name the function is stored, which is how the grammar builds the tree too
  have hresult : e = Grammar.function name params body ∧ c' = c₆ := by
    cases name <;> cases h <;> exact ⟨rfl, rfl⟩
  obtain ⟨rfl, rfl⟩ := hresult
  refine ⟨t :: (ns ++ left :: (ps ++ right :: (arrow ++ (ts ++ [close])))), ?_,
    .func ht hns hleft hps hdistinct hright harrow hts hclose⟩
  rw [hc, hc₁, hc₂, hc₃, hc₄, hc₅]
  simp [Cursor.before]

theorem block_succ (ih : Sound n) {t : Token} (ht : t.kind = .keyword .blockK)
    (h : Parser.block (n + 1) c = .ok (e, c')) : Spans (.primary e) (c.before [t]) c' := by
  rw [Parser.block] at h
  obtain ⟨⟨label, c₁⟩, hlabel, h⟩ := bind_eq_ok h
  obtain ⟨c₂, hdo, h⟩ := bind_eq_ok h
  obtain ⟨⟨body, c₃⟩, hbody, h⟩ := bind_eq_ok h
  obtain ⟨c₄, hend, h⟩ := bind_eq_ok h
  cases h
  obtain ⟨ls, hls, hc⟩ := takeName?_eq_ok hlabel
  obtain ⟨d, hd, hc₁⟩ := c₁.takeKeyword_eq_ok hdo
  obtain ⟨ts, hc₂, hts⟩ := ih.sequence hbody
  obtain ⟨close, hclose, hc₃⟩ := c₃.takeKeyword_eq_ok hend
  refine ⟨t :: (ls ++ d :: (ts ++ [close])), ?_, .block ht hls hd hts hclose⟩
  rw [hc, hc₁, hc₂, hc₃]
  simp [Cursor.before]

end Sound

/-- Whatever the depth, what is read is derived. -/
theorem sound (n : Nat) : Sound n := by
  induction n with
  | zero => exact sound_zero
  | succ n ih =>
    exact
      { sequence := ih.sequence_succ
        statements := ih.statements_succ
        expression := ih.expression_succ
        disjunction := ih.disjunction_succ
        disjunctionRest := ih.disjunctionRest_succ
        conjunction := ih.conjunction_succ
        conjunctionRest := ih.conjunctionRest_succ
        comparison := ih.comparison_succ
        sum := ih.sum_succ
        sumRest := ih.sumRest_succ
        product := ih.product_succ
        productRest := ih.productRest_succ
        power := ih.power_succ
        term := ih.term_succ
        termRest := ih.termRest_succ
        list := ih.list_succ
        primary := ih.primary_succ
        conditional := ih.conditional_succ
        loop := ih.loop_succ
        function := ih.function_succ
        block := ih.block_succ }

end Parser

end CalcScript

/-
`Proofs/ParserCompleteness.lean` -- what the grammar derives, the parser reads.

The converse needs three things that soundness does not. A phrase can only be read
where nothing behind it continues it, so each phrase says how loosely the next token
has to bind (`Token.Kind.level`). The productions decide by the next token, so the
tokens that can begin a phrase have to be known. And the depth has to be enough:
`Room` says that it is, for all tokens ahead and as many productions as can still
open in front of the first of them.

A left-recursive phrase is not read by one call that returns it: the production reads
its leftmost part and leaves the rest to a loop, so `Reads` says of such a phrase that
the production comes to the loop behind it, holding its tree.
-/
import CalcScript.Proofs.ParserSoundness
import CalcScript.Proofs.Scanning

set_option autoImplicit false

namespace CalcScript

open Grammar

/-! ## 1. Tokens -/

/-- The tokens that a derivation can use. -/
def Token.Kind.isWord : Token.Kind → Bool
  | .malformed _ => false
  | _ => true

/-- A token of a kind that the grammar names is a word. -/
theorem Token.isWord_of_kind {t : Token} {k : Token.Kind} (ht : t.kind = k) (hk : k.isWord) :
    t.kind.isWord := by
  rw [ht]
  exact hk

namespace Token.Kind

/-- The tokens that can begin a term. -/
def beginsTerm : Token.Kind → Bool
  | .number _ | .str _ | .identifier => true
  | .symbol s => s = .not || s = .openParen || s = .openBracket
  | .keyword k => k = .nullK || k = .trueK || k = .falseK || k = .ifK || k = .whileK || k = .funK ||
      k = .blockK
  | _ => false

/-- The tokens that can begin an expression: those of terms, and the signs. -/
def beginsExpression (k : Token.Kind) : Bool := k.beginsTerm || k.sign?.isSome

/-- No term begins with a sign, so a sum that begins with a term has none. -/
theorem sign?_of_beginsTerm {k : Token.Kind} (h : k.beginsTerm) : k.sign? = none := by
  cases k with
  | symbol s =>
    cases s with
    | plus | minus => cases h
    | _ => rfl
  | _ => rfl

/-- A symbol that begins no expression is told apart from the first token of one. -/
theorem ne_of_beginsExpression {k : Token.Kind} {s : Symbol} (h : k.beginsExpression)
    (hs : (Token.Kind.symbol s).beginsExpression = false) : k ≠ .symbol s := by
  rintro rfl
  rw [hs] at h
  cases h

end Token.Kind

/-- The first token of a phrase. A sequence may be empty. -/
def Grammar.Begins : Phrase → List Token → Prop
  | .list _, _ | .branches _, _ => True
  | .sequence _, ts | .items _, ts =>
    ∀ t ∈ ts.head?, t.kind = .symbol .semicolon ∨ t.kind.beginsExpression
  | .expression _, ts | .disjunction _, ts | .conjunction _, ts | .comparison _, ts | .sum _, ts =>
    ∃ t us, ts = t :: us ∧ t.kind.beginsExpression
  | .product _, ts | .power _, ts | .term _, ts | .operand _, ts | .primary _, ts =>
    ∃ t us, ts = t :: us ∧ t.kind.beginsTerm

namespace Grammar

variable {phrase : Phrase} {ts : List Token}

/-- What stands behind a phrase that is not empty does not change its first token. -/
theorem begins_append {p : Token → Prop} {us : List Token} (h : ∃ t vs, ts = t :: vs ∧ p t) :
    ∃ t vs, ts ++ us = t :: vs ∧ p t := by
  obtain ⟨t, vs, rfl, ht⟩ := h
  exact ⟨t, vs ++ us, rfl, ht⟩

/-- By induction on the derivation; the first part of a phrase begins it. -/
theorem Derives.begins (h : Derives phrase ts) : Begins phrase ts := by
  induction h with
  | sequence _ ih => exact ih
  | noItem => exact nofun
  | semicolon ht _ _ =>
    intro t hmem
    cases hmem
    exact .inl ht
  | lastItem _ ih =>
    intro t hmem
    obtain ⟨u, us, rfl, hu⟩ := ih
    cases hmem
    exact .inr hu
  | item _ _ _ ih _ =>
    intro t hmem
    obtain ⟨u, us, rfl, hu⟩ := ih
    cases hmem
    exact .inr hu
  | noElement | lastElement | element => trivial
  | oneBranch | elseBranch | elifBranch => trivial
  | expression _ ih | disjunction _ ih | conjunction _ ih | comparison _ ih => exact ih
  | product _ ih | power _ ih | term _ ih | operand _ ih => exact ih
  -- a phrase with an operator begins as its left operand does
  | store _ _ _ ih _ | update _ _ _ ih _ | replace _ _ _ ih _ => exact begins_append ih
  | or _ _ _ ih _ | and _ _ _ ih _ | compare _ _ _ ih _ | add _ _ _ ih _ => exact begins_append ih
  | multiply _ _ _ ih _ | raise _ _ _ ih _ => exact begins_append ih
  | call _ _ _ _ ih _ | index _ _ _ _ ih _ => exact begins_append ih
  | sum _ ih =>
    obtain ⟨t, us, rfl, ht⟩ := ih
    exact ⟨t, us, rfl, by simp [Token.Kind.beginsExpression, ht]⟩
  | @signed t op e ts ht _ _ =>
    have hsign := mem_signs.mp ht
    exact ⟨t, ts, rfl, by simp [Token.Kind.beginsExpression, hsign]⟩
  | number ht | str ht | null ht | true ht | false ht | var ht =>
    exact ⟨_, _, rfl, by rw [ht]; rfl⟩
  | not ht | parentheses ht | array ht | cond ht | emptyLoop ht | loop ht | func ht | block ht =>
    exact ⟨_, _, rfl, by rw [ht]; rfl⟩

theorem OptionalName.isWord {name : Option String} (h : OptionalName name ts) :
    ∀ t ∈ ts, t.kind.isWord := by
  cases h with
  | absent => exact List.forall_mem_nil _
  | present ht =>
    intro t hmem
    rw [List.mem_singleton.mp hmem]
    exact Token.isWord_of_kind ht rfl

theorem OptionalArrow.isWord (h : OptionalArrow ts) : ∀ t ∈ ts, t.kind.isWord := by
  cases h with
  | absent => exact List.forall_mem_nil _
  | present ht =>
    intro t hmem
    rw [List.mem_singleton.mp hmem]
    exact Token.isWord_of_kind ht rfl

theorem Parameters.isWord {names : List String} (h : Parameters names ts) :
    ∀ t ∈ ts, t.kind.isWord := by
  induction h with
  | nil => exact List.forall_mem_nil _
  | last ht =>
    intro t hmem
    rw [List.mem_singleton.mp hmem]
    exact Token.isWord_of_kind ht rfl
  | cons ht hcomma _ ih =>
    simp only [List.forall_mem_cons]
    exact ⟨Token.isWord_of_kind ht rfl, Token.isWord_of_kind hcomma rfl, ih⟩

theorem isWord_of_mem {ops : List (Token.Kind × Primitive)} {t : Token} {op : Primitive}
    (ht : (t.kind, op) ∈ ops) (hops : ∀ p ∈ ops, p.1.isWord) : t.kind.isWord :=
  hops (t.kind, op) ht

/-- No derivation uses a malformed token. -/
theorem Derives.isWord (h : Derives phrase ts) : ∀ t ∈ ts, t.kind.isWord := by
  induction h with
  | noItem | noElement => exact List.forall_mem_nil _
  | sequence _ ih | lastItem _ ih | expression _ ih | disjunction _ ih => exact ih
  | conjunction _ ih | comparison _ ih | sum _ ih | product _ ih | power _ ih => exact ih
  | term _ ih | operand _ ih | lastElement _ ih => exact ih
  | number ht | str ht | null ht | true ht | false ht | var ht =>
    simpa using Token.isWord_of_kind ht rfl
  | semicolon ht _ ih | not ht _ ih =>
    exact List.forall_mem_cons.mpr ⟨Token.isWord_of_kind ht rfl, ih⟩
  | signed ht _ ih =>
    exact List.forall_mem_cons.mpr ⟨isWord_of_mem ht (by decide), ih⟩
  | item _ ht _ ih₁ ih₂ | store _ ht _ ih₁ ih₂ | update _ ht _ ih₁ ih₂ | replace _ ht _ ih₁ ih₂
  | or _ ht _ ih₁ ih₂ | and _ ht _ ih₁ ih₂ | raise _ ht _ ih₁ ih₂ | element _ ht _ ih₁ ih₂ =>
    simp only [List.forall_mem_append, List.forall_mem_cons]
    exact ⟨ih₁, Token.isWord_of_kind ht rfl, ih₂⟩
  | compare _ ht _ ih₁ ih₂ =>
    simp only [List.forall_mem_append, List.forall_mem_cons]
    exact ⟨ih₁, isWord_of_mem ht (by decide), ih₂⟩
  | add _ ht _ ih₁ ih₂ =>
    simp only [List.forall_mem_append, List.forall_mem_cons]
    exact ⟨ih₁, isWord_of_mem ht (by decide), ih₂⟩
  | multiply _ ht _ ih₁ ih₂ =>
    simp only [List.forall_mem_append, List.forall_mem_cons]
    exact ⟨ih₁, isWord_of_mem ht (by decide), ih₂⟩
  | call _ ht _ hclose ih₁ ih₂ | index _ ht _ hclose ih₁ ih₂ =>
    simp only [List.forall_mem_append, List.forall_mem_cons]
    exact ⟨ih₁, Token.isWord_of_kind ht rfl, ih₂, Token.isWord_of_kind hclose rfl,
      List.forall_mem_nil _⟩
  | parentheses ht _ hclose ih | array ht _ hclose ih | cond ht _ hclose ih
  | emptyLoop ht _ hclose ih =>
    simp only [List.forall_mem_append, List.forall_mem_cons]
    exact ⟨Token.isWord_of_kind ht rfl, ih, Token.isWord_of_kind hclose rfl, List.forall_mem_nil _⟩
  | loop ht _ hd _ hclose ih₁ ih₂ =>
    simp only [List.forall_mem_append, List.forall_mem_cons]
    exact ⟨Token.isWord_of_kind ht rfl, ih₁, Token.isWord_of_kind hd rfl, ih₂,
      Token.isWord_of_kind hclose rfl, List.forall_mem_nil _⟩
  | func ht hname hleft hparams _ hright harrow _ hclose ih =>
    simp only [List.forall_mem_append, List.forall_mem_cons]
    exact ⟨Token.isWord_of_kind ht rfl, hname.isWord, Token.isWord_of_kind hleft rfl,
      hparams.isWord, Token.isWord_of_kind hright rfl, harrow.isWord, ih,
      Token.isWord_of_kind hclose rfl, List.forall_mem_nil _⟩
  | block ht hlabel hd _ hclose ih =>
    simp only [List.forall_mem_append, List.forall_mem_cons]
    exact ⟨Token.isWord_of_kind ht rfl, hlabel.isWord, Token.isWord_of_kind hd rfl, ih,
      Token.isWord_of_kind hclose rfl, List.forall_mem_nil _⟩
  | oneBranch _ hd _ ih₁ ih₂ =>
    simp only [List.forall_mem_append, List.forall_mem_cons]
    exact ⟨ih₁, hd.elim (Token.isWord_of_kind · rfl) (Token.isWord_of_kind · rfl), ih₂⟩
  | elseBranch _ hd _ he _ ih₁ ih₂ ih₃ | elifBranch _ hd _ he _ ih₁ ih₂ ih₃ =>
    simp only [List.forall_mem_append, List.forall_mem_cons]
    exact ⟨ih₁, hd.elim (Token.isWord_of_kind · rfl) (Token.isWord_of_kind · rfl), ih₂,
      Token.isWord_of_kind he rfl, ih₃⟩

end Grammar

/-! ## 2. Room -/

namespace Parser

/-- The tokens ahead are words, and the depth `n` is enough to read them all with
`rank` productions open in front of the first. -/
structure Room (c : Cursor) (rank n : Nat) : Prop where
  words : ∀ t ∈ c.rest, t.kind.isWord
  depth : 16 * c.rest.length + rank ≤ n

namespace Room

variable {c : Cursor} {rank n : Nat} {t : Token} {ts : List Token}

/-- Opening a production takes one from the depth. -/
theorem succ (h : Room c (rank + 1) n) : ∃ m, n = m + 1 ∧ Room c rank m := by
  have hdepth := h.depth
  exact ⟨n - 1, by omega, h.words, by omega⟩

theorem mono {rank' : Nat} (h : Room c rank n) (hle : rank' ≤ rank) : Room c rank' n :=
  ⟨h.words, Nat.le_trans (Nat.add_le_add_left hle _) h.depth⟩

/-- What has been read needs no room any more. -/
theorem behind (h : Room (c.before ts) rank n) : Room c rank n := by
  have hdepth := h.depth
  simp only [Cursor.before, List.length_append] at hdepth
  exact ⟨fun t ht => h.words t (List.mem_append_right ts ht), by omega⟩

/-- Taking a token makes room for sixteen more productions. -/
theorem tail (h : Room (c.before (t :: ts)) rank n) : Room (c.before ts) (rank + 16) n := by
  have hdepth := h.depth
  simp only [Cursor.before, List.cons_append, List.length_cons] at hdepth
  exact ⟨fun u hu => h.words u (List.mem_cons_of_mem t hu), by simp only [Cursor.before]; omega⟩

/-- A cursor checks its next token for being malformed, and a word is not. -/
theorem check_eq (h : Room c rank n) : c.check = .ok c := by
  obtain ⟨rest, finish⟩ := c
  cases rest with
  | nil => rfl
  | cons t ts =>
    have ht := h.words t List.mem_cons_self
    simp only [Cursor.check, Cursor.kind, Cursor.current, List.headD_cons]
    split
    · next m hm =>
      rw [hm] at ht
      cases ht
    · rfl

/-- Hence with room a token can always be taken. -/
theorem advance_eq (h : Room (c.before (t :: ts)) rank n) :
    (c.before (t :: ts)).advance = .ok (c.before ts) :=
  h.tail.check_eq

theorem takeSymbol_eq {s : Symbol} (h : Room (c.before (t :: ts)) rank n)
    (ht : t.kind = .symbol s) : (c.before (t :: ts)).takeSymbol s = .ok (c.before ts) := by
  rw [Cursor.takeSymbol, Cursor.kind_before_cons, if_pos ht, h.advance_eq]

theorem takeKeyword_eq {k : Keyword} (h : Room (c.before (t :: ts)) rank n)
    (ht : t.kind = .keyword k) : (c.before (t :: ts)).takeKeyword k = .ok (c.before ts) := by
  rw [Cursor.takeKeyword, Cursor.kind_before_cons, if_pos ht, h.advance_eq]

end Room

@[simp] theorem ok_bind {α β : Type} (a : α) (f : α → Read β) : Except.ok a >>= f = f a := rfl

/-! ## 3. Where phrases end -/

section Ends

variable {c : Cursor} {n rank : Nat} {e : Expr}

/-- The loops end where the next token binds too loosely. This one goes on for `||` only. -/
theorem disjunctionRest_of_level (h : Room c (rank + 1) n) (hlevel : 6 < c.kind.level) :
    disjunctionRest n e c = .ok (e, c) := by
  obtain ⟨m, rfl, -⟩ := h.succ
  have hkind : c.kind ≠ .symbol .or := by
    intro hk
    rw [hk] at hlevel
    exact Nat.lt_irrefl 6 hlevel
  rw [disjunctionRest, if_neg hkind]

theorem conjunctionRest_of_level (h : Room c (rank + 1) n) (hlevel : 5 < c.kind.level) :
    conjunctionRest n e c = .ok (e, c) := by
  obtain ⟨m, rfl, -⟩ := h.succ
  have hkind : c.kind ≠ .symbol .and := by
    intro hk
    rw [hk] at hlevel
    exact Nat.lt_irrefl 5 hlevel
  rw [conjunctionRest, if_neg hkind]

/-- Comparisons are no loop, but the operator is looked for in the same way. -/
theorem comparison?_of_level {k : Token.Kind} (hlevel : 4 < k.level) : k.comparison? = none := by
  unfold Token.Kind.comparison?
  split <;> first | rfl | exact absurd hlevel (Nat.lt_irrefl 4)

theorem sumRest_of_level (h : Room c (rank + 1) n) (hlevel : 3 < c.kind.level) :
    sumRest n e c = .ok (e, c) := by
  obtain ⟨m, rfl, -⟩ := h.succ
  have hop : c.kind.sum? = none := by
    generalize c.kind = k at hlevel
    unfold Token.Kind.sum?
    split <;> first | rfl | exact absurd hlevel (Nat.lt_irrefl 3)
  rw [sumRest, hop]

theorem productRest_of_level (h : Room c (rank + 1) n) (hlevel : 2 < c.kind.level) :
    productRest n e c = .ok (e, c) := by
  obtain ⟨m, rfl, -⟩ := h.succ
  have hop : c.kind.product? = none := by
    generalize c.kind = k at hlevel
    unfold Token.Kind.product?
    split <;> first | rfl | exact absurd hlevel (Nat.lt_irrefl 2)
  rw [productRest, hop]

/-- Here it is the brackets that go on, for calls and indices. -/
theorem termRest_eq_of_level (h : Room c (rank + 1) n) (hlevel : 0 < c.kind.level) :
    termRest n e c = .ok (e, c) := by
  obtain ⟨m, rfl, -⟩ := h.succ
  rw [termRest]
  split
  · next hkind => rw [hkind] at hlevel; exact absurd hlevel (Nat.lt_irrefl 0)
  · next hkind => rw [hkind] at hlevel; exact absurd hlevel (Nat.lt_irrefl 0)
  · rfl

/-- All operators of a table bind alike. -/
theorem level_of_mem {ops : List (Token.Kind × Primitive)} {k : Token.Kind} {op : Primitive}
    {level : Nat} (h : (k, op) ∈ ops) (hops : ∀ p ∈ ops, p.1.level = level) : k.level = level :=
  hops (k, op) h

/-- The token that a phrase stands in front of decides whether the phrase has ended. -/
theorem level_before {t : Token} {ts : List Token} {k : Token.Kind} (ht : t.kind = k) :
    (c.before (t :: ts)).kind.level = k.level := by
  rw [Cursor.kind_before_cons, ht]

/-- An expression shows itself by its first token, wherever it stands. -/
theorem beginsExpression_before {ts : List Token} (h : Begins (.expression e) ts) :
    (c.before ts).kind.beginsExpression := by
  obtain ⟨t, us, rfl, ht⟩ := h
  exact ht

/-- What ends a sequence ends the last expression of it. -/
theorem level_of_atSequenceEnd (h : c.atSequenceEnd) : 7 < c.kind.level := by
  unfold Cursor.atSequenceEnd at h
  split at h
  · next hkind => rw [hkind]; decide
  · next s hkind =>
    obtain rfl : s = .closeParen := by simpa using h
    rw [hkind]; decide
  · next k hkind =>
    simp only [Bool.or_eq_true, decide_eq_true_eq] at h
    rcases h with (((rfl | rfl) | rfl) | rfl) | rfl <;> rw [hkind] <;> decide
  · cases h

/-- No expression begins with what ends a sequence. -/
theorem atSequenceEnd_of_beginsExpression (h : c.kind.beginsExpression) :
    c.atSequenceEnd = false := by
  unfold Cursor.atSequenceEnd
  split
  · next hkind => rw [hkind] at h; cases h
  · next s hkind =>
    rw [hkind] at h
    cases s <;> first | rfl | cases h
  · next k hkind =>
    rw [hkind] at h
    cases k <;> first | rfl | cases h
  · rfl

end Ends

/-! ## 4. Reading a phrase -/

/-- The production of a phrase reads its tokens `ts` wherever they stand, if there is
room and what follows does not continue the phrase. -/
def Reads : Phrase → List Token → Prop
  | .sequence e, ts => ∀ {c : Cursor} {n : Nat}, Room (c.before ts) 15 n → c.atSequenceEnd →
    sequence n (c.before ts) = .ok (e, c)
  | .items es, ts => ∀ {c : Cursor} {n : Nat}, Room (c.before ts) 14 n → c.atSequenceEnd →
    statements n (c.before ts) = .ok (es, c)
  | .expression e, ts => ∀ {c : Cursor} {n : Nat}, Room (c.before ts) 13 n → 7 < c.kind.level →
    expression n (c.before ts) = .ok (e, c)
  | .disjunction e, ts => ∀ {c : Cursor} {n : Nat}, Room (c.before ts) 12 n → 5 < c.kind.level →
    ∃ k, Room c 11 k ∧ disjunction n (c.before ts) = disjunctionRest k e c
  | .conjunction e, ts => ∀ {c : Cursor} {n : Nat}, Room (c.before ts) 11 n → 4 < c.kind.level →
    ∃ k, Room c 10 k ∧ conjunction n (c.before ts) = conjunctionRest k e c
  | .comparison e, ts => ∀ {c : Cursor} {n : Nat}, Room (c.before ts) 10 n → 4 < c.kind.level →
    comparison n (c.before ts) = .ok (e, c)
  | .sum e, ts => ∀ {c : Cursor} {n : Nat}, Room (c.before ts) 9 n → 2 < c.kind.level →
    ∃ k, Room c 8 k ∧ sum n (c.before ts) = sumRest k e c
  | .product e, ts => ∀ {c : Cursor} {n : Nat}, Room (c.before ts) 8 n → 1 < c.kind.level →
    ∃ k, Room c 7 k ∧ product n (c.before ts) = productRest k e c
  | .power e, ts => ∀ {c : Cursor} {n : Nat}, Room (c.before ts) 7 n → 1 < c.kind.level →
    power n (c.before ts) = .ok (e, c)
  | .term e, ts => ∀ {c : Cursor} {n : Nat}, Room (c.before ts) 6 n → 0 < c.kind.level →
    term n (c.before ts) = .ok (e, c)
  | .operand e, ts => ∀ {c : Cursor} {n : Nat}, Room (c.before ts) 6 n →
    ∃ k, Room c 5 k ∧ term n (c.before ts) = termRest k e c
  | .primary e, ts => ∀ {c : Cursor} {n : Nat}, Room (c.before ts) 5 n →
    primary n (c.before ts) = .ok (e, c)
  | .list es, ts => ∀ {c : Cursor} {n : Nat} {t : Token} {close : Symbol},
    t.kind = .symbol close → close = .closeParen ∨ close = .closeBracket →
    Room (c.before (ts ++ [t])) 14 n → list n close (c.before (ts ++ [t])) = .ok (es, c)
  | .branches e, ts => ∀ {c : Cursor} {n : Nat}, Room (c.before ts) 16 n →
    c.kind = .keyword .endK → conditional n (c.before ts) = .ok (e, c)

namespace Reads

variable {e left right : Expr} {es : List Expr} {t : Token} {ts us : List Token}

theorem sequence (h : Reads (.items es) ts) : Reads (.sequence (.ofSequence es)) ts := by
  intro c n hroom hend
  obtain ⟨m, rfl, hm⟩ := hroom.succ
  rw [Parser.sequence, h hm hend]
  rfl

/-- Where the sequence ends at once, there is no item. -/
theorem noItem : Reads (.items []) [] := by
  intro c n hroom hend
  obtain ⟨m, rfl, -⟩ := hroom.succ
  -- a semicolon does not end a sequence
  have hkind : c.kind ≠ .symbol .semicolon := by
    intro hk
    simp [Cursor.atSequenceEnd, hk] at hend
  rw [Cursor.before_nil, Parser.statements, if_neg hkind, if_pos hend]

theorem semicolon (ht : t.kind = .symbol .semicolon) (h : Reads (.items es) ts) :
    Reads (.items es) (t :: ts) := by
  intro c n hroom hend
  obtain ⟨m, rfl, hm⟩ := hroom.succ
  rw [Parser.statements, Cursor.kind_before_cons, if_pos ht, hm.advance_eq, ok_bind]
  exact h (hm.tail.mono (by decide)) hend

/-- Where an expression begins, a sequence reads one. -/
theorem statements_succ {c : Cursor} {n : Nat} (hbegins : c.kind.beginsExpression) :
    Parser.statements (n + 1) c = Parser.expression n c >>= fun (item, c) =>
      if c.kind = .symbol .semicolon then
        c.advance >>= fun c => Parser.statements n c >>= fun (items, c) => pure (item :: items, c)
      else pure ([item], c) := by
  have hsemicolon : c.kind ≠ .symbol .semicolon := Token.Kind.ne_of_beginsExpression hbegins rfl
  rw [Parser.statements, if_neg hsemicolon, atSequenceEnd_of_beginsExpression hbegins]
  rfl

/-- Without a semicolon behind it, an item is the last one. -/
theorem lastItem (hbegins : Begins (.expression e) ts) (h : Reads (.expression e) ts) :
    Reads (.items [e]) ts := by
  intro c n hroom hend
  obtain ⟨m, rfl, hm⟩ := hroom.succ
  have hkind : c.kind ≠ .symbol .semicolon := by
    intro hk
    simp [Cursor.atSequenceEnd, hk] at hend
  rw [statements_succ (beginsExpression_before hbegins), h hm (level_of_atSequenceEnd hend),
    ok_bind]
  dsimp only
  rw [if_neg hkind]
  rfl

/-- With one the sequence goes on behind it. -/
theorem item (hbegins : Begins (.expression e) ts) (h : Reads (.expression e) ts)
    (ht : t.kind = .symbol .semicolon) (hes : Reads (.items es) us) :
    Reads (.items (e :: es)) (ts ++ t :: us) := by
  intro c n hroom hend
  obtain ⟨m, rfl, hm⟩ := hroom.succ
  rw [Cursor.before_append] at hm ⊢
  have hlevel : (c.before (t :: us)).kind.level = 8 := level_before ht
  have hus := hes (hm.behind.tail.mono (by decide)) hend
  rw [statements_succ (beginsExpression_before hbegins), h hm (by omega), ok_bind]
  dsimp only
  rw [Cursor.kind_before_cons, if_pos ht, hm.behind.advance_eq, ok_bind, hus]
  rfl

/-- The first operand is read, and the loop comes behind it. Likewise for the other loops below. -/
theorem disjunction (h : Reads (.conjunction e) ts) : Reads (.disjunction e) ts := by
  intro c n hroom hlevel
  obtain ⟨m, rfl, hm⟩ := hroom.succ
  obtain ⟨k, hk, heq⟩ := h hm (by omega)
  refine ⟨m, hm.behind, ?_⟩
  rw [Parser.disjunction, heq, conjunctionRest_of_level hk hlevel]
  rfl

/-- One more turn of the loop. The same argument serves for `&&`, for sums and for products. -/
theorem or (hleft : Reads (.disjunction left) ts) (ht : t.kind = .symbol .or)
    (hright : Reads (.conjunction right) us) :
    Reads (.disjunction (.or left right)) (ts ++ t :: us) := by
  intro c n hroom hlevel
  rw [Cursor.before_append] at hroom ⊢
  have hop : (c.before (t :: us)).kind.level = 6 := level_before ht
  -- reading the left operand comes to the loop, at the operator; one turn of it reads the
  -- right operand and comes to the loop again, behind the whole
  obtain ⟨k, hk, heq⟩ := hleft hroom (by omega)
  obtain ⟨m, rfl, hm⟩ := hk.succ
  obtain ⟨k', hk', heq'⟩ := hright (hm.tail.mono (by decide)) (by omega)
  refine ⟨m, hm.tail.behind.mono (by decide), ?_⟩
  rw [heq, Parser.disjunctionRest, Cursor.kind_before_cons, if_pos ht, hm.advance_eq, ok_bind, heq',
    conjunctionRest_of_level hk' hlevel]
  rfl

theorem conjunction (h : Reads (.comparison e) ts) : Reads (.conjunction e) ts := by
  intro c n hroom hlevel
  obtain ⟨m, rfl, hm⟩ := hroom.succ
  refine ⟨m, hm.behind, ?_⟩
  rw [Parser.conjunction, h hm hlevel]
  rfl

theorem and (hleft : Reads (.conjunction left) ts) (ht : t.kind = .symbol .and)
    (hright : Reads (.comparison right) us) :
    Reads (.conjunction (.and left right)) (ts ++ t :: us) := by
  intro c n hroom hlevel
  rw [Cursor.before_append] at hroom ⊢
  have hop : (c.before (t :: us)).kind.level = 5 := level_before ht
  -- as for `||`, but the right operand is a comparison, which is no loop
  obtain ⟨k, hk, heq⟩ := hleft hroom (by omega)
  obtain ⟨m, rfl, hm⟩ := hk.succ
  have hus := hright (hm.tail.mono (by decide)) hlevel
  refine ⟨m, hm.tail.behind.mono (by decide), ?_⟩
  rw [heq, Parser.conjunctionRest, Cursor.kind_before_cons, if_pos ht, hm.advance_eq, ok_bind, hus]
  rfl

theorem comparison (h : Reads (.sum e) ts) : Reads (.comparison e) ts := by
  intro c n hroom hlevel
  obtain ⟨m, rfl, hm⟩ := hroom.succ
  obtain ⟨k, hk, heq⟩ := h hm (by omega)
  rw [Parser.comparison, heq, sumRest_of_level hk (by omega), ok_bind]
  dsimp only
  rw [comparison?_of_level hlevel]
  rfl

/-- An expression without an arrow ends in front of what binds more loosely than all operators. -/
theorem expression (h : Reads (.disjunction e) ts) : Reads (.expression e) ts := by
  intro c n hroom hlevel
  obtain ⟨m, rfl, hm⟩ := hroom.succ
  obtain ⟨k, hk, heq⟩ := h hm (by omega)
  rw [Parser.expression, heq, disjunctionRest_of_level hk (by omega), ok_bind]
  dsimp only
  split
  · next hkind => rw [hkind] at hlevel; exact absurd hlevel (Nat.lt_irrefl 7)
  · next hkind => rw [hkind] at hlevel; exact absurd hlevel (Nat.lt_irrefl 7)
  · rfl

/-- Both sides of a definition or a change are read. -/
theorem sides {target value : Expr} (htarget : Reads (.disjunction target) ts)
    (hvalue : Reads (.disjunction value) us) (hop : t.kind.level = 7) {c : Cursor} {n : Nat}
    (hroom : Room (c.before (ts ++ t :: us)) 12 n) (hlevel : 7 < c.kind.level) :
    Parser.disjunction n (c.before (ts ++ t :: us)) = .ok (target, c.before (t :: us)) ∧
      (c.before (t :: us)).advance = .ok (c.before us) ∧
      Parser.disjunction n (c.before us) = .ok (value, c) := by
  rw [Cursor.before_append] at hroom ⊢
  have hop : (c.before (t :: us)).kind.level = 7 := hop
  obtain ⟨k, hk, heq⟩ := htarget hroom (by omega)
  obtain ⟨k', hk', heq'⟩ := hvalue (hroom.behind.tail.mono (by decide)) (by omega)
  refine ⟨?_, hk.advance_eq, ?_⟩
  · rw [heq, disjunctionRest_of_level hk (by omega)]
  · rw [heq', disjunctionRest_of_level hk' (by omega)]

/-- A definition: the target is read as a disjunction and found to be a variable. -/
theorem store {name : String} {pos : Position} {value : Expr}
    (htarget : Reads (.disjunction (.var name pos)) ts) (ht : t.kind = .symbol .store)
    (hvalue : Reads (.disjunction value) us) :
    Reads (.expression (.store name value)) (ts ++ t :: us) := by
  intro c n hroom hlevel
  obtain ⟨m, rfl, hm⟩ := hroom.succ
  obtain ⟨h₁, h₂, h₃⟩ := sides htarget hvalue (by rw [ht]; rfl) hm hlevel
  rw [Parser.expression, h₁, ok_bind]
  dsimp only
  rw [Cursor.kind_before_cons, ht]
  dsimp only
  rw [h₂, ok_bind, h₃]
  rfl

theorem update {name : String} {pos : Position} {value : Expr}
    (htarget : Reads (.disjunction (.var name pos)) ts) (ht : t.kind = .symbol .update)
    (hvalue : Reads (.disjunction value) us) :
    Reads (.expression (.update name value pos)) (ts ++ t :: us) := by
  intro c n hroom hlevel
  obtain ⟨m, rfl, hm⟩ := hroom.succ
  obtain ⟨h₁, h₂, h₃⟩ := sides htarget hvalue (by rw [ht]; rfl) hm hlevel
  rw [Parser.expression, h₁, ok_bind]
  dsimp only
  rw [Cursor.kind_before_cons, ht]
  dsimp only
  rw [h₂, ok_bind, h₃]
  rfl

/-- An element as the target has been read as a look-up, which becomes the change of it. -/
theorem replace {collection index value : Expr} {pos : Position}
    (htarget : Reads (.disjunction (.apply (.primitive .get) [collection, index] pos)) ts)
    (ht : t.kind = .symbol .update) (hvalue : Reads (.disjunction value) us) :
    Reads (.expression (.apply (.primitive .set) [collection, index, value] pos))
      (ts ++ t :: us) := by
  intro c n hroom hlevel
  obtain ⟨m, rfl, hm⟩ := hroom.succ
  obtain ⟨h₁, h₂, h₃⟩ := sides htarget hvalue (by rw [ht]; rfl) hm hlevel
  rw [Parser.expression, h₁, ok_bind]
  dsimp only
  rw [Cursor.kind_before_cons, ht]
  dsimp only
  rw [h₂, ok_bind, h₃]
  rfl

theorem compare {op : Primitive} (hleft : Reads (.sum left) ts) (ht : (t.kind, op) ∈ comparisons)
    (hright : Reads (.sum right) us) :
    Reads (.comparison (operation op t [left, right])) (ts ++ t :: us) := by
  intro c n hroom hlevel
  obtain ⟨m, rfl, hm⟩ := hroom.succ
  rw [Cursor.before_append] at hm ⊢
  have hop : (c.before (t :: us)).kind.level = 4 := level_of_mem ht (by decide)
  obtain ⟨k, hk, heq⟩ := hleft hm (by omega)
  obtain ⟨k', hk', heq'⟩ := hright (hm.behind.tail.mono (by decide)) (by omega)
  rw [Parser.comparison, heq, sumRest_of_level hk (by omega), ok_bind]
  dsimp only
  rw [Cursor.kind_before_cons, mem_comparisons.mp ht]
  dsimp only
  rw [hk.advance_eq, ok_bind, heq', sumRest_of_level hk' (by omega)]
  rfl

/-- A sum without a sign begins with a term, by which the parser knows. -/
theorem sum (hbegins : Begins (.product e) ts) (h : Reads (.product e) ts) :
    Reads (.sum e) ts := by
  intro c n hroom hlevel
  obtain ⟨m, rfl, hm⟩ := hroom.succ
  have hsign : (c.before ts).kind.sign? = none := by
    obtain ⟨t, us, rfl, ht⟩ := hbegins
    exact Token.Kind.sign?_of_beginsTerm ht
  obtain ⟨k, hk, heq⟩ := h hm (by omega)
  refine ⟨m, hm.behind, ?_⟩
  rw [Parser.sum, hsign]
  dsimp only
  rw [heq, productRest_of_level hk hlevel]
  rfl

theorem signed {op : Primitive} (ht : (t.kind, op) ∈ signs) (h : Reads (.product e) ts) :
    Reads (.sum (operation op t [e])) (t :: ts) := by
  intro c n hroom hlevel
  obtain ⟨m, rfl, hm⟩ := hroom.succ
  obtain ⟨k, hk, heq⟩ := h (hm.tail.mono (by decide)) (by omega)
  refine ⟨m, hm.behind, ?_⟩
  rw [Parser.sum, Cursor.kind_before_cons, mem_signs.mp ht]
  dsimp only
  rw [hm.advance_eq, ok_bind, heq, productRest_of_level hk hlevel]
  rfl

theorem add {op : Primitive} (hleft : Reads (.sum left) ts) (ht : (t.kind, op) ∈ additions)
    (hright : Reads (.product right) us) :
    Reads (.sum (operation op t [left, right])) (ts ++ t :: us) := by
  intro c n hroom hlevel
  rw [Cursor.before_append] at hroom ⊢
  have hop : (c.before (t :: us)).kind.level = 3 := level_of_mem ht (by decide)
  obtain ⟨k, hk, heq⟩ := hleft hroom (by omega)
  obtain ⟨m, rfl, hm⟩ := hk.succ
  obtain ⟨k', hk', heq'⟩ := hright (hm.tail.mono (by decide)) (by omega)
  refine ⟨m, hm.tail.behind.mono (by decide), ?_⟩
  rw [heq, Parser.sumRest, Cursor.kind_before_cons, mem_additions.mp ht]
  dsimp only
  rw [hm.advance_eq, ok_bind, heq', productRest_of_level hk' hlevel]
  rfl

theorem product (h : Reads (.power e) ts) : Reads (.product e) ts := by
  intro c n hroom hlevel
  obtain ⟨m, rfl, hm⟩ := hroom.succ
  refine ⟨m, hm.behind, ?_⟩
  rw [Parser.product, h hm hlevel]
  rfl

theorem multiply {op : Primitive} (hleft : Reads (.product left) ts)
    (ht : (t.kind, op) ∈ multiplications) (hright : Reads (.power right) us) :
    Reads (.product (operation op t [left, right])) (ts ++ t :: us) := by
  intro c n hroom hlevel
  rw [Cursor.before_append] at hroom ⊢
  have hop : (c.before (t :: us)).kind.level = 2 := level_of_mem ht (by decide)
  obtain ⟨k, hk, heq⟩ := hleft hroom (by omega)
  obtain ⟨m, rfl, hm⟩ := hk.succ
  have hus := hright (hm.tail.mono (by decide)) hlevel
  refine ⟨m, hm.tail.behind.mono (by decide), ?_⟩
  rw [heq, Parser.productRest, Cursor.kind_before_cons, mem_multiplications.mp ht]
  dsimp only
  rw [hm.advance_eq, ok_bind, hus]
  rfl

theorem power (h : Reads (.term e) ts) : Reads (.power e) ts := by
  intro c n hroom hlevel
  obtain ⟨m, rfl, hm⟩ := hroom.succ
  have hkind : c.kind ≠ .symbol .caret := by
    intro hk
    rw [hk] at hlevel
    exact Nat.lt_irrefl 1 hlevel
  rw [Parser.power, h hm (by omega), ok_bind]
  dsimp only
  rw [if_neg hkind]
  rfl

/-- Powers nest to the right: the exponent is a power again. -/
theorem raise (hbase : Reads (.term left) ts) (ht : t.kind = .symbol .caret)
    (hexponent : Reads (.power right) us) :
    Reads (.power (operation .pow t [left, right])) (ts ++ t :: us) := by
  intro c n hroom hlevel
  obtain ⟨m, rfl, hm⟩ := hroom.succ
  rw [Cursor.before_append] at hm ⊢
  have hop : (c.before (t :: us)).kind.level = 1 := level_before ht
  have hus := hexponent (hm.behind.tail.mono (by decide)) hlevel
  rw [Parser.power, hbase hm (by omega), ok_bind]
  dsimp only
  rw [Cursor.kind_before_cons, if_pos ht, hm.behind.advance_eq, ok_bind, hus]
  rfl

theorem term (h : Reads (.operand e) ts) : Reads (.term e) ts := by
  intro c n hroom hlevel
  obtain ⟨k, hk, heq⟩ := h hroom
  rw [heq, termRest_eq_of_level hk hlevel]

/-- The parser has `!` among the primaries, so it takes one production more than the grammar. -/
theorem not (ht : t.kind = .symbol .not) (h : Reads (.term e) ts) :
    Reads (.term (operation .not t [e])) (t :: ts) := by
  intro c n hroom hlevel
  obtain ⟨m, rfl, hm⟩ := hroom.succ
  obtain ⟨k, rfl, hk⟩ := hm.succ
  rw [Parser.term, Parser.primary, Cursor.kind_before_cons, ht]
  dsimp only
  rw [hk.advance_eq, ok_bind, h (hk.tail.mono (by decide)) hlevel]
  -- the loop over calls and indices finds what ended the operand, and ends too
  exact termRest_eq_of_level hm.behind hlevel

/-- A primary becomes an operand with the loop over brackets behind it. -/
theorem operand (h : Reads (.primary e) ts) : Reads (.operand e) ts := by
  intro c n hroom
  obtain ⟨m, rfl, hm⟩ := hroom.succ
  refine ⟨m, hm.behind, ?_⟩
  rw [Parser.term, h hm]
  rfl

/-- One turn of that loop for the arguments of a call, and one for an index. -/
theorem call {close : Token} (hcallee : Reads (.operand e) ts) (ht : t.kind = .symbol .openParen)
    (hargs : Reads (.list es) us) (hclose : close.kind = .symbol .closeParen) :
    Reads (.operand (.apply e es t.pos)) (ts ++ t :: (us ++ [close])) := by
  intro c n hroom
  rw [Cursor.before_append] at hroom ⊢
  obtain ⟨k, hk, heq⟩ := hcallee hroom
  obtain ⟨m, rfl, hm⟩ := hk.succ
  have hus := hargs hclose (.inl rfl) (hm.tail.mono (by decide))
  refine ⟨m, hm.tail.behind.mono (by decide), ?_⟩
  rw [heq, Parser.termRest, Cursor.kind_before_cons, ht]
  dsimp only
  rw [hm.advance_eq, ok_bind, hus]
  rfl

theorem index {i : Expr} {close : Token} (hcollection : Reads (.operand e) ts)
    (ht : t.kind = .symbol .openBracket) (hi : Reads (.expression i) us)
    (hclose : close.kind = .symbol .closeBracket) :
    Reads (.operand (operation .get t [e, i])) (ts ++ t :: (us ++ [close])) := by
  intro c n hroom
  rw [Cursor.before_append] at hroom ⊢
  obtain ⟨k, hk, heq⟩ := hcollection hroom
  obtain ⟨m, rfl, hm⟩ := hk.succ
  have htail := hm.tail
  rw [Cursor.before_append] at htail
  have hlevel : (c.before [close]).kind.level = 8 := level_before hclose
  have hus := hi (htail.mono (by decide)) (by omega)
  refine ⟨m, hm.tail.behind.mono (by decide), ?_⟩
  rw [heq, Parser.termRest, Cursor.kind_before_cons, ht]
  dsimp only
  rw [hm.advance_eq, ok_bind, Cursor.before_append, hus, ok_bind]
  dsimp only
  rw [htail.behind.takeSymbol_eq hclose]
  rfl

/-- The closing bracket at once: no element. -/
theorem noElement : Reads (.list []) [] := by
  intro c n t close ht _ hroom
  obtain ⟨m, rfl, hm⟩ := hroom.succ
  rw [List.nil_append] at hm ⊢
  rw [Parser.list, Cursor.kind_before_cons, if_pos ht, hm.advance_eq]
  rfl

/-- Where an expression begins, a list reads one. -/
theorem list_succ {c : Cursor} {n : Nat} {close : Symbol}
    (hclose : close = .closeParen ∨ close = .closeBracket) (hbegins : c.kind.beginsExpression) :
    Parser.list (n + 1) close c = Parser.expression n c >>= fun (item, c) =>
      if c.kind = .symbol .comma then
        c.advance >>= fun c => Parser.list n close c >>= fun (items, c) => pure (item :: items, c)
      else c.takeSymbol close >>= fun c => pure ([item], c) := by
  have hkind : c.kind ≠ .symbol close := by
    rcases hclose with rfl | rfl
    · exact Token.Kind.ne_of_beginsExpression hbegins rfl
    · exact Token.Kind.ne_of_beginsExpression hbegins rfl
  rw [Parser.list, if_neg hkind]

/-- Behind the last element stands the closing bracket, which no expression continues with. -/
theorem lastElement (hbegins : Begins (.expression e) ts) (h : Reads (.expression e) ts) :
    Reads (.list [e]) ts := by
  intro c n t close ht hclose hroom
  obtain ⟨m, rfl, hm⟩ := hroom.succ
  rw [Cursor.before_append] at hm ⊢
  have hlevel : 7 < (c.before [t]).kind.level := by
    rw [Cursor.kind_before_cons, ht]
    rcases hclose with rfl | rfl <;> decide
  have hcomma : (c.before [t]).kind ≠ .symbol .comma := by
    rw [Cursor.kind_before_cons, ht]
    rcases hclose with rfl | rfl <;> decide
  rw [list_succ hclose (beginsExpression_before hbegins), h hm hlevel, ok_bind]
  dsimp only
  rw [if_neg hcomma, hm.behind.takeSymbol_eq ht]
  rfl

theorem element (hbegins : Begins (.expression e) ts) (h : Reads (.expression e) ts)
    (ht : t.kind = .symbol .comma) (hes : Reads (.list es) us) :
    Reads (.list (e :: es)) (ts ++ t :: us) := by
  intro c n u close hu hclose hroom
  obtain ⟨m, rfl, hm⟩ := hroom.succ
  rw [List.append_assoc, List.cons_append, Cursor.before_append] at hm ⊢
  have hlevel : (c.before (t :: (us ++ [u]))).kind.level = 8 := level_before ht
  have hus := hes hu hclose (hm.behind.tail.mono (by decide))
  rw [list_succ hclose (beginsExpression_before hbegins), h hm (by omega), ok_bind]
  dsimp only
  rw [Cursor.kind_before_cons, if_pos ht, hm.behind.advance_eq, ok_bind, hus]
  rfl

/-- A token that is a primary of its own. -/
theorem token (h : ∀ (c : Cursor) (n : Nat), Parser.primary (n + 1) (c.before [t]) =
      (c.before [t]).advance >>= fun c => pure (e, c)) : Reads (.primary e) [t] := by
  intro c n hroom
  obtain ⟨m, rfl, hm⟩ := hroom.succ
  rw [h, hm.advance_eq]
  rfl

/-- Tokens that end a sequence end it wherever they stand. -/
theorem atSequenceEnd_before {c : Cursor} {k : Token.Kind} (ht : t.kind = k)
    (hk : k = .symbol .closeParen ∨ k = .keyword .doK ∨ k = .keyword .thenK ∨ k = .keyword .elifK ∨
      k = .keyword .elseK ∨ k = .keyword .endK) : (c.before (t :: ts)).atSequenceEnd := by
  rw [Cursor.atSequenceEnd, Cursor.kind_before_cons, ht]
  rcases hk with rfl | rfl | rfl | rfl | rfl | rfl <;> rfl

/-- The sequence inside ends at the closing parenthesis, since no expression continues there. -/
theorem parentheses {close : Token} (ht : t.kind = .symbol .openParen)
    (h : Reads (.sequence e) ts) (hclose : close.kind = .symbol .closeParen) :
    Reads (.primary e) (t :: (ts ++ [close])) := by
  intro c n hroom
  obtain ⟨m, rfl, hm⟩ := hroom.succ
  have htail := hm.tail
  rw [Cursor.before_append] at htail
  have hts := h (htail.mono (by decide)) (atSequenceEnd_before hclose (by simp))
  rw [Parser.primary, Cursor.kind_before_cons, ht]
  dsimp only
  rw [hm.advance_eq, ok_bind, Cursor.before_append, hts, ok_bind]
  dsimp only
  rw [htail.behind.takeSymbol_eq hclose]
  rfl

theorem array {close : Token} (ht : t.kind = .symbol .openBracket) (h : Reads (.list es) ts)
    (hclose : close.kind = .symbol .closeBracket) :
    Reads (.primary (.array es)) (t :: (ts ++ [close])) := by
  intro c n hroom
  obtain ⟨m, rfl, hm⟩ := hroom.succ
  have hts := h hclose (.inr rfl) (hm.tail.mono (by decide))
  rw [Parser.primary, Cursor.kind_before_cons, ht]
  dsimp only
  rw [hm.advance_eq, ok_bind, hts]
  rfl

theorem cond {close : Token} (ht : t.kind = .keyword .ifK) (h : Reads (.branches e) ts)
    (hclose : close.kind = .keyword .endK) : Reads (.primary e) (t :: (ts ++ [close])) := by
  intro c n hroom
  obtain ⟨m, rfl, hm⟩ := hroom.succ
  have htail := hm.tail
  rw [Cursor.before_append] at htail
  have hts := h (htail.mono (by decide)) hclose
  rw [Parser.primary, Cursor.kind_before_cons, ht]
  dsimp only
  rw [hm.advance_eq, ok_bind, Cursor.before_append, hts, ok_bind]
  dsimp only
  rw [htail.behind.takeKeyword_eq hclose]
  rfl

/-- Without `do` behind the condition the body is empty. -/
theorem emptyLoop {close : Token} (ht : t.kind = .keyword .whileK) (h : Reads (.sequence e) ts)
    (hclose : close.kind = .keyword .endK) :
    Reads (.primary (.loop e .null)) (t :: (ts ++ [close])) := by
  intro c n hroom
  obtain ⟨m, rfl, hm⟩ := hroom.succ
  have htail : Room _ 16 m := hm.tail.mono (by decide)
  obtain ⟨k, rfl, hk⟩ := htail.succ
  rw [Cursor.before_append] at hk
  have hts := h hk (atSequenceEnd_before hclose (by simp))
  have hkind : (c.before [close]).kind ≠ .keyword .doK := by
    rw [Cursor.kind_before_cons, hclose]
    decide
  rw [Parser.primary, Cursor.kind_before_cons, ht]
  dsimp only
  rw [hm.advance_eq, ok_bind, Parser.loop, Cursor.before_append, hts, ok_bind]
  dsimp only
  rw [if_neg hkind, hk.behind.takeKeyword_eq hclose]
  rfl

theorem loop {d close : Token} {condition body : Expr} (ht : t.kind = .keyword .whileK)
    (hcondition : Reads (.sequence condition) ts) (hd : d.kind = .keyword .doK)
    (hbody : Reads (.sequence body) us) (hclose : close.kind = .keyword .endK) :
    Reads (.primary (.loop condition body)) (t :: (ts ++ d :: (us ++ [close]))) := by
  intro c n hroom
  obtain ⟨m, rfl, hm⟩ := hroom.succ
  have htail : Room _ 16 m := hm.tail.mono (by decide)
  obtain ⟨k, rfl, hk⟩ := htail.succ
  rw [Cursor.before_append] at hk
  have hts := hcondition hk (atSequenceEnd_before hd (by simp))
  have hlast := hk.behind.tail
  rw [Cursor.before_append] at hlast
  have hus := hbody (hlast.mono (by decide)) (atSequenceEnd_before hclose (by simp))
  rw [Parser.primary, Cursor.kind_before_cons, ht]
  dsimp only
  rw [hm.advance_eq, ok_bind, Parser.loop, Cursor.before_append, hts, ok_bind]
  dsimp only
  rw [Cursor.kind_before_cons, if_pos hd, hk.behind.advance_eq, ok_bind, Cursor.before_append, hus,
    ok_bind]
  dsimp only
  rw [hlast.behind.takeKeyword_eq hclose]
  rfl

/-- A name is taken if there is one. What comes behind it is no name. -/
theorem takeName?_eq {c : Cursor} {n rank : Nat} {name : Option String}
    (hname : OptionalName name ts) (hroom : Room (c.before (ts ++ t :: us)) rank n)
    (ht : t.kind ≠ .identifier) :
    (c.before (ts ++ t :: us)).takeName? = .ok (name, c.before (t :: us)) := by
  cases hname with
  | absent =>
    rw [List.nil_append, Cursor.takeName?, Cursor.kind_before_cons]
    split
    · next hk => exact absurd hk ht
    · rfl
  | present hident =>
    rw [List.cons_append] at hroom ⊢
    rw [Cursor.takeName?, Cursor.kind_before_cons, hident]
    dsimp only
    rw [hroom.advance_eq]
    rfl

/-- Distinct names are read, up to the closing parenthesis. -/
theorem parameters_eq {c : Cursor} {n : Nat} {names seen : List String} {close : Token}
    (hnames : Parameters names ts) (hdistinct : names.Nodup) (hseen : ∀ name ∈ names, name ∉ seen)
    (hclose : close.kind = .symbol .closeParen)
    (hroom : Room (c.before (ts ++ close :: us)) 1 n) :
    Parser.parameters n seen (c.before (ts ++ close :: us)) = .ok (names, c.before us) := by
  induction hnames generalizing n seen with
  | nil =>
    obtain ⟨m, rfl, hm⟩ := hroom.succ
    rw [List.nil_append] at hm ⊢
    rw [Parser.parameters, Cursor.kind_before_cons, hclose]
    dsimp only
    rw [hm.advance_eq]
    rfl
  | @last t ht =>
    -- a name that was not seen before, and no comma behind it
    obtain ⟨m, rfl, hm⟩ := hroom.succ
    rw [List.cons_append, List.nil_append] at hm ⊢
    have hfresh : seen.contains t.lexeme = false := by
      simpa using hseen t.lexeme List.mem_cons_self
    have hcomma : (c.before (close :: us)).kind ≠ .symbol .comma := by
      rw [Cursor.kind_before_cons, hclose]
      decide
    rw [Parser.parameters, Cursor.kind_before_cons, ht]
    dsimp only
    rw [hm.advance_eq, ok_bind, Cursor.current_before_cons, hfresh, if_neg Bool.false_ne_true,
      if_neg hcomma, hm.tail.takeSymbol_eq hclose]
    rfl
  | @cons t comma names ts ht hcomma _ ih =>
    obtain ⟨m, rfl, hm⟩ := hroom.succ
    rw [List.cons_append, List.cons_append] at hm ⊢
    obtain ⟨hnotMem, hdistinct⟩ := List.nodup_cons.mp hdistinct
    -- the name joins those that may not come again
    have hfresh : seen.contains t.lexeme = false := by
      simpa using hseen t.lexeme List.mem_cons_self
    have hrest : ∀ name ∈ names, name ∉ t.lexeme :: seen := by
      intro name hmem hold
      rcases List.mem_cons.mp hold with rfl | hold
      · exact hnotMem hmem
      · exact hseen name (List.mem_cons_of_mem _ hmem) hold
    rw [Parser.parameters, Cursor.kind_before_cons, ht]
    dsimp only
    rw [hm.advance_eq, ok_bind, Cursor.current_before_cons, hfresh, if_neg Bool.false_ne_true,
      Cursor.kind_before_cons, if_pos hcomma, hm.tail.advance_eq, ok_bind,
      ih hdistinct hrest (hm.tail.tail.mono (by decide))]
    rfl

/-- An arrow is taken if there is one; no sequence begins with an arrow. -/
theorem arrow_bind {β : Type} {c : Cursor} {n rank : Nat} {f : Cursor → Read β}
    (harrow : OptionalArrow ts) (hbegins : Begins (.sequence e) us)
    (ht : t.kind ≠ .symbol .arrow) (hroom : Room (c.before (ts ++ (us ++ [t]))) rank n) :
    (if (c.before (ts ++ (us ++ [t]))).kind = .symbol .arrow then
      (c.before (ts ++ (us ++ [t]))).advance >>= f
    else pure (c.before (ts ++ (us ++ [t]))) >>= f) = f (c.before (us ++ [t])) := by
  cases harrow with
  | absent =>
    have hkind : (c.before (us ++ [t])).kind ≠ .symbol .arrow := by
      cases us with
      | nil => exact ht
      | cons u us =>
        intro hu
        rcases hbegins u rfl with hsemicolon | hexpression
        · exact nomatch hsemicolon.symm.trans hu
        · exact Token.Kind.ne_of_beginsExpression hexpression rfl hu
    rw [List.nil_append, if_neg hkind]
    rfl
  | present harrow =>
    rw [List.cons_append, List.nil_append] at hroom ⊢
    rw [Cursor.kind_before_cons, if_pos harrow, hroom.advance_eq]
    rfl

/-- The parts of a function come one behind the other, each with room for itself. -/
theorem func {name : Option String} {params : List String} {body : Expr}
    {left right close : Token} {ns ps arrow : List Token} (ht : t.kind = .keyword .funK)
    (hname : OptionalName name ns) (hleft : left.kind = .symbol .openParen)
    (hparams : Parameters params ps) (hdistinct : params.Nodup)
    (hright : right.kind = .symbol .closeParen) (harrow : OptionalArrow arrow)
    (hbegins : Begins (.sequence body) ts) (hbody : Reads (.sequence body) ts)
    (hclose : close.kind = .keyword .endK) :
    Reads (.primary (Grammar.function name params body))
      (t :: (ns ++ left :: (ps ++ right :: (arrow ++ (ts ++ [close]))))) := by
  intro c n hroom
  obtain ⟨m, rfl, hm⟩ := hroom.succ
  have htail : Room _ 16 m := hm.tail.mono (by decide)
  obtain ⟨k, rfl, hk⟩ := htail.succ
  -- the room that is left in front of each part
  have hopen := hk
  rw [Cursor.before_append] at hopen
  have hparamsRoom := hopen.behind.tail
  have harrowRoom := hparamsRoom
  rw [Cursor.before_append] at harrowRoom
  have hbodyRoom := harrowRoom.behind.tail
  rw [Cursor.before_append, Cursor.before_append] at hbodyRoom
  have hts := hbody (hbodyRoom.behind.mono (by decide)) (atSequenceEnd_before hclose (by simp))
  rw [Parser.primary, Cursor.kind_before_cons, ht]
  dsimp only
  rw [hm.advance_eq, ok_bind, Parser.function, takeName?_eq hname hk (by rw [hleft]; decide),
    ok_bind]
  dsimp only
  rw [hopen.behind.takeSymbol_eq hleft, ok_bind,
    parameters_eq hparams hdistinct (by simp) hright (hparamsRoom.mono (by decide)), ok_bind]
  dsimp only
  rw [arrow_bind harrow hbegins (by rw [hclose]; decide) harrowRoom.behind.tail,
    Cursor.before_append, hts, ok_bind]
  dsimp only
  rw [hbodyRoom.behind.behind.takeKeyword_eq hclose, ok_bind]
  cases name <;> rfl

theorem block {label : Option String} {body : Expr} {d close : Token} {ls : List Token}
    (ht : t.kind = .keyword .blockK) (hlabel : OptionalName label ls) (hd : d.kind = .keyword .doK)
    (hbody : Reads (.sequence body) ts) (hclose : close.kind = .keyword .endK) :
    Reads (.primary (.block label body)) (t :: (ls ++ d :: (ts ++ [close]))) := by
  intro c n hroom
  obtain ⟨m, rfl, hm⟩ := hroom.succ
  have htail : Room _ 16 m := hm.tail.mono (by decide)
  obtain ⟨k, rfl, hk⟩ := htail.succ
  have hdo := hk
  rw [Cursor.before_append] at hdo
  have hbodyRoom := hdo.behind.tail
  rw [Cursor.before_append] at hbodyRoom
  have hts := hbody (hbodyRoom.mono (by decide)) (atSequenceEnd_before hclose (by simp))
  rw [Parser.primary, Cursor.kind_before_cons, ht]
  dsimp only
  rw [hm.advance_eq, ok_bind, Parser.block, takeName?_eq hlabel hk (by rw [hd]; decide),
    ok_bind]
  dsimp only
  rw [hdo.behind.takeKeyword_eq hd, ok_bind, Cursor.before_append, hts, ok_bind]
  dsimp only
  rw [hbodyRoom.behind.takeKeyword_eq hclose]
  rfl

/-- The condition and the first branch are read, up to what follows them. -/
theorem conditional_succ {condition consequent : Expr} {d : Token} {c : Cursor} {n : Nat}
    (hcondition : Reads (.sequence condition) ts)
    (hd : d.kind = .keyword .doK ∨ d.kind = .keyword .thenK)
    (hconsequent : Reads (.sequence consequent) us)
    (hroom : Room (c.before (ts ++ d :: us)) 15 n) (hend : c.atSequenceEnd) :
    Parser.conditional (n + 1) (c.before (ts ++ d :: us)) =
      match c.kind with
      | .keyword .elifK => c.advance >>= fun c =>
        Parser.conditional n c >>= fun (alternate, c) =>
          pure (.cond condition consequent alternate, c)
      | .keyword .elseK => c.advance >>= fun c =>
        Parser.sequence n c >>= fun (alternate, c) =>
          pure (.cond condition consequent alternate, c)
      | _ => pure (.cond condition consequent .null, c) := by
  rw [Cursor.before_append] at hroom ⊢
  have hus := hconsequent (hroom.behind.tail.mono (by decide)) hend
  -- the parser asks for one word and then for the other, to the same end
  rcases hd with hd | hd
  · have hthen : d.kind ≠ .keyword .thenK := by
      rw [hd]
      decide
    rw [Parser.conditional, hcondition hroom (atSequenceEnd_before hd (by simp)), ok_bind]
    dsimp only
    rw [Cursor.kind_before_cons, if_neg hthen, hroom.behind.takeKeyword_eq hd, ok_bind, hus]
    rfl
  · rw [Parser.conditional, hcondition hroom (atSequenceEnd_before hd (by simp)), ok_bind]
    dsimp only
    rw [Cursor.kind_before_cons, if_pos hd, hroom.behind.advance_eq, ok_bind, hus]
    rfl

section Branches

variable {condition consequent alternate : Expr} {d k : Token} {vs : List Token}

/-- With `end` behind it a branch is the last one. -/
theorem oneBranch (hcondition : Reads (.sequence condition) ts)
    (hd : d.kind = .keyword .doK ∨ d.kind = .keyword .thenK)
    (hconsequent : Reads (.sequence consequent) us) :
    Reads (.branches (.cond condition consequent .null)) (ts ++ d :: us) := by
  intro c n hroom hend
  obtain ⟨m, rfl, hm⟩ := hroom.succ
  rw [conditional_succ hcondition hd hconsequent hm (by simp [Cursor.atSequenceEnd, hend]), hend]
  rfl

theorem elseBranch (hcondition : Reads (.sequence condition) ts)
    (hd : d.kind = .keyword .doK ∨ d.kind = .keyword .thenK)
    (hconsequent : Reads (.sequence consequent) us) (hk : k.kind = .keyword .elseK)
    (halternate : Reads (.sequence alternate) vs) :
    Reads (.branches (.cond condition consequent alternate)) (ts ++ d :: (us ++ k :: vs)) := by
  intro c n hroom hend
  obtain ⟨m, rfl, hm⟩ := hroom.succ
  rw [← List.cons_append, ← List.append_assoc, Cursor.before_append] at hm ⊢
  have hvs := halternate (hm.behind.tail.mono (by decide)) (by simp [Cursor.atSequenceEnd, hend])
  rw [conditional_succ hcondition hd hconsequent hm (atSequenceEnd_before hk (by simp)),
    Cursor.kind_before_cons, hk]
  dsimp only
  rw [hm.behind.advance_eq, ok_bind, hvs]
  rfl

/-- An `elif` begins a conditional of its own, which shares the `end`. -/
theorem elifBranch (hcondition : Reads (.sequence condition) ts)
    (hd : d.kind = .keyword .doK ∨ d.kind = .keyword .thenK)
    (hconsequent : Reads (.sequence consequent) us) (hk : k.kind = .keyword .elifK)
    (halternate : Reads (.branches alternate) vs) :
    Reads (.branches (.cond condition consequent alternate)) (ts ++ d :: (us ++ k :: vs)) := by
  intro c n hroom hend
  obtain ⟨m, rfl, hm⟩ := hroom.succ
  rw [← List.cons_append, ← List.append_assoc, Cursor.before_append] at hm ⊢
  have hvs := halternate (hm.behind.tail.mono (by decide)) hend
  rw [conditional_succ hcondition hd hconsequent hm (atSequenceEnd_before hk (by simp)),
    Cursor.kind_before_cons, hk]
  dsimp only
  rw [hm.behind.advance_eq, ok_bind, hvs]
  rfl

end Branches

end Reads

/-- Every phrase that can be derived is read. -/
theorem reads_of_derives {phrase : Phrase} {ts : List Token} (h : Derives phrase ts) :
    Reads phrase ts := by
  induction h with
  | sequence _ ih => exact ih.sequence
  | noItem => exact Reads.noItem
  | semicolon ht _ ih => exact ih.semicolon ht
  -- a phrase that may be empty is tried only where its first token can begin one
  | lastItem h ih => exact Reads.lastItem h.begins ih
  | item h ht _ ih₁ ih₂ => exact Reads.item h.begins ih₁ ht ih₂
  | expression _ ih => exact ih.expression
  | store _ ht _ ih₁ ih₂ => exact Reads.store ih₁ ht ih₂
  | update _ ht _ ih₁ ih₂ => exact Reads.update ih₁ ht ih₂
  | replace _ ht _ ih₁ ih₂ => exact Reads.replace ih₁ ht ih₂
  | disjunction _ ih => exact ih.disjunction
  | or _ ht _ ih₁ ih₂ => exact Reads.or ih₁ ht ih₂
  | conjunction _ ih => exact ih.conjunction
  | and _ ht _ ih₁ ih₂ => exact Reads.and ih₁ ht ih₂
  | comparison _ ih => exact ih.comparison
  | compare _ ht _ ih₁ ih₂ => exact Reads.compare ih₁ ht ih₂
  | sum h ih => exact Reads.sum h.begins ih
  | signed ht _ ih => exact Reads.signed ht ih
  | add _ ht _ ih₁ ih₂ => exact Reads.add ih₁ ht ih₂
  | product _ ih => exact ih.product
  | multiply _ ht _ ih₁ ih₂ => exact Reads.multiply ih₁ ht ih₂
  | power _ ih => exact ih.power
  | raise _ ht _ ih₁ ih₂ => exact Reads.raise ih₁ ht ih₂
  | term _ ih => exact ih.term
  | not ht _ ih => exact Reads.not ht ih
  | operand _ ih => exact ih.operand
  | call _ ht _ hclose ih₁ ih₂ => exact Reads.call ih₁ ht ih₂ hclose
  | index _ ht _ hclose ih₁ ih₂ => exact Reads.index ih₁ ht ih₂ hclose
  | noElement => exact Reads.noElement
  | lastElement h ih => exact Reads.lastElement h.begins ih
  | element h ht _ ih₁ ih₂ => exact Reads.element h.begins ih₁ ht ih₂
  -- a token that is a tree by itself is taken by its kind alone
  | number ht | str ht | null ht | true ht | false ht =>
    refine Reads.token fun c n => ?_
    rw [primary, Cursor.kind_before_cons, ht]
  | var ht =>
    refine Reads.token fun c n => ?_
    rw [primary, Cursor.kind_before_cons, ht]
    rfl
  | parentheses ht _ hclose ih => exact Reads.parentheses ht ih hclose
  | array ht _ hclose ih => exact Reads.array ht ih hclose
  | cond ht _ hclose ih => exact Reads.cond ht ih hclose
  | emptyLoop ht _ hclose ih => exact Reads.emptyLoop ht ih hclose
  | loop ht _ hd _ hclose ih₁ ih₂ => exact Reads.loop ht ih₁ hd ih₂ hclose
  | func ht hname hleft hparams hdistinct hright harrow hbody hclose ih =>
    exact Reads.func ht hname hleft hparams hdistinct hright harrow hbody.begins ih hclose
  | block ht hlabel hd _ hclose ih => exact Reads.block ht hlabel hd ih hclose
  | oneBranch _ hd _ ih₁ ih₂ => exact Reads.oneBranch ih₁ hd ih₂
  | elseBranch _ hd _ he _ ih₁ ih₂ ih₃ => exact Reads.elseBranch ih₁ hd ih₂ he ih₃
  | elifBranch _ hd _ he _ ih₁ ih₂ ih₃ => exact Reads.elifBranch ih₁ hd ih₂ he ih₃

/-! ## 5. Programs -/

/-- The tokens of a derivable program are read. -/
theorem program_of_derives {c : Cursor} {e : Expr} (h : Derives (.sequence e) c.rest) :
    program c = .ok e := by
  have hc : c = Cursor.before ⟨[], c.finish⟩ c.rest := by simp [Cursor.before]
  have hroom : Room c 15 c.depth := by
    refine ⟨h.isWord, ?_⟩
    rw [Cursor.depth]
    omega
  have hread : sequence c.depth c = .ok (e, ⟨[], c.finish⟩) := by
    rw [hc] at hroom ⊢
    exact reads_of_derives h hroom rfl
  rw [program, hroom.check_eq, ok_bind, hread]
  rfl

/-- What is read as a program is derivable, since only the end ends it. -/
theorem derives_of_program {c : Cursor} {e : Expr} (hfinish : ∀ t ∈ c.rest, t.kind ≠ .finish)
    (h : program c = .ok e) : Derives (.sequence e) c.rest := by
  rw [program] at h
  obtain ⟨c₁, hcheck, hrest⟩ := bind_eq_ok h
  rw [c.check_eq_ok hcheck] at hrest
  obtain ⟨⟨tree, c₂⟩, hread, h⟩ := bind_eq_ok hrest
  dsimp only at h
  split at h
  · next hend =>
    cases h
    obtain ⟨ts, rfl, hts⟩ := (sound _).sequence hread
    -- the end is no token of its own, so none is left
    have hrest : c₂.rest = [] := by
      obtain ⟨rest, finish⟩ := c₂
      cases rest with
      | nil => rfl
      | cons t us => exact absurd hend (hfinish t (List.mem_append_right ts List.mem_cons_self))
    rw [Cursor.before, hrest, List.append_nil]
    exact hts
  · cases h

/-- The tokens determine the tree. -/
theorem derives_unique {e e' : Expr} {ts : List Token} (h : Derives (.sequence e) ts)
    (h' : Derives (.sequence e') ts) : e = e' := by
  have hparse := program_of_derives (c := ⟨ts, .start⟩) h
  rw [program_of_derives (c := ⟨ts, .start⟩) h'] at hparse
  cases hparse
  rfl

end Parser

/-- A program is accepted exactly if its tokens derive a sequence, and then its tree is
the one that they derive. The grammar is unambiguous. -/
theorem Expr.parse_iff_derives (source : String) :
    (∀ e, Expr.parse source = .ok e ↔ Derives (.sequence e) (scan source).tokens) ∧
      Subsingleton {e // Derives (.sequence e) (scan source).tokens} := by
  refine ⟨fun e => ⟨fun h => ?_, fun h => ?_⟩, ⟨fun e e' => ?_⟩⟩
  · exact Parser.derives_of_program (kind_ne_finish_of_mem_scan source) h
  · exact Parser.program_of_derives h
  · exact Subtype.ext (Parser.derives_unique e.property e'.property)

end CalcScript

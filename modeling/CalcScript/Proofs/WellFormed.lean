/-
`Proofs/WellFormed.lean` -- which trees are programs.

A tree is well formed (`Expr.WellFormed`) if a primitive is only ever applied, to as many
operands as its operator takes, if names are identifiers, parameters are distinct and
numbers can be spelled. These are the trees that programs are read as, no more and no
fewer. One direction is an induction over derivations. For the other every tree is
written down with parentheses around each of its nodes, so that it stands as a primary
wherever it is used, and what is written is scanned and read back.
-/
import CalcScript.Proofs.Separation

set_option autoImplicit false

namespace CalcScript

open Grammar Lexical

/-! ## 1. Well-formed trees -/

/-- The number of operands of an operator. A primitive that programs know by its name
alone has none. -/
def Primitive.operands? : Primitive → Option Nat
  | .add | .sub | .mul | .div | .intDiv | .mod | .pow => some 2
  | .lt | .le | .gt | .ge | .eq | .ne | .get => some 2
  | .neg | .pos | .not => some 1
  | .set => some 3
  | .print | .printLine | .makeArray | .push | .pop | .extend | .len => none

/-- An identifier, which no reserved word is. -/
def IsName (name : String) : Prop := Spells .identifier name.toList

/-- The trees of programs. There is no rule for a primitive alone, so it is no callee of
`apply` and stands nowhere but under its operator. -/
inductive Expr.WellFormed : Expr → Prop
  | number {x spelling} (h : Spells (.number x) spelling) : WellFormed (.literal (.number x))
  | str {s} : WellFormed (.literal (.str s))
  | bool {b} : WellFormed (.literal (.bool b))
  | null : WellFormed .null
  | array {es} (hes : ∀ e ∈ es, WellFormed e) : WellFormed (.array es)
  | var {name pos} (hname : IsName name) : WellFormed (.var name pos)
  | store {name value} (hname : IsName name) (hvalue : WellFormed value) :
    WellFormed (.store name value)
  | update {name value pos} (hname : IsName name) (hvalue : WellFormed value) :
    WellFormed (.update name value pos)
  | seq {first rest} (hfirst : WellFormed first) (hrest : WellFormed rest) :
    WellFormed (.seq first rest)
  | and {left right} (hleft : WellFormed left) (hright : WellFormed right) :
    WellFormed (.and left right)
  | or {left right} (hleft : WellFormed left) (hright : WellFormed right) :
    WellFormed (.or left right)
  | cond {condition consequent alternate} (hcondition : WellFormed condition)
      (hconsequent : WellFormed consequent) (halternate : WellFormed alternate) :
    WellFormed (.cond condition consequent alternate)
  | loop {condition body} (hcondition : WellFormed condition) (hbody : WellFormed body) :
    WellFormed (.loop condition body)
  | func {params body} (hparams : ∀ name ∈ params, IsName name) (hdistinct : params.Nodup)
      (hbody : WellFormed body) : WellFormed (.func params body)
  | operator {p args pos} (hcount : p.operands? = some args.length)
      (hargs : ∀ e ∈ args, WellFormed e) : WellFormed (.apply (.primitive p) args pos)
  | apply {callee args pos} (hcallee : WellFormed callee) (hargs : ∀ e ∈ args, WellFormed e) :
    WellFormed (.apply callee args pos)
  | block {label body} (hlabel : ∀ name ∈ label, IsName name) (hbody : WellFormed body) :
    WellFormed (.block label body)

namespace Expr.WellFormed

variable {e left right : Expr} {es : List Expr} {pos : Position}

theorem of_var {name : String} (h : WellFormed (.var name pos)) : IsName name := by
  cases h with
  | var hname => exact hname

/-- The parts of an application of a primitive are well formed. -/
theorem of_operator {p : Primitive} (h : WellFormed (.apply (.primitive p) es pos)) :
    ∀ e ∈ es, WellFormed e := by
  cases h with
  | operator _ hargs => exact hargs
  | apply hcallee _ => nomatch hcallee

theorem unary {p : Primitive} (hp : p.operands? = some 1) (he : WellFormed e) :
    WellFormed (.apply (.primitive p) [e] pos) :=
  .operator hp (List.forall_mem_singleton.mpr he)

theorem binary {p : Primitive} (hp : p.operands? = some 2) (hleft : WellFormed left)
    (hright : WellFormed right) : WellFormed (.apply (.primitive p) [left, right] pos) :=
  .operator hp (List.forall_mem_cons.mpr ⟨hleft, List.forall_mem_singleton.mpr hright⟩)

theorem ofSequence (h : ∀ e ∈ es, WellFormed e) : WellFormed (.ofSequence es) := by
  fun_induction Expr.ofSequence es with
  | case1 => exact .null
  | case2 e => exact h e List.mem_cons_self
  | case3 e es _ ih =>
    obtain ⟨he, hes⟩ := List.forall_mem_cons.mp h
    exact .seq he (ih hes)

end Expr.WellFormed

/-! ## 2. What is derived is well formed -/

/-- All trees of the phrase are well formed. -/
def Grammar.Phrase.WellFormed : Phrase → Prop
  | .items es | .list es => ∀ e ∈ es, e.WellFormed
  | .sequence e | .expression e | .disjunction e | .conjunction e | .comparison e | .sum e
  | .product e | .power e | .term e | .operand e | .primary e | .branches e => e.WellFormed

/-- Whatever operators are in a table, each takes so many operands. -/
theorem operands?_of_mem {ops : List (Token.Kind × Primitive)} {k : Token.Kind} {op : Primitive}
    {n : Nat} (h : (k, op) ∈ ops) (hops : ops.all fun entry => entry.2.operands? = some n) :
    op.operands? = some n := by
  simpa using List.all_eq_true.mp hops (k, op) h

/-- What holds of tokens with a separator between them holds of both parts. -/
theorem spelled_sides {ts us : List Token} {t : Token} (h : ∀ x ∈ ts ++ t :: us, x.Spelled) :
    (∀ x ∈ ts, x.Spelled) ∧ ∀ x ∈ us, x.Spelled := by
  obtain ⟨hleft, hright⟩ := List.forall_mem_append.mp h
  exact ⟨hleft, (List.forall_mem_cons.mp hright).2⟩

theorem Grammar.OptionalName.isName {name : Option String} {ts : List Token}
    (h : OptionalName name ts) (hts : ∀ t ∈ ts, t.Spelled) : ∀ n ∈ name, IsName n := by
  cases h with
  | absent => exact nofun
  | @present t ht =>
    rintro n ⟨⟩
    have hspelled := hts t List.mem_cons_self
    rwa [Token.Spelled, ht] at hspelled

theorem Grammar.Parameters.isName {names : List String} {ts : List Token}
    (h : Parameters names ts) (hts : ∀ t ∈ ts, t.Spelled) : ∀ n ∈ names, IsName n := by
  induction h with
  | nil => exact nofun
  | @last t ht =>
    have hspelled := hts t List.mem_cons_self
    rw [Token.Spelled, ht] at hspelled
    exact List.forall_mem_singleton.mpr hspelled
  | @cons t comma names ts ht _ _ ih =>
    obtain ⟨hspelled, htail⟩ := List.forall_mem_cons.mp hts
    rw [Token.Spelled, ht] at hspelled
    exact List.forall_mem_cons.mpr ⟨hspelled, ih (List.forall_mem_cons.mp htail).2⟩

/-- A tree that spelled tokens derive is well formed. -/
theorem Grammar.Derives.wellFormed {phrase : Phrase} {ts : List Token} (h : Derives phrase ts)
    (hts : ∀ t ∈ ts, t.Spelled) : phrase.WellFormed := by
  induction h with
  | sequence _ ih => exact .ofSequence (ih hts)
  | noItem | noElement => exact nofun
  | semicolon _ _ ih => exact ih (List.forall_mem_cons.mp hts).2
  | lastItem _ ih | lastElement _ ih => exact List.forall_mem_singleton.mpr (ih hts)
  | item _ _ _ ihe ihes | element _ _ _ ihe ihes =>
    obtain ⟨hleft, hright⟩ := spelled_sides hts
    exact List.forall_mem_cons.mpr ⟨ihe hleft, ihes hright⟩
  | expression _ ih | disjunction _ ih | conjunction _ ih | comparison _ ih | sum _ ih
  | product _ ih | power _ ih | term _ ih | operand _ ih => exact ih hts
  | store _ _ _ ihtarget ihvalue =>
    obtain ⟨hleft, hright⟩ := spelled_sides hts
    exact .store (ihtarget hleft).of_var (ihvalue hright)
  | update _ _ _ ihtarget ihvalue =>
    obtain ⟨hleft, hright⟩ := spelled_sides hts
    exact .update (ihtarget hleft).of_var (ihvalue hright)
  | replace _ _ _ ihtarget ihvalue =>
    -- the operands of the element that was read become those of its replacement
    obtain ⟨hleft, hright⟩ := spelled_sides hts
    have hoperands := Expr.WellFormed.of_operator (ihtarget hleft)
    obtain ⟨hcollection, hindex⟩ := List.forall_mem_cons.mp hoperands
    refine .operator rfl (List.forall_mem_cons.mpr ⟨hcollection, List.forall_mem_cons.mpr ⟨?_, ?_⟩⟩)
    · exact List.forall_mem_singleton.mp hindex
    · exact List.forall_mem_singleton.mpr (ihvalue hright)
  | or _ _ _ ihleft ihright =>
    obtain ⟨hleft, hright⟩ := spelled_sides hts
    exact .or (ihleft hleft) (ihright hright)
  | and _ _ _ ihleft ihright =>
    obtain ⟨hleft, hright⟩ := spelled_sides hts
    exact .and (ihleft hleft) (ihright hright)
  -- the tables of operators agree with the counts of operands
  | compare _ ht _ ihleft ihright | add _ ht _ ihleft ihright | multiply _ ht _ ihleft ihright =>
    obtain ⟨hleft, hright⟩ := spelled_sides hts
    exact .binary (operands?_of_mem ht rfl) (ihleft hleft) (ihright hright)
  | raise _ _ _ ihleft ihright =>
    obtain ⟨hleft, hright⟩ := spelled_sides hts
    exact .binary rfl (ihleft hleft) (ihright hright)
  | signed ht _ ih =>
    exact .unary (operands?_of_mem ht rfl) (ih (List.forall_mem_cons.mp hts).2)
  | not _ _ ih => exact .unary rfl (ih (List.forall_mem_cons.mp hts).2)
  | call _ _ _ _ ihcallee ihargs =>
    obtain ⟨hleft, hright⟩ := spelled_sides hts
    exact .apply (ihcallee hleft) (ihargs (spelled_sides hright).1)
  | index _ _ _ _ ihcollection ihindex =>
    obtain ⟨hleft, hright⟩ := spelled_sides hts
    exact .binary rfl (ihcollection hleft) (ihindex (spelled_sides hright).1)
  -- the spelling of a token is where its number or its name comes from
  | @number t x ht =>
    have hspelled := hts t List.mem_cons_self
    rw [Token.Spelled, ht] at hspelled
    exact .number hspelled
  | str _ => exact .str
  | null _ => exact .null
  | true _ | false _ => exact .bool
  | @var t ht =>
    have hspelled := hts t List.mem_cons_self
    rw [Token.Spelled, ht] at hspelled
    exact .var hspelled
  | parentheses _ _ _ ih | cond _ _ _ ih =>
    exact ih (spelled_sides (List.forall_mem_cons.mp hts).2).1
  | array _ _ _ ih => exact .array (ih (spelled_sides (List.forall_mem_cons.mp hts).2).1)
  | emptyLoop _ _ _ ih => exact .loop (ih (spelled_sides (List.forall_mem_cons.mp hts).2).1) .null
  | loop _ _ _ _ _ ihcondition ihbody =>
    obtain ⟨hcondition, hbody⟩ := spelled_sides (List.forall_mem_cons.mp hts).2
    exact .loop (ihcondition hcondition) (ihbody (spelled_sides hbody).1)
  | func _ hname _ hparams hdistinct _ _ _ _ ih =>
    obtain ⟨hns, hrest⟩ := spelled_sides (List.forall_mem_cons.mp hts).2
    obtain ⟨hps, hrest⟩ := spelled_sides hrest
    have hbody := ih (spelled_sides (List.forall_mem_append.mp hrest).2).1
    have hfunc := Expr.WellFormed.func (hparams.isName hps) hdistinct hbody
    -- with a name the function is stored under it
    cases hname with
    | absent => exact hfunc
    | present ht => exact .store ((OptionalName.present ht).isName hns _ rfl) hfunc
  | block _ hlabel _ _ _ ih =>
    obtain ⟨hls, hrest⟩ := spelled_sides (List.forall_mem_cons.mp hts).2
    exact .block (hlabel.isName hls) (ih (spelled_sides hrest).1)
  | oneBranch _ _ _ ihcondition ihconsequent =>
    obtain ⟨hleft, hright⟩ := spelled_sides hts
    exact .cond (ihcondition hleft) (ihconsequent hright) .null
  | elseBranch _ _ _ _ _ ihcondition ihconsequent ihalternate
  | elifBranch _ _ _ _ _ ihcondition ihconsequent ihalternate =>
    obtain ⟨hleft, hright⟩ := spelled_sides hts
    obtain ⟨hmiddle, hright⟩ := spelled_sides hright
    exact .cond (ihcondition hleft) (ihconsequent hmiddle) (ihalternate hright)

/-! ## 3. Writing trees down -/

/-- Some spelled tokens form the phrase. -/
def Grammar.Phrase.Writable (phrase : Phrase) : Prop :=
  ∃ ts, Derives phrase ts ∧ ∀ t ∈ ts, t.Spelled

namespace Grammar

section Levels

variable {e : Expr} {ts : List Token}

theorem Derives.term_of_primary (h : Derives (.primary e) ts) : Derives (.term e) ts :=
  .term (.operand h)

theorem Derives.product_of_primary (h : Derives (.primary e) ts) : Derives (.product e) ts :=
  .product (.power h.term_of_primary)

theorem Derives.comparison_of_primary (h : Derives (.primary e) ts) : Derives (.comparison e) ts :=
  .comparison (.sum h.product_of_primary)

theorem Derives.disjunction_of_primary (h : Derives (.primary e) ts) :
    Derives (.disjunction e) ts :=
  .disjunction (.conjunction h.comparison_of_primary)

theorem Derives.sequence_of_expression (h : Derives (.expression e) ts) :
    Derives (.sequence e) ts :=
  .sequence (.lastItem h)

theorem Derives.sequence_of_comparison (h : Derives (.comparison e) ts) :
    Derives (.sequence e) ts :=
  .sequence_of_expression (.expression (.disjunction (.conjunction h)))

theorem Derives.sequence_of_product (h : Derives (.product e) ts) : Derives (.sequence e) ts :=
  .sequence_of_comparison (.comparison (.sum h))

theorem Derives.sequence_of_term (h : Derives (.term e) ts) : Derives (.sequence e) ts :=
  .sequence_of_product (.product (.power h))

end Levels

namespace Phrase.Writable

open Token

variable {e left right : Expr} {es : List Expr} {t close : Token} {ts us : List Token}

/-- Spelled parts with a spelled separator between them are spelled. -/
theorem spelled_append (hts : ∀ x ∈ ts, x.Spelled) (ht : t.Spelled) (hus : ∀ x ∈ us, x.Spelled) :
    ∀ x ∈ ts ++ t :: us, x.Spelled :=
  List.forall_mem_append.mpr ⟨hts, List.forall_mem_cons.mpr ⟨ht, hus⟩⟩

theorem spelled_concat (hts : ∀ x ∈ ts, x.Spelled) (hclose : close.Spelled) :
    ∀ x ∈ ts ++ [close], x.Spelled :=
  spelled_append hts hclose nofun

theorem spelled_enclosed (ht : t.Spelled) (hts : ∀ x ∈ ts, x.Spelled) (hclose : close.Spelled) :
    ∀ x ∈ t :: (ts ++ [close]), x.Spelled :=
  List.forall_mem_cons.mpr ⟨ht, spelled_concat hts hclose⟩

/-- In parentheses every sequence is a primary. -/
theorem parenthesized (h : (Phrase.sequence e).Writable) : (Phrase.primary e).Writable := by
  obtain ⟨ts, hderives, hts⟩ := h
  exact ⟨ofSymbol .openParen :: (ts ++ [ofSymbol .closeParen]), .parentheses rfl hderives rfl,
    spelled_enclosed (spelled_ofSymbol _) hts (spelled_ofSymbol _)⟩

theorem sequence_of_primary (h : (Phrase.primary e).Writable) : (Phrase.sequence e).Writable := by
  obtain ⟨ts, hderives, hts⟩ := h
  exact ⟨ts, .sequence_of_comparison hderives.comparison_of_primary, hts⟩

/-- A sequence of two primaries with a token between them, in parentheses. -/
theorem between (ht : t.Spelled) (hleft : (Phrase.primary left).Writable)
    (hright : (Phrase.primary right).Writable)
    (h : ∀ {ts us}, Derives (.primary left) ts → Derives (.primary right) us →
      Derives (.sequence e) (ts ++ t :: us)) : (Phrase.primary e).Writable := by
  obtain ⟨ts, hts, hleftSpelled⟩ := hleft
  obtain ⟨us, hus, hrightSpelled⟩ := hright
  exact parenthesized ⟨ts ++ t :: us, h hts hus, spelled_append hleftSpelled ht hrightSpelled⟩

/-- Primaries with a comma behind each are a list. -/
theorem list_of_primaries (h : ∀ e ∈ es, (Phrase.primary e).Writable) :
    (Phrase.list es).Writable := by
  induction es with
  | nil => exact ⟨[], .noElement, nofun⟩
  | cons e es ih =>
    obtain ⟨⟨ts, he, hts⟩, hes⟩ := List.forall_mem_cons.mp h
    obtain ⟨us, hlist, hus⟩ := ih hes
    exact ⟨ts ++ ofSymbol .comma :: us,
      .element (.expression he.disjunction_of_primary) rfl hlist,
      spelled_append hts (spelled_ofSymbol _) hus⟩

/-! Operators. Each operand is a primary, and the result is put in parentheses again. -/

/-- The operators of a table are symbols and reserved words, so each can be spelled. -/
theorem exists_operator {ops : List (Token.Kind × Primitive)} {k : Token.Kind} {op : Primitive}
    (h : (k, op) ∈ ops)
    (hops : ∀ entry ∈ ops, (∃ s, entry.1 = .symbol s) ∨ ∃ k, entry.1 = .keyword k) :
    ∃ t : Token, t.kind = k ∧ t.Spelled ∧ t.pos = .start := by
  rcases hops (k, op) h with ⟨s, hs⟩ | ⟨word, hword⟩
  · exact ⟨ofSymbol s, hs.symm, spelled_ofSymbol s, rfl⟩
  · exact ⟨ofKeyword word, hword.symm, spelled_ofKeyword word, rfl⟩

theorem compare {op : Primitive} (hop : ∃ k, (k, op) ∈ comparisons)
    (hleft : (Phrase.primary left).Writable) (hright : (Phrase.primary right).Writable) :
    (Phrase.primary (.apply (.primitive op) [left, right] .start)).Writable := by
  obtain ⟨k, hop⟩ := hop
  obtain ⟨t, rfl, hspelled, hpos⟩ := exists_operator hop (by simp [comparisons])
  rw [← hpos]
  exact between hspelled hleft hright fun hl hr => .sequence_of_comparison
    (.compare (.sum hl.product_of_primary) hop (.sum hr.product_of_primary))

theorem add {op : Primitive} (hop : ∃ k, (k, op) ∈ additions)
    (hleft : (Phrase.primary left).Writable) (hright : (Phrase.primary right).Writable) :
    (Phrase.primary (.apply (.primitive op) [left, right] .start)).Writable := by
  obtain ⟨k, hop⟩ := hop
  obtain ⟨t, rfl, hspelled, hpos⟩ := exists_operator hop (by simp [additions])
  rw [← hpos]
  exact between hspelled hleft hright fun hl hr => .sequence_of_comparison
    (.comparison (.add (.sum hl.product_of_primary) hop hr.product_of_primary))

theorem multiply {op : Primitive} (hop : ∃ k, (k, op) ∈ multiplications)
    (hleft : (Phrase.primary left).Writable) (hright : (Phrase.primary right).Writable) :
    (Phrase.primary (.apply (.primitive op) [left, right] .start)).Writable := by
  obtain ⟨k, hop⟩ := hop
  obtain ⟨t, rfl, hspelled, hpos⟩ := exists_operator hop (by simp [multiplications])
  rw [← hpos]
  exact between hspelled hleft hright fun hl hr => .sequence_of_product
    (.multiply hl.product_of_primary hop (.power hr.term_of_primary))

theorem raise (hleft : (Phrase.primary left).Writable) (hright : (Phrase.primary right).Writable) :
    (Phrase.primary (.apply (.primitive .pow) [left, right] .start)).Writable :=
  between (spelled_ofSymbol .caret) hleft hright fun hl hr => .sequence_of_product
    (.product (.raise (t := ofSymbol .caret) hl.term_of_primary rfl (.power hr.term_of_primary)))

/-- Primaries as arguments behind an operand. -/
theorem call {callee : Expr} (hcallee : (Phrase.primary callee).Writable)
    (hargs : ∀ e ∈ es, (Phrase.primary e).Writable) :
    (Phrase.primary (.apply callee es .start)).Writable := by
  obtain ⟨ts, hts, hcalleeSpelled⟩ := hcallee
  obtain ⟨us, hus, hargsSpelled⟩ := list_of_primaries hargs
  refine parenthesized ⟨ts ++ ofSymbol .openParen :: (us ++ [ofSymbol .closeParen]), ?_, ?_⟩
  · exact .sequence_of_term (.term (.call (t := ofSymbol .openParen) (.operand hts) rfl hus rfl))
  · exact spelled_append hcalleeSpelled (spelled_ofSymbol _)
      (spelled_concat hargsSpelled (spelled_ofSymbol _))

theorem index (hleft : (Phrase.primary left).Writable) (hright : (Phrase.primary right).Writable) :
    (Phrase.primary (.apply (.primitive .get) [left, right] .start)).Writable := by
  obtain ⟨ts, hts, hleftSpelled⟩ := hleft
  obtain ⟨us, hus, hrightSpelled⟩ := hright
  refine parenthesized ⟨ts ++ ofSymbol .openBracket :: (us ++ [ofSymbol .closeBracket]), ?_, ?_⟩
  · exact .sequence_of_term (.term (.index (t := ofSymbol .openBracket) (.operand hts) rfl
      (.expression hus.disjunction_of_primary) rfl))
  · exact spelled_append hleftSpelled (spelled_ofSymbol _)
      (spelled_concat hrightSpelled (spelled_ofSymbol _))

theorem replace {value : Expr} (hleft : (Phrase.primary left).Writable)
    (hright : (Phrase.primary right).Writable) (hvalue : (Phrase.primary value).Writable) :
    (Phrase.primary (.apply (.primitive .set) [left, right, value] .start)).Writable :=
  -- the target may be written in parentheses: they leave no trace in the tree
  between (spelled_ofSymbol .update) (index hleft hright) hvalue fun hl hr =>
    .sequence_of_expression (.replace hl.disjunction_of_primary rfl hr.disjunction_of_primary)

theorem signed {op : Primitive} (hop : ∃ k, (k, op) ∈ signs)
    (h : (Phrase.primary e).Writable) :
    (Phrase.primary (.apply (.primitive op) [e] .start)).Writable := by
  obtain ⟨k, hop⟩ := hop
  obtain ⟨t, rfl, hspelled, hpos⟩ := exists_operator hop (by simp [signs])
  obtain ⟨ts, hts, hall⟩ := h
  rw [← hpos]
  exact parenthesized ⟨t :: ts,
    .sequence_of_comparison (.comparison (.signed hop hts.product_of_primary)),
    List.forall_mem_cons.mpr ⟨hspelled, hall⟩⟩

theorem not (h : (Phrase.primary e).Writable) :
    (Phrase.primary (.apply (.primitive .not) [e] .start)).Writable := by
  obtain ⟨ts, hts, hall⟩ := h
  exact parenthesized ⟨ofSymbol .not :: ts,
    .sequence_of_term (.not (t := ofSymbol .not) rfl hts.term_of_primary),
    List.forall_mem_cons.mpr ⟨spelled_ofSymbol _, hall⟩⟩

theorem binary {p : Primitive} (hp : p.operands? = some 2)
    (hleft : (Phrase.primary left).Writable) (hright : (Phrase.primary right).Writable) :
    (Phrase.primary (.apply (.primitive p) [left, right] .start)).Writable := by
  cases p with
  | eq | ne | lt | le | gt | ge => exact compare (by simp [comparisons]) hleft hright
  | add | sub => exact add (by simp [additions]) hleft hright
  | mul | div | intDiv | mod => exact multiply (by simp [multiplications]) hleft hright
  | pow => exact raise hleft hright
  | get => exact index hleft hright
  | _ => cases hp

theorem unary {p : Primitive} (hp : p.operands? = some 1) (h : (Phrase.primary e).Writable) :
    (Phrase.primary (.apply (.primitive p) [e] .start)).Writable := by
  cases p with
  | neg | pos => exact signed (by simp [signs]) h
  | not => exact not h
  | _ => cases hp

/-- Every operator can be written with as many operands as it takes. -/
theorem operator {p : Primitive} (hcount : p.operands? = some es.length)
    (hes : ∀ e ∈ es, (Phrase.primary e).Writable) :
    (Phrase.primary (.apply (.primitive p) es .start)).Writable := by
  -- the count of operands tells which kinds of operators there are to write
  match es with
  | [] => cases p <;> cases hcount
  | [e] => exact unary hcount (hes e List.mem_cons_self)
  | [left, right] =>
    obtain ⟨hleft, hright⟩ := List.forall_mem_cons.mp hes
    exact binary hcount hleft (hright right List.mem_cons_self)
  | [left, right, value] =>
    obtain ⟨hleft, htail⟩ := List.forall_mem_cons.mp hes
    obtain ⟨hright, hvalue⟩ := List.forall_mem_cons.mp htail
    cases p with
    | set => exact replace hleft hright (hvalue value List.mem_cons_self)
    | _ => cases hcount
  | _ :: _ :: _ :: _ :: _ => cases p <;> cases hcount

/-! Literals and names. -/

/-- One token that is a primary. -/
theorem token (ht : t.Spelled) (h : Derives (.primary e) [t]) : (Phrase.primary e).Writable :=
  ⟨[t], h, List.forall_mem_singleton.mpr ht⟩

theorem number {x : Float} {spelling : List Char} (h : Spells (.number x) spelling) :
    (Phrase.primary (.literal (.number x))).Writable := by
  refine token (t := ⟨.number x, String.ofList spelling, .start⟩) ?_ (.number rfl)
  rw [Token.Spelled, String.toList_ofList]
  exact h

/-- Every text stands in some string literal: quotes and backslashes are escaped. -/
theorem exists_quoted (value : List Char) : ∃ spelling, Quoted value spelling := by
  induction value with
  | nil => exact ⟨[], .nil⟩
  | cons c value ih =>
    obtain ⟨spelling, h⟩ := ih
    by_cases hquote : c = '"'
    · subst hquote
      exact ⟨_, .escape (c := '"') h⟩
    by_cases hbackslash : c = '\\'
    · subst hbackslash
      exact ⟨_, .escape (c := '\\') h⟩
    exact ⟨_, .plain hquote hbackslash h⟩

theorem str (s : String) : (Phrase.primary (.literal (.str s))).Writable := by
  obtain ⟨spelling, h⟩ := exists_quoted s.toList
  refine token (t := ⟨.str s, String.ofList ('"' :: (spelling ++ ['"'])), .start⟩) ?_ (.str rfl)
  have hspells := Spells.str h
  rw [String.ofList_toList] at hspells
  rwa [Token.Spelled, String.toList_ofList]

theorem var {name : String} (h : IsName name) : (Phrase.primary (.var name .start)).Writable :=
  token (t := ofName name) h (.var (t := ofName name) rfl)

/-- Names with a comma behind each are parameters. -/
theorem parameters {names : List String} (h : ∀ name ∈ names, IsName name) :
    ∃ ts, Parameters names ts ∧ ∀ t ∈ ts, t.Spelled := by
  induction names with
  | nil => exact ⟨[], .nil, nofun⟩
  | cons name names ih =>
    obtain ⟨hname, hnames⟩ := List.forall_mem_cons.mp h
    obtain ⟨ts, hparams, hts⟩ := ih hnames
    exact ⟨ofName name :: ofSymbol .comma :: ts, .cons (t := ofName name) rfl rfl hparams,
      List.forall_mem_cons.mpr ⟨hname, List.forall_mem_cons.mpr ⟨spelled_ofSymbol _, hts⟩⟩⟩

theorem optionalName {name : Option String} (h : ∀ n ∈ name, IsName n) :
    ∃ ts, OptionalName name ts ∧ ∀ t ∈ ts, t.Spelled := by
  cases name with
  | none => exact ⟨[], .absent, nofun⟩
  | some n =>
    exact ⟨[ofName n], .present (t := ofName n) rfl, List.forall_mem_singleton.mpr (h n rfl)⟩

end Phrase.Writable

end Grammar

/-! ## 4. Every well-formed tree -/

open Grammar.Phrase.Writable Token in
/-- A well-formed tree can be written as a primary. -/
theorem Expr.WellFormed.writable {e : Expr} (h : e.WellFormed) :
    (Phrase.primary e.bare).Writable := by
  -- each node is written as a primary, so no precedence between nodes matters
  induction h with
  | number h => exact .number h
  | str => exact .str _
  | @bool b =>
    cases b with
    | true => exact token (spelled_ofKeyword .trueK) (.true rfl)
    | false => exact token (spelled_ofKeyword .falseK) (.false rfl)
  | null => exact token (spelled_ofKeyword .nullK) (.null rfl)
  | @array es _ ih =>
    rw [bare, relocate, relocateAll_eq_map]
    obtain ⟨ts, hts, hall⟩ := list_of_primaries (List.forall_mem_map.mpr ih)
    exact ⟨ofSymbol .openBracket :: (ts ++ [ofSymbol .closeBracket]), .array rfl hts rfl,
      spelled_enclosed (spelled_ofSymbol _) hall (spelled_ofSymbol _)⟩
  | var hname => exact .var hname
  | store hname _ ih =>
    exact between (spelled_ofSymbol .store) (.var hname) ih fun hl hr =>
      .sequence_of_expression (.store hl.disjunction_of_primary rfl hr.disjunction_of_primary)
  | update hname _ ih =>
    exact between (spelled_ofSymbol .update) (.var hname) ih fun hl hr =>
      .sequence_of_expression (.update hl.disjunction_of_primary rfl hr.disjunction_of_primary)
  | seq _ _ ihfirst ihrest =>
    exact between (spelled_ofSymbol .semicolon) ihfirst ihrest fun hl hr =>
      .sequence (.item (.expression hl.disjunction_of_primary) rfl
        (.lastItem (.expression hr.disjunction_of_primary)))
  | and _ _ ihleft ihright =>
    exact between (spelled_ofSymbol .and) ihleft ihright fun hl hr =>
      .sequence_of_expression (.expression (.disjunction
        (.and (.conjunction hl.comparison_of_primary) rfl hr.comparison_of_primary)))
  | or _ _ ihleft ihright =>
    exact between (spelled_ofSymbol .or) ihleft ihright fun hl hr =>
      .sequence_of_expression (.expression
        (.or hl.disjunction_of_primary rfl (.conjunction hr.comparison_of_primary)))
  | cond _ _ _ ihcondition ihconsequent ihalternate =>
    obtain ⟨ts, hts, htsSpelled⟩ := ihcondition.sequence_of_primary
    obtain ⟨us, hus, husSpelled⟩ := ihconsequent.sequence_of_primary
    obtain ⟨vs, hvs, hvsSpelled⟩ := ihalternate.sequence_of_primary
    refine ⟨ofKeyword .ifK :: ((ts ++ ofKeyword .thenK :: (us ++ ofKeyword .elseK :: vs)) ++
      [ofKeyword .endK]), .cond rfl (.elseBranch hts (.inr rfl) hus rfl hvs) rfl, ?_⟩
    have hbranches := spelled_append htsSpelled (spelled_ofKeyword .thenK)
      (spelled_append husSpelled (spelled_ofKeyword .elseK) hvsSpelled)
    exact spelled_enclosed (spelled_ofKeyword _) hbranches (spelled_ofKeyword _)
  | loop _ _ ihcondition ihbody =>
    obtain ⟨ts, hts, htsSpelled⟩ := ihcondition.sequence_of_primary
    obtain ⟨us, hus, husSpelled⟩ := ihbody.sequence_of_primary
    refine ⟨ofKeyword .whileK :: (ts ++ ofKeyword .doK :: (us ++ [ofKeyword .endK])),
      .loop rfl hts rfl hus rfl, ?_⟩
    have hrest := spelled_append htsSpelled (spelled_ofKeyword .doK)
      (spelled_concat husSpelled (spelled_ofKeyword .endK))
    exact List.forall_mem_cons.mpr ⟨spelled_ofKeyword _, hrest⟩
  | func hparams hdistinct _ ih =>
    obtain ⟨ps, hps, hpsSpelled⟩ := parameters hparams
    obtain ⟨ts, hts, htsSpelled⟩ := ih.sequence_of_primary
    refine ⟨ofKeyword .funK :: ([] ++ ofSymbol .openParen :: (ps ++ ofSymbol .closeParen ::
      ([] ++ (ts ++ [ofKeyword .endK])))),
      .func rfl .absent rfl hps hdistinct rfl .absent hts rfl, ?_⟩
    have hbody := spelled_concat htsSpelled (spelled_ofKeyword .endK)
    have hrest := spelled_append hpsSpelled (spelled_ofSymbol .closeParen) hbody
    exact List.forall_mem_cons.mpr ⟨spelled_ofKeyword _,
      List.forall_mem_cons.mpr ⟨spelled_ofSymbol _, hrest⟩⟩
  | operator hcount _ ih =>
    rw [bare, relocate, relocateAll_eq_map]
    refine .operator ?_ (List.forall_mem_map.mpr ih)
    rw [List.length_map]
    exact hcount
  | apply _ _ ihcallee ihargs =>
    rw [bare, relocate, relocateAll_eq_map]
    exact call ihcallee (List.forall_mem_map.mpr ihargs)
  | block hlabel _ ih =>
    obtain ⟨ls, hls, hlsSpelled⟩ := optionalName hlabel
    obtain ⟨ts, hts, htsSpelled⟩ := ih.sequence_of_primary
    refine ⟨ofKeyword .blockK :: (ls ++ ofKeyword .doK :: (ts ++ [ofKeyword .endK])),
      .block rfl hls rfl hts rfl, ?_⟩
    have hrest := spelled_append hlsSpelled (spelled_ofKeyword .doK)
      (spelled_concat htsSpelled (spelled_ofKeyword .endK))
    exact List.forall_mem_cons.mpr ⟨spelled_ofKeyword _, hrest⟩

/-- Programs are read as well-formed trees, and every well-formed tree is, but for its
places, what some program is read as. -/
theorem Expr.parse_image_eq_wellFormed :
    (∀ source e, Expr.parse source = .ok e → e.WellFormed) ∧
      ∀ e : Expr, e.WellFormed → ∃ source e', Expr.parse source = .ok e' ∧ e'.bare = e.bare := by
  constructor
  · intro source e hparse
    have hderives := Parser.derives_of_program (kind_ne_finish_of_mem_scan source) hparse
    exact hderives.wellFormed fun t ht => Token.spelled_of_mem_scan ht (hderives.isWord t ht)
  · intro e he
    obtain ⟨ts, hderives, hts⟩ := he.writable.sequence_of_primary
    obtain ⟨source, e', hparse, hbare, -⟩ := Expr.parse_of_spelled hderives hts
    exact ⟨source, e', hparse, hbare.trans e.bare_bare⟩

/-- An element is replaced through two nested indices, and the tree is written again. -/
theorem Expr.parse_image_of_replacement :
    ∃ e, Expr.parse "a[b][c] <- !d" = .ok e ∧ e.WellFormed ∧
      ∃ source e', Expr.parse source = .ok e' ∧ e'.bare = e.bare := by
  have hparse : ∃ e, Expr.parse "a[b][c] <- !d" = .ok e := ⟨_, rfl⟩
  obtain ⟨e, hparse⟩ := hparse
  have hwell := Expr.parse_image_eq_wellFormed.1 _ e hparse
  exact ⟨e, hparse, hwell, Expr.parse_image_eq_wellFormed.2 e hwell⟩

end CalcScript

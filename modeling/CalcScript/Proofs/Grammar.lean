/-
`Proofs/Grammar.lean` -- the grammar of programs.

The grammar is a relation between tokens and trees, stated without the parser:
`Derives phrase tokens` says that these tokens, all of them, form the phrase, which
is a nonterminal together with its tree. In the notation of grammars, with the
nonterminals named as in `Phrase`:

  sequence     ->  items
  items        ->  [ expression ] | ";" items | expression ";" items
  expression   ->  disjunction [ (":=" | "<-") disjunction ]
  disjunction  ->  conjunction | disjunction "||" conjunction
  conjunction  ->  comparison | conjunction "&&" comparison
  comparison   ->  sum [ ("==" | "!=" | "<" | "<=" | ">" | ">=") sum ]
  sum          ->  [ "+" | "-" ] product | sum ("+" | "-") product
  product      ->  power | product ("*" | "/" | "div" | "%") power
  power        ->  term [ "^" power ]
  term         ->  operand | "!" term
  operand      ->  primary | operand "(" list ")" | operand "[" expression "]"
  list         ->  [ expression ] | expression "," list
  branches     ->  sequence ("do" | "then") sequence
                   [ "else" sequence | "elif" branches ]

Left recursion makes an operator associate to the left. What stands behind an
operand of `!` belongs to the operand, since `!` makes a term and only an operand
can be called or indexed. Nodes at which evaluation can fail carry the place of
their identifier, operator or opening bracket.
-/
import CalcScript.Expr.Parser

set_option autoImplicit false

namespace CalcScript.Grammar

/-! ## 1. Operators -/

def comparisons : List (Token.Kind × Primitive) :=
  [(.symbol .equal, .eq), (.symbol .notEqual, .ne), (.symbol .less, .lt),
    (.symbol .lessEqual, .le), (.symbol .greater, .gt), (.symbol .greaterEqual, .ge)]

def signs : List (Token.Kind × Primitive) :=
  [(.symbol .plus, .pos), (.symbol .minus, .neg)]

def additions : List (Token.Kind × Primitive) :=
  [(.symbol .plus, .add), (.symbol .minus, .sub)]

def multiplications : List (Token.Kind × Primitive) :=
  [(.symbol .times, .mul), (.symbol .slash, .div), (.keyword .divK, .intDiv),
    (.symbol .percent, .mod)]

theorem mem_comparisons {k : Token.Kind} {op : Primitive} :
    (k, op) ∈ comparisons ↔ k.comparison? = some op := by
  constructor
  · intro h
    simp only [comparisons, List.mem_cons, Prod.mk.injEq, List.not_mem_nil, or_false] at h
    rcases h with ⟨rfl, rfl⟩ | ⟨rfl, rfl⟩ | ⟨rfl, rfl⟩ | ⟨rfl, rfl⟩ | ⟨rfl, rfl⟩ | ⟨rfl, rfl⟩
    all_goals rfl
  · intro h
    unfold Token.Kind.comparison? at h
    split at h <;> cases h <;> simp [comparisons]

theorem mem_signs {k : Token.Kind} {op : Primitive} : (k, op) ∈ signs ↔ k.sign? = some op := by
  constructor
  · intro h
    simp only [signs, List.mem_cons, Prod.mk.injEq, List.not_mem_nil, or_false] at h
    rcases h with ⟨rfl, rfl⟩ | ⟨rfl, rfl⟩ <;> rfl
  · intro h
    unfold Token.Kind.sign? at h
    split at h <;> cases h <;> simp [signs]

theorem mem_additions {k : Token.Kind} {op : Primitive} :
    (k, op) ∈ additions ↔ k.sum? = some op := by
  constructor
  · intro h
    simp only [additions, List.mem_cons, Prod.mk.injEq, List.not_mem_nil, or_false] at h
    rcases h with ⟨rfl, rfl⟩ | ⟨rfl, rfl⟩ <;> rfl
  · intro h
    unfold Token.Kind.sum? at h
    split at h <;> cases h <;> simp [additions]

theorem mem_multiplications {k : Token.Kind} {op : Primitive} :
    (k, op) ∈ multiplications ↔ k.product? = some op := by
  constructor
  · intro h
    simp only [multiplications, List.mem_cons, Prod.mk.injEq, List.not_mem_nil, or_false] at h
    rcases h with ⟨rfl, rfl⟩ | ⟨rfl, rfl⟩ | ⟨rfl, rfl⟩ | ⟨rfl, rfl⟩ <;> rfl
  · intro h
    unfold Token.Kind.product? at h
    split at h <;> cases h <;> simp [multiplications]

/-- The application of a primitive at a token. -/
def operation (op : Primitive) (t : Token) (args : List Expr) : Expr :=
  .apply (.primitive op) args t.pos

/-! ## 2. Parts without trees -/

/-- An identifier or nothing. -/
inductive OptionalName : Option String → List Token → Prop
  | absent : OptionalName none []
  | present {t : Token} (ht : t.kind = .identifier) : OptionalName (some t.lexeme) [t]

/-- The arrow in front of a function's body, which may be missing. -/
inductive OptionalArrow : List Token → Prop
  | absent : OptionalArrow []
  | present {t : Token} (ht : t.kind = .symbol .arrow) : OptionalArrow [t]

/-- Names with commas between them; one more comma may come last. -/
inductive Parameters : List String → List Token → Prop
  | nil : Parameters [] []
  | last {t : Token} (ht : t.kind = .identifier) : Parameters [t.lexeme] [t]
  | cons {t comma : Token} {names : List String} {ts : List Token} (ht : t.kind = .identifier)
      (hcomma : comma.kind = .symbol .comma) (hnames : Parameters names ts) :
    Parameters (t.lexeme :: names) (t :: comma :: ts)

/-- A function literal; with a name it is stored under it. -/
def function (name : Option String) (params : List String) (body : Expr) : Expr :=
  name.elim (.func params body) (.store · (.func params body))

/-! ## 3. Phrases -/

/-- A nonterminal with the tree that its tokens stand for. -/
inductive Phrase where
  | sequence (e : Expr)
  /-- the expressions of a sequence -/
  | items (es : List Expr)
  | expression (e : Expr)
  | disjunction (e : Expr)
  | conjunction (e : Expr)
  | comparison (e : Expr)
  | sum (e : Expr)
  | product (e : Expr)
  | power (e : Expr)
  | term (e : Expr)
  /-- a term that can be called or indexed -/
  | operand (e : Expr)
  | primary (e : Expr)
  /-- what stands between brackets: arguments, or the elements of an array -/
  | list (es : List Expr)
  /-- what stands between `if` and its `end` -/
  | branches (e : Expr)

/-! The items of a sequence make one tree: null if there is none, the item itself if there is one,
and `seq` if there are more, which associates to the right. -/

@[simp] theorem ofSequence_nil : Expr.ofSequence [] = .null := rfl

@[simp] theorem ofSequence_singleton (e : Expr) : Expr.ofSequence [e] = e := rfl

theorem ofSequence_cons (e : Expr) {es : List Expr} (h : es ≠ []) :
    Expr.ofSequence (e :: es) = .seq e (.ofSequence es) := by
  cases es with
  | nil => exact absurd rfl h
  | cons e' es => rfl

/-- The tokens form the phrase. -/
inductive Derives : Phrase → List Token → Prop
  -- sequences, with the tree that the three equations above give
  | sequence {es ts} (h : Derives (.items es) ts) : Derives (.sequence (.ofSequence es)) ts
  | noItem : Derives (.items []) []
  | semicolon {t es ts} (ht : t.kind = .symbol .semicolon) (h : Derives (.items es) ts) :
    Derives (.items es) (t :: ts)
  | lastItem {e ts} (h : Derives (.expression e) ts) : Derives (.items [e]) ts
  | item {e ts t es us} (he : Derives (.expression e) ts) (ht : t.kind = .symbol .semicolon)
      (hes : Derives (.items es) us) : Derives (.items (e :: es)) (ts ++ t :: us)
  -- definitions and changes; only a variable can be defined, an element can be replaced too
  | expression {e ts} (h : Derives (.disjunction e) ts) : Derives (.expression e) ts
  | store {name pos ts t value us} (htarget : Derives (.disjunction (.var name pos)) ts)
      (ht : t.kind = .symbol .store) (hvalue : Derives (.disjunction value) us) :
    Derives (.expression (.store name value)) (ts ++ t :: us)
  | update {name pos ts t value us} (htarget : Derives (.disjunction (.var name pos)) ts)
      (ht : t.kind = .symbol .update) (hvalue : Derives (.disjunction value) us) :
    Derives (.expression (.update name value pos)) (ts ++ t :: us)
  | replace {collection index pos ts t value us}
      (htarget : Derives (.disjunction (.apply (.primitive .get) [collection, index] pos)) ts)
      (ht : t.kind = .symbol .update) (hvalue : Derives (.disjunction value) us) :
    Derives (.expression (.apply (.primitive .set) [collection, index, value] pos)) (ts ++ t :: us)
  -- operators, from the loosest to the tightest
  | disjunction {e ts} (h : Derives (.conjunction e) ts) : Derives (.disjunction e) ts
  | or {left ts t right us} (hleft : Derives (.disjunction left) ts) (ht : t.kind = .symbol .or)
      (hright : Derives (.conjunction right) us) :
    Derives (.disjunction (.or left right)) (ts ++ t :: us)
  | conjunction {e ts} (h : Derives (.comparison e) ts) : Derives (.conjunction e) ts
  | and {left ts t right us} (hleft : Derives (.conjunction left) ts) (ht : t.kind = .symbol .and)
      (hright : Derives (.comparison right) us) :
    Derives (.conjunction (.and left right)) (ts ++ t :: us)
  | comparison {e ts} (h : Derives (.sum e) ts) : Derives (.comparison e) ts
  | compare {left ts t op right us} (hleft : Derives (.sum left) ts)
      (ht : (t.kind, op) ∈ comparisons) (hright : Derives (.sum right) us) :
    Derives (.comparison (operation op t [left, right])) (ts ++ t :: us)
  | sum {e ts} (h : Derives (.product e) ts) : Derives (.sum e) ts
  | signed {t op e ts} (ht : (t.kind, op) ∈ signs) (h : Derives (.product e) ts) :
    Derives (.sum (operation op t [e])) (t :: ts)
  | add {left ts t op right us} (hleft : Derives (.sum left) ts)
      (ht : (t.kind, op) ∈ additions) (hright : Derives (.product right) us) :
    Derives (.sum (operation op t [left, right])) (ts ++ t :: us)
  | product {e ts} (h : Derives (.power e) ts) : Derives (.product e) ts
  | multiply {left ts t op right us} (hleft : Derives (.product left) ts)
      (ht : (t.kind, op) ∈ multiplications) (hright : Derives (.power right) us) :
    Derives (.product (operation op t [left, right])) (ts ++ t :: us)
  | power {e ts} (h : Derives (.term e) ts) : Derives (.power e) ts
  | raise {base ts t exponent us} (hbase : Derives (.term base) ts) (ht : t.kind = .symbol .caret)
      (hexponent : Derives (.power exponent) us) :
    Derives (.power (operation .pow t [base, exponent])) (ts ++ t :: us)
  -- terms
  | term {e ts} (h : Derives (.operand e) ts) : Derives (.term e) ts
  | not {t e ts} (ht : t.kind = .symbol .not) (h : Derives (.term e) ts) :
    Derives (.term (operation .not t [e])) (t :: ts)
  | operand {e ts} (h : Derives (.primary e) ts) : Derives (.operand e) ts
  | call {callee ts t args us close} (hcallee : Derives (.operand callee) ts)
      (ht : t.kind = .symbol .openParen) (hargs : Derives (.list args) us)
      (hclose : close.kind = .symbol .closeParen) :
    Derives (.operand (.apply callee args t.pos)) (ts ++ t :: (us ++ [close]))
  | index {collection ts t i us close} (hcollection : Derives (.operand collection) ts)
      (ht : t.kind = .symbol .openBracket) (hi : Derives (.expression i) us)
      (hclose : close.kind = .symbol .closeBracket) :
    Derives (.operand (operation .get t [collection, i])) (ts ++ t :: (us ++ [close]))
  | noElement : Derives (.list []) []
  | lastElement {e ts} (h : Derives (.expression e) ts) : Derives (.list [e]) ts
  | element {e ts t es us} (he : Derives (.expression e) ts) (ht : t.kind = .symbol .comma)
      (hes : Derives (.list es) us) : Derives (.list (e :: es)) (ts ++ t :: us)
  -- primaries
  | number {t x} (ht : t.kind = .number x) : Derives (.primary (.literal (.number x))) [t]
  | str {t s} (ht : t.kind = .str s) : Derives (.primary (.literal (.str s))) [t]
  | null {t} (ht : t.kind = .keyword .nullK) : Derives (.primary .null) [t]
  | true {t} (ht : t.kind = .keyword .trueK) : Derives (.primary (.literal (.bool true))) [t]
  | false {t} (ht : t.kind = .keyword .falseK) : Derives (.primary (.literal (.bool false))) [t]
  | var {t} (ht : t.kind = .identifier) : Derives (.primary (.var t.lexeme t.pos)) [t]
  | parentheses {t e ts close} (ht : t.kind = .symbol .openParen) (h : Derives (.sequence e) ts)
      (hclose : close.kind = .symbol .closeParen) : Derives (.primary e) (t :: (ts ++ [close]))
  | array {t es ts close} (ht : t.kind = .symbol .openBracket) (h : Derives (.list es) ts)
      (hclose : close.kind = .symbol .closeBracket) :
    Derives (.primary (.array es)) (t :: (ts ++ [close]))
  | cond {t e ts close} (ht : t.kind = .keyword .ifK) (h : Derives (.branches e) ts)
      (hclose : close.kind = .keyword .endK) : Derives (.primary e) (t :: (ts ++ [close]))
  | emptyLoop {t condition ts close} (ht : t.kind = .keyword .whileK)
      (hcondition : Derives (.sequence condition) ts) (hclose : close.kind = .keyword .endK) :
    Derives (.primary (.loop condition .null)) (t :: (ts ++ [close]))
  | loop {t condition ts d body us close} (ht : t.kind = .keyword .whileK)
      (hcondition : Derives (.sequence condition) ts) (hd : d.kind = .keyword .doK)
      (hbody : Derives (.sequence body) us) (hclose : close.kind = .keyword .endK) :
    Derives (.primary (.loop condition body)) (t :: (ts ++ d :: (us ++ [close])))
  | func {t name ns left params ps right arrow body ts close} (ht : t.kind = .keyword .funK)
      (hname : OptionalName name ns) (hleft : left.kind = .symbol .openParen)
      (hparams : Parameters params ps) (hdistinct : params.Nodup)
      (hright : right.kind = .symbol .closeParen) (harrow : OptionalArrow arrow)
      (hbody : Derives (.sequence body) ts) (hclose : close.kind = .keyword .endK) :
    Derives (.primary (function name params body))
      (t :: (ns ++ left :: (ps ++ right :: (arrow ++ (ts ++ [close])))))
  | block {t label ls d body ts close} (ht : t.kind = .keyword .blockK)
      (hlabel : OptionalName label ls) (hd : d.kind = .keyword .doK)
      (hbody : Derives (.sequence body) ts) (hclose : close.kind = .keyword .endK) :
    Derives (.primary (.block label body)) (t :: (ls ++ d :: (ts ++ [close])))
  -- branches of a conditional; without a last one it is null
  | oneBranch {condition ts d consequent us} (hcondition : Derives (.sequence condition) ts)
      (hd : d.kind = .keyword .doK ∨ d.kind = .keyword .thenK)
      (hconsequent : Derives (.sequence consequent) us) :
    Derives (.branches (.cond condition consequent .null)) (ts ++ d :: us)
  | elseBranch {condition ts d consequent us e alternate vs}
      (hcondition : Derives (.sequence condition) ts)
      (hd : d.kind = .keyword .doK ∨ d.kind = .keyword .thenK)
      (hconsequent : Derives (.sequence consequent) us) (he : e.kind = .keyword .elseK)
      (halternate : Derives (.sequence alternate) vs) :
    Derives (.branches (.cond condition consequent alternate)) (ts ++ d :: (us ++ e :: vs))
  | elifBranch {condition ts d consequent us e alternate vs}
      (hcondition : Derives (.sequence condition) ts)
      (hd : d.kind = .keyword .doK ∨ d.kind = .keyword .thenK)
      (hconsequent : Derives (.sequence consequent) us) (he : e.kind = .keyword .elifK)
      (halternate : Derives (.branches alternate) vs) :
    Derives (.branches (.cond condition consequent alternate)) (ts ++ d :: (us ++ e :: vs))

end CalcScript.Grammar

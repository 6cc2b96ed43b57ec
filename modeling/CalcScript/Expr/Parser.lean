/-
`Expr/Parser.lean` -- reading a program.

The grammar, from the loosest to the tightest binding:

  sequence     expressions with semicolons between, before and behind; may be empty
  expression   disjunction [(":=" | "<-") disjunction]
  disjunction  conjunction {"||" conjunction}
  conjunction  comparison {"&&" comparison}
  comparison   sum [("==" | "!=" | "<" | "<=" | ">" | ">=") sum]
  sum          ["+" | "-"] product {("+" | "-") product}
  product      power {("*" | "/" | "div" | "%") power}
  power        term ["^" power]
  term         primary {"(" list ")" | "[" expression "]"}
  primary      number, string, null, true, false, identifier, "!" term, "(" sequence ")",
               "[" list "]", if, while, fun, block

Each production is a function from a cursor to a tree and a later cursor, and
decides by looking at one token. A malformed token is reported as soon as a
cursor comes to stand on it. The first argument of every production bounds the
depth of the recursion; `Cursor.depth` is enough for any program, since at most
a dozen productions open before a token is taken.
-/
import CalcScript.Expr
import CalcScript.Token.Lexer
import CalcScript.Text.Excerpt

set_option autoImplicit false

namespace CalcScript

/-! ## 1. Errors -/

/-- What is wrong with a program. -/
inductive Problem where
  | malformed (m : Malformed)
  | expectedSymbol (s : Symbol)
  | expectedKeyword (k : Keyword)
  | expectedExpression
  | expectedParameter
  | expectedEnd
  | badTarget
  | duplicateParameter (name : String)
  | tooDeep
deriving DecidableEq, Repr

def Problem.message : Problem → String
  | .malformed m => m.message
  | .expectedSymbol s => "Expecting " ++ s.text
  | .expectedKeyword k => "Expecting " ++ k.text
  | .expectedExpression => "Expecting expression"
  | .expectedParameter => "Expecting parameter"
  | .expectedEnd => "Expecting end of input"
  | .badTarget => "Can only store/update a variable or index"
  | .duplicateParameter name => "Duplicate parameter " ++ name
  | .tooDeep => "Nesting too deep"

/-- Why a program cannot be read, and at which token. -/
structure ParseError where
  problem : Problem
  pos : Position
deriving DecidableEq, Repr

/-- The diagnostic: place, message and the source line with a caret. -/
def ParseError.text (source : String) (e : ParseError) : String :=
  e.pos.text ++ ": " ++ e.problem.message ++ "\n" ++ Text.excerpt source e.pos

/-! ## 2. Cursors -/

/-- A place in the list of tokens. Behind the last one stands the end, for ever. -/
structure Cursor where
  rest : List Token
  finish : Position
deriving DecidableEq, Repr

namespace Cursor

/-- The token to look at. -/
def current (c : Cursor) : Token :=
  c.rest.headD (.finish c.finish)

def kind (c : Cursor) : Token.Kind := c.current.kind

def pos (c : Cursor) : Position := c.current.pos

/-- Fails at the current token. -/
def fail {α : Type} (c : Cursor) (problem : Problem) : Except ParseError α :=
  .error ⟨problem, c.pos⟩

/-- Fails if the current token is malformed. -/
def check (c : Cursor) : Except ParseError Cursor :=
  match c.kind with
  | .malformed m => c.fail (.malformed m)
  | _ => .ok c

/-- Takes the current token. -/
def advance (c : Cursor) : Except ParseError Cursor :=
  check { c with rest := c.rest.tail }

/-- Takes the given symbol, which has to come next. -/
def takeSymbol (c : Cursor) (s : Symbol) : Except ParseError Cursor :=
  if c.kind = .symbol s then c.advance else c.fail (.expectedSymbol s)

/-- Takes the given reserved word, which has to come next. -/
def takeKeyword (c : Cursor) (k : Keyword) : Except ParseError Cursor :=
  if c.kind = .keyword k then c.advance else c.fail (.expectedKeyword k)

/-- Takes an identifier if one comes next. -/
def takeName? (c : Cursor) : Except ParseError (Option String × Cursor) :=
  match c.kind with
  | .identifier => do return (some c.current.lexeme, ← c.advance)
  | _ => .ok (none, c)

/-- Tokens that end a sequence: the end of the program, a closing parenthesis and
the reserved words between the parts of a compound expression. -/
def atSequenceEnd (c : Cursor) : Bool :=
  match c.kind with
  | .finish => true
  | .symbol s => s = .closeParen
  | .keyword k => k = .doK || k = .thenK || k = .elifK || k = .elseK || k = .endK
  | _ => false

/-- A bound on the depth of the recursion for the tokens ahead. -/
def depth (c : Cursor) : Nat := 16 * (c.rest.length + 1)

end Cursor

/-! ## 3. Operators -/

namespace Token.Kind

def comparison? : Token.Kind → Option Primitive
  | .symbol .equal => some .eq
  | .symbol .notEqual => some .ne
  | .symbol .less => some .lt
  | .symbol .lessEqual => some .le
  | .symbol .greater => some .gt
  | .symbol .greaterEqual => some .ge
  | _ => none

def sign? : Token.Kind → Option Primitive
  | .symbol .plus => some .pos
  | .symbol .minus => some .neg
  | _ => none

def sum? : Token.Kind → Option Primitive
  | .symbol .plus => some .add
  | .symbol .minus => some .sub
  | _ => none

def product? : Token.Kind → Option Primitive
  | .symbol .times => some .mul
  | .symbol .slash => some .div
  | .symbol .percent => some .mod
  | .keyword .divK => some .intDiv
  | _ => none

end Token.Kind

/-! ## 4. Productions -/

namespace Parser

/-- Reading stops at the first problem. -/
abbrev Read := Except ParseError

/-- The parameters of a function up to the closing parenthesis, those already
read in `seen`. A trailing comma is allowed, a repeated name is not. -/
def parameters : Nat → List String → Cursor → Read (List String × Cursor)
  | 0, _, c => c.fail .tooDeep
  | n + 1, seen, c =>
    match c.kind with
    | .symbol .closeParen => do return ([], ← c.advance)
    | .identifier => do
      let name := c.current.lexeme
      let next ← c.advance
      if seen.contains name then c.fail (.duplicateParameter name)
      else if next.kind = .symbol .comma then
        let next ← next.advance
        let (names, next) ← parameters n (name :: seen) next
        return (name :: names, next)
      else
        return ([name], ← next.takeSymbol .closeParen)
    | _ => c.fail .expectedParameter

mutual

def sequence : Nat → Cursor → Read (Expr × Cursor)
  | 0, c => c.fail .tooDeep
  | n + 1, c => do
    let (items, c) ← statements n c
    return (.ofSequence items, c)

/-- The expressions of a sequence. Semicolons may repeat. -/
def statements : Nat → Cursor → Read (List Expr × Cursor)
  | 0, c => c.fail .tooDeep
  | n + 1, c =>
    if c.kind = .symbol .semicolon then do
      statements n (← c.advance)
    else if c.atSequenceEnd then .ok ([], c)
    else do
      let (item, c) ← expression n c
      if c.kind = .symbol .semicolon then
        let (items, c) ← statements n (← c.advance)
        return (item :: items, c)
      else return ([item], c)

def expression : Nat → Cursor → Read (Expr × Cursor)
  | 0, c => c.fail .tooDeep
  | n + 1, c => do
    let (target, c) ← disjunction n c
    match c.kind with
    | .symbol .store =>
      let next ← c.advance
      match target with
      | .var name _ =>
        let (value, next) ← disjunction n next
        return (.store name value, next)
      | _ => c.fail .badTarget
    | .symbol .update =>
      let next ← c.advance
      match target with
      | .var name pos =>
        let (value, next) ← disjunction n next
        return (.update name value pos, next)
      | .apply (.primitive .get) [collection, index] pos =>
        let (value, next) ← disjunction n next
        return (.apply (.primitive .set) [collection, index, value] pos, next)
      | _ => c.fail .badTarget
    | _ => return (target, c)

def disjunction : Nat → Cursor → Read (Expr × Cursor)
  | 0, c => c.fail .tooDeep
  | n + 1, c => do
    let (left, c) ← conjunction n c
    disjunctionRest n left c

def disjunctionRest : Nat → Expr → Cursor → Read (Expr × Cursor)
  | 0, _, c => c.fail .tooDeep
  | n + 1, left, c =>
    if c.kind = .symbol .or then do
      let (right, c) ← conjunction n (← c.advance)
      disjunctionRest n (.or left right) c
    else .ok (left, c)

def conjunction : Nat → Cursor → Read (Expr × Cursor)
  | 0, c => c.fail .tooDeep
  | n + 1, c => do
    let (left, c) ← comparison n c
    conjunctionRest n left c

def conjunctionRest : Nat → Expr → Cursor → Read (Expr × Cursor)
  | 0, _, c => c.fail .tooDeep
  | n + 1, left, c =>
    if c.kind = .symbol .and then do
      let (right, c) ← comparison n (← c.advance)
      conjunctionRest n (.and left right) c
    else .ok (left, c)

def comparison : Nat → Cursor → Read (Expr × Cursor)
  | 0, c => c.fail .tooDeep
  | n + 1, c => do
    let (left, c) ← sum n c
    match c.kind.comparison? with
    | some op =>
      let (right, next) ← sum n (← c.advance)
      return (.apply (.primitive op) [left, right] c.pos, next)
    | none => return (left, c)

/-- A sign belongs to the whole first product: `-x^2` is `-(x^2)`. -/
def sum : Nat → Cursor → Read (Expr × Cursor)
  | 0, c => c.fail .tooDeep
  | n + 1, c =>
    match c.kind.sign? with
    | some op => do
      let (operand, next) ← product n (← c.advance)
      sumRest n (.apply (.primitive op) [operand] c.pos) next
    | none => do
      let (left, c) ← product n c
      sumRest n left c

def sumRest : Nat → Expr → Cursor → Read (Expr × Cursor)
  | 0, _, c => c.fail .tooDeep
  | n + 1, left, c =>
    match c.kind.sum? with
    | some op => do
      let (right, next) ← product n (← c.advance)
      sumRest n (.apply (.primitive op) [left, right] c.pos) next
    | none => .ok (left, c)

def product : Nat → Cursor → Read (Expr × Cursor)
  | 0, c => c.fail .tooDeep
  | n + 1, c => do
    let (left, c) ← power n c
    productRest n left c

def productRest : Nat → Expr → Cursor → Read (Expr × Cursor)
  | 0, _, c => c.fail .tooDeep
  | n + 1, left, c =>
    match c.kind.product? with
    | some op => do
      let (right, next) ← power n (← c.advance)
      productRest n (.apply (.primitive op) [left, right] c.pos) next
    | none => .ok (left, c)

/-- Powers nest to the right. -/
def power : Nat → Cursor → Read (Expr × Cursor)
  | 0, c => c.fail .tooDeep
  | n + 1, c => do
    let (base, c) ← term n c
    if c.kind = .symbol .caret then
      let (exponent, next) ← power n (← c.advance)
      return (.apply (.primitive .pow) [base, exponent] c.pos, next)
    else return (base, c)

def term : Nat → Cursor → Read (Expr × Cursor)
  | 0, c => c.fail .tooDeep
  | n + 1, c => do
    let (head, c) ← primary n c
    termRest n head c

/-- Calls and indices behind an expression. -/
def termRest : Nat → Expr → Cursor → Read (Expr × Cursor)
  | 0, _, c => c.fail .tooDeep
  | n + 1, head, c =>
    match c.kind with
    | .symbol .openParen => do
      let (args, next) ← list n .closeParen (← c.advance)
      termRest n (.apply head args c.pos) next
    | .symbol .openBracket => do
      let (index, next) ← expression n (← c.advance)
      let next ← next.takeSymbol .closeBracket
      termRest n (.apply (.primitive .get) [head, index] c.pos) next
    | _ => .ok (head, c)

/-- Expressions with commas between them up to a closing bracket. A trailing
comma is allowed. -/
def list : Nat → Symbol → Cursor → Read (List Expr × Cursor)
  | 0, _, c => c.fail .tooDeep
  | n + 1, close, c =>
    if c.kind = .symbol close then do
      return ([], ← c.advance)
    else do
      let (item, c) ← expression n c
      if c.kind = .symbol .comma then
        let (items, c) ← list n close (← c.advance)
        return (item :: items, c)
      else
        return ([item], ← c.takeSymbol close)

def primary : Nat → Cursor → Read (Expr × Cursor)
  | 0, c => c.fail .tooDeep
  | n + 1, c =>
    match c.kind with
    | .number x => do return (.literal (.number x), ← c.advance)
    | .str s => do return (.literal (.str s), ← c.advance)
    | .identifier => do return (.var c.current.lexeme c.pos, ← c.advance)
    | .symbol .not => do
      let (operand, next) ← term n (← c.advance)
      return (.apply (.primitive .not) [operand] c.pos, next)
    | .symbol .openParen => do
      let (inner, next) ← sequence n (← c.advance)
      return (inner, ← next.takeSymbol .closeParen)
    | .symbol .openBracket => do
      let (items, next) ← list n .closeBracket (← c.advance)
      return (.array items, next)
    | .keyword .nullK => do return (.null, ← c.advance)
    | .keyword .trueK => do return (.literal (.bool true), ← c.advance)
    | .keyword .falseK => do return (.literal (.bool false), ← c.advance)
    | .keyword .ifK => do
      let (tree, next) ← conditional n (← c.advance)
      return (tree, ← next.takeKeyword .endK)
    | .keyword .whileK => do loop n (← c.advance)
    | .keyword .funK => do function n (← c.advance)
    | .keyword .blockK => do block n (← c.advance)
    | _ => c.fail .expectedExpression

/-- An `if` behind the word itself and up to its `end`. A further `elif` is a
conditional in the place of `else`. -/
def conditional : Nat → Cursor → Read (Expr × Cursor)
  | 0, c => c.fail .tooDeep
  | n + 1, c => do
    let (condition, c) ← sequence n c
    let c ← if c.kind = .keyword .thenK then c.advance else c.takeKeyword .doK
    let (consequent, c) ← sequence n c
    match c.kind with
    | .keyword .elifK =>
      let (alternate, c) ← conditional n (← c.advance)
      return (.cond condition consequent alternate, c)
    | .keyword .elseK =>
      let (alternate, c) ← sequence n (← c.advance)
      return (.cond condition consequent alternate, c)
    | _ => return (.cond condition consequent .null, c)

/-- A `while` behind the word itself. The body may be missing. -/
def loop : Nat → Cursor → Read (Expr × Cursor)
  | 0, c => c.fail .tooDeep
  | n + 1, c => do
    let (condition, c) ← sequence n c
    if c.kind = .keyword .doK then
      let (body, c) ← sequence n (← c.advance)
      return (.loop condition body, ← c.takeKeyword .endK)
    else
      return (.loop condition .null, ← c.takeKeyword .endK)

/-- A `fun` behind the word itself. With a name it is a store of the function. -/
def function : Nat → Cursor → Read (Expr × Cursor)
  | 0, c => c.fail .tooDeep
  | n + 1, c => do
    let (name, c) ← c.takeName?
    let c ← c.takeSymbol .openParen
    let (params, c) ← parameters n [] c
    let c ← if c.kind = .symbol .arrow then c.advance else pure c
    let (body, c) ← sequence n c
    let c ← c.takeKeyword .endK
    match name with
    | some name => return (.store name (.func params body), c)
    | none => return (.func params body, c)

/-- A `block` behind the word itself. -/
def block : Nat → Cursor → Read (Expr × Cursor)
  | 0, c => c.fail .tooDeep
  | n + 1, c => do
    let (label, c) ← c.takeName?
    let c ← c.takeKeyword .doK
    let (body, c) ← sequence n c
    return (.block label body, ← c.takeKeyword .endK)

end

/-- A sequence that takes all tokens. -/
def program (c : Cursor) : Except ParseError Expr := do
  let c ← c.check
  let (tree, c) ← sequence c.depth c
  if c.kind = .finish then return tree else c.fail .expectedEnd

end Parser

/-- Reads a program. -/
def Expr.parse (source : String) : Except ParseError Expr :=
  let s := scan source
  Parser.program ⟨s.tokens, s.finish⟩

end CalcScript

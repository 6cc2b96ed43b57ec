/-
`Proofs/ParserRecord.lean` -- the parser with a record of what it does.

A recorded run returns what the parser returns, and with it every call of one production by
another, in order, and every token that was taken, in order. The productions are written once
more as bodies without recursion of their own (`body`): a production can reach another one
only through the function that it is given, and that function records the call. So no call is
left out. That the recorded run has the outcome of the parser is `outcome_recorded`.
-/
import CalcScript.Expr.Parser

set_option autoImplicit false

namespace CalcScript.Parser

/-! ## 1. The productions by name -/

/-- A production, with what it continues or ends with. -/
inductive Rule where
  | sequence
  | statements
  | expression
  | disjunction
  | disjunctionRest (left : Expr)
  | conjunction
  | conjunctionRest (left : Expr)
  | comparison
  | sum
  | sumRest (left : Expr)
  | product
  | productRest (left : Expr)
  | power
  | term
  | termRest (head : Expr)
  | list (close : Symbol)
  | primary
  | conditional
  | loop
  | function
  | block
  | parameters (seen : List String)

namespace Rule

/-- What a production reads. -/
abbrev Result : Rule → Type
  | statements | list _ => List Expr
  | parameters _ => List String
  | _ => Expr

/-- The production as the parser has it. -/
def run : (r : Rule) → Nat → Cursor → Read (r.Result × Cursor)
  | sequence => Parser.sequence
  | statements => Parser.statements
  | expression => Parser.expression
  | disjunction => Parser.disjunction
  | disjunctionRest left => fun n => Parser.disjunctionRest n left
  | conjunction => Parser.conjunction
  | conjunctionRest left => fun n => Parser.conjunctionRest n left
  | comparison => Parser.comparison
  | sum => Parser.sum
  | sumRest left => fun n => Parser.sumRest n left
  | product => Parser.product
  | productRest left => fun n => Parser.productRest n left
  | power => Parser.power
  | term => Parser.term
  | termRest head => fun n => Parser.termRest n head
  | list close => fun n => Parser.list n close
  | primary => Parser.primary
  | conditional => Parser.conditional
  | loop => Parser.loop
  | function => Parser.function
  | block => Parser.block
  | parameters seen => fun n => Parser.parameters n seen

end Rule

/-! ## 2. Recorded runs -/

/-- A production that is called at a cursor. -/
structure Site where
  rule : Rule
  cursor : Cursor

/-- A production calls another one, or itself once more. -/
structure Call where
  caller : Site
  callee : Site

/-- An outcome with the calls and the tokens on the way to it. -/
structure Recorded (α : Type) where
  calls : List Call
  taken : List Token
  outcome : Read α

namespace Recorded

variable {α β : Type}

/-- A step that calls nothing and takes nothing. -/
def still (outcome : Read α) : Recorded α := ⟨[], [], outcome⟩

/-- Both records in order. Behind a failure there is nothing to record. -/
def bind (x : Recorded α) (f : α → Recorded β) : Recorded β where
  calls := x.calls ++ match x.outcome with
    | .ok a => (f a).calls
    | .error _ => []
  taken := x.taken ++ match x.outcome with
    | .ok a => (f a).taken
    | .error _ => []
  outcome := x.outcome >>= fun a => (f a).outcome

instance : Monad Recorded where
  pure a := still (.ok a)
  bind := bind

/-- A run that was called. -/
def entered (call : Call) (x : Recorded α) : Recorded α := { x with calls := call :: x.calls }

/-! Steps of a cursor, with the token that they take. -/

def fail (c : Cursor) (problem : Problem) : Recorded α := still (c.fail problem)

/-- The one step that takes a token. At the end there is none to take. -/
def advance (c : Cursor) : Recorded Cursor := ⟨[], c.rest.take 1, c.advance⟩

def takeSymbol (c : Cursor) (s : Symbol) : Recorded Cursor :=
  if c.kind = .symbol s then advance c else fail c (.expectedSymbol s)

def takeKeyword (c : Cursor) (k : Keyword) : Recorded Cursor :=
  if c.kind = .keyword k then advance c else fail c (.expectedKeyword k)

def takeName? (c : Cursor) : Recorded (Option String × Cursor) :=
  match c.kind with
  | .identifier => do return (some c.current.lexeme, ← advance c)
  | _ => pure (none, c)

/-- The word between a condition and what depends on it. -/
def takeThen (c : Cursor) : Recorded Cursor :=
  if c.kind = .keyword .thenK then advance c else takeKeyword c .doK

/-- The arrow behind parameters, if one comes next. -/
def takeArrow (c : Cursor) : Recorded Cursor :=
  if c.kind = .symbol .arrow then advance c else pure c

@[simp] theorem outcome_bind (x : Recorded α) (f : α → Recorded β) :
    (x >>= f).outcome = x.outcome >>= fun a => (f a).outcome := rfl

@[simp] theorem outcome_advance (c : Cursor) : (advance c).outcome = c.advance := rfl

@[simp] theorem outcome_takeSymbol (c : Cursor) (s : Symbol) :
    (takeSymbol c s).outcome = c.takeSymbol s := by
  unfold takeSymbol Cursor.takeSymbol
  split <;> rfl

@[simp] theorem outcome_takeKeyword (c : Cursor) (k : Keyword) :
    (takeKeyword c k).outcome = c.takeKeyword k := by
  unfold takeKeyword Cursor.takeKeyword
  split <;> rfl

@[simp] theorem outcome_takeName? (c : Cursor) : (takeName? c).outcome = c.takeName? := by
  unfold takeName? Cursor.takeName?
  cases c.kind with
  | identifier => rfl
  | _ => rfl

end Recorded

open Recorded (fail advance takeSymbol takeKeyword takeName? takeThen takeArrow)

/-! ## 3. The recorded parser -/

/-- One production, calling others through `self`. -/
def body (self : (r : Rule) → Cursor → Recorded (r.Result × Cursor)) :
    (r : Rule) → Cursor → Recorded (r.Result × Cursor)
  | .sequence, c => do
    let (items, c) ← self .statements c
    return (.ofSequence items, c)
  | .statements, c =>
    if c.kind = .symbol .semicolon then do
      self .statements (← advance c)
    else if c.atSequenceEnd then pure ([], c)
    else do
      let (item, c) ← self .expression c
      if c.kind = .symbol .semicolon then
        let (items, c) ← self .statements (← advance c)
        return (item :: items, c)
      else return ([item], c)
  | .expression, c => do
    let (target, c) ← self .disjunction c
    match c.kind with
    | .symbol .store =>
      let next ← advance c
      match target with
      | .var name _ =>
        let (value, next) ← self .disjunction next
        return (.store name value, next)
      | _ => fail c .badTarget
    | .symbol .update =>
      let next ← advance c
      match target with
      | .var name pos =>
        let (value, next) ← self .disjunction next
        return (.update name value pos, next)
      | .apply (.primitive .get) [collection, index] pos =>
        let (value, next) ← self .disjunction next
        return (.apply (.primitive .set) [collection, index, value] pos, next)
      | _ => fail c .badTarget
    | _ => return (target, c)
  | .disjunction, c => do
    let (left, c) ← self .conjunction c
    self (.disjunctionRest left) c
  | .disjunctionRest left, c =>
    if c.kind = .symbol .or then do
      let (right, c) ← self .conjunction (← advance c)
      self (.disjunctionRest (.or left right)) c
    else pure (left, c)
  | .conjunction, c => do
    let (left, c) ← self .comparison c
    self (.conjunctionRest left) c
  | .conjunctionRest left, c =>
    if c.kind = .symbol .and then do
      let (right, c) ← self .comparison (← advance c)
      self (.conjunctionRest (.and left right)) c
    else pure (left, c)
  | .comparison, c => do
    let (left, c) ← self .sum c
    match c.kind.comparison? with
    | some op =>
      let (right, next) ← self .sum (← advance c)
      return (.apply (.primitive op) [left, right] c.pos, next)
    | none => return (left, c)
  | .sum, c =>
    match c.kind.sign? with
    | some op => do
      let (operand, next) ← self .product (← advance c)
      self (.sumRest (.apply (.primitive op) [operand] c.pos)) next
    | none => do
      let (left, c) ← self .product c
      self (.sumRest left) c
  | .sumRest left, c =>
    match c.kind.sum? with
    | some op => do
      let (right, next) ← self .product (← advance c)
      self (.sumRest (.apply (.primitive op) [left, right] c.pos)) next
    | none => pure (left, c)
  | .product, c => do
    let (left, c) ← self .power c
    self (.productRest left) c
  | .productRest left, c =>
    match c.kind.product? with
    | some op => do
      let (right, next) ← self .power (← advance c)
      self (.productRest (.apply (.primitive op) [left, right] c.pos)) next
    | none => pure (left, c)
  | .power, c => do
    let (base, c) ← self .term c
    if c.kind = .symbol .caret then
      let (exponent, next) ← self .power (← advance c)
      return (.apply (.primitive .pow) [base, exponent] c.pos, next)
    else return (base, c)
  | .term, c => do
    let (head, c) ← self .primary c
    self (.termRest head) c
  | .termRest head, c =>
    match c.kind with
    | .symbol .openParen => do
      let (args, next) ← self (.list .closeParen) (← advance c)
      self (.termRest (.apply head args c.pos)) next
    | .symbol .openBracket => do
      let (index, next) ← self .expression (← advance c)
      let next ← takeSymbol next .closeBracket
      self (.termRest (.apply (.primitive .get) [head, index] c.pos)) next
    | _ => pure (head, c)
  | .list close, c =>
    if c.kind = .symbol close then do
      return ([], ← advance c)
    else do
      let (item, c) ← self .expression c
      if c.kind = .symbol .comma then
        let (items, c) ← self (.list close) (← advance c)
        return (item :: items, c)
      else
        return ([item], ← takeSymbol c close)
  | .primary, c =>
    match c.kind with
    | .number x => do return (.literal (.number x), ← advance c)
    | .str s => do return (.literal (.str s), ← advance c)
    | .identifier => do return (.var c.current.lexeme c.pos, ← advance c)
    | .symbol .not => do
      let (operand, next) ← self .term (← advance c)
      return (.apply (.primitive .not) [operand] c.pos, next)
    | .symbol .openParen => do
      let (inner, next) ← self .sequence (← advance c)
      return (inner, ← takeSymbol next .closeParen)
    | .symbol .openBracket => do
      let (items, next) ← self (.list .closeBracket) (← advance c)
      return (.array items, next)
    | .keyword .nullK => do return (.null, ← advance c)
    | .keyword .trueK => do return (.literal (.bool true), ← advance c)
    | .keyword .falseK => do return (.literal (.bool false), ← advance c)
    | .keyword .ifK => do
      let (tree, next) ← self .conditional (← advance c)
      return (tree, ← takeKeyword next .endK)
    | .keyword .whileK => do self .loop (← advance c)
    | .keyword .funK => do self .function (← advance c)
    | .keyword .blockK => do self .block (← advance c)
    | _ => fail c .expectedExpression
  | .conditional, c => do
    let (condition, c) ← self .sequence c
    let c ← takeThen c
    let (consequent, c) ← self .sequence c
    match c.kind with
    | .keyword .elifK =>
      let (alternate, c) ← self .conditional (← advance c)
      return (.cond condition consequent alternate, c)
    | .keyword .elseK =>
      let (alternate, c) ← self .sequence (← advance c)
      return (.cond condition consequent alternate, c)
    | _ => return (.cond condition consequent .null, c)
  | .loop, c => do
    let (condition, c) ← self .sequence c
    if c.kind = .keyword .doK then
      let (body, c) ← self .sequence (← advance c)
      return (.loop condition body, ← takeKeyword c .endK)
    else
      return (.loop condition .null, ← takeKeyword c .endK)
  | .function, c => do
    let (name, c) ← takeName? c
    let c ← takeSymbol c .openParen
    let (params, c) ← self (.parameters []) c
    let c ← takeArrow c
    let (body, c) ← self .sequence c
    let c ← takeKeyword c .endK
    match name with
    | some name => return (.store name (.func params body), c)
    | none => return (.func params body, c)
  | .block, c => do
    let (label, c) ← takeName? c
    let c ← takeKeyword c .doK
    let (body, c) ← self .sequence c
    return (.block label body, ← takeKeyword c .endK)
  | .parameters seen, c =>
    match c.kind with
    | .symbol .closeParen => do return ([], ← advance c)
    | .identifier => do
      let name := c.current.lexeme
      let next ← advance c
      if seen.contains name then fail c (.duplicateParameter name)
      else if next.kind = .symbol .comma then
        let next ← advance next
        let (names, next) ← self (.parameters (name :: seen)) next
        return (name :: names, next)
      else
        return ([name], ← takeSymbol next .closeParen)
    | _ => fail c .expectedParameter

/-- A production at a depth, with its record. -/
def recorded : Nat → (r : Rule) → Cursor → Recorded (r.Result × Cursor)
  | 0, _, c => fail c .tooDeep
  | n + 1, r, c => body (fun q d => .entered ⟨⟨r, c⟩, ⟨q, d⟩⟩ (recorded n q d)) r c

/-- A program, with its record. -/
def recordedProgram (c : Cursor) : Recorded Expr := do
  let c ← .still c.check
  let (tree, c) ← recorded c.depth .sequence c
  if c.kind = .finish then return tree else fail c .expectedEnd

/-! ## 4. Outcomes

A body and its production do the same steps, so for each production the two are taken apart side
by side. Where they look at a token, the case is split on the kind itself: then both take the
branch of that case, and in all cases that are not named they do the same at once. -/

/-- Two runs in a row have the outcomes of two readings in a row. -/
theorem outcome_bind_eq {α β : Type} {x : Recorded α} {y : Read α} {f : α → Recorded β}
    {g : α → Read β} (hx : x.outcome = y) (hf : ∀ a, (f a).outcome = g a) :
    (x >>= f).outcome = y >>= g := by
  rw [Recorded.outcome_bind, hx]
  exact congrArg (y >>= ·) (funext hf)

/-- Whichever of the two words is taken, what comes behind it is the same. -/
theorem outcome_takeThen_bind {α : Type} (c : Cursor) {f : Cursor → Recorded α}
    {g : Cursor → Read α} (hf : ∀ d, (f d).outcome = g d) : (takeThen c >>= f).outcome =
      if c.kind = .keyword .thenK then c.advance >>= g else c.takeKeyword .doK >>= g := by
  unfold takeThen
  split
  · exact outcome_bind_eq rfl hf
  · exact outcome_bind_eq (Recorded.outcome_takeKeyword c .doK) hf

/-- Likewise with the arrow or without it. -/
theorem outcome_takeArrow_bind {α : Type} (c : Cursor) {f : Cursor → Recorded α}
    {g : Cursor → Read α} (hf : ∀ d, (f d).outcome = g d) : (takeArrow c >>= f).outcome =
      if c.kind = .symbol .arrow then c.advance >>= g else g c := by
  unfold takeArrow
  split
  · exact outcome_bind_eq rfl hf
  · exact hf c

section Outcomes

variable {n : Nat} {self : (r : Rule) → Cursor → Recorded (r.Result × Cursor)}
  (h : ∀ r c, (self r c).outcome = r.run n c) (c : Cursor)

include h

/-- A semicolon, the end, or an item in front of either. -/
theorem outcome_statements : (body self .statements c).outcome = Parser.statements (n + 1) c := by
  rw [Parser.statements]
  dsimp only [body]
  split
  · exact outcome_bind_eq rfl fun _ => h _ _
  split
  · rfl
  refine outcome_bind_eq (h _ _) fun found => ?_
  obtain ⟨item, d⟩ := found
  dsimp only
  split
  · exact outcome_bind_eq rfl fun _ => outcome_bind_eq (h _ _) fun _ => rfl
  · rfl

/-- What stands in front of the arrow decides how an assignment goes on. -/
theorem outcome_expression : (body self .expression c).outcome = Parser.expression (n + 1) c := by
  rw [Parser.expression]
  refine outcome_bind_eq (h _ _) fun found => ?_
  obtain ⟨target, d⟩ := found
  dsimp only
  cases d.kind with
  | symbol s =>
    cases s with
    | store =>
      refine outcome_bind_eq rfl fun next => ?_
      cases target with
      | var name pos => exact outcome_bind_eq (h _ _) fun _ => rfl
      | _ => rfl
    | update =>
      refine outcome_bind_eq rfl fun next => ?_
      cases target with
      | var name pos => exact outcome_bind_eq (h _ _) fun _ => rfl
      | apply callee args pos =>
        cases callee with
        | primitive p =>
          cases p with
          | get =>
            -- an element is looked up with the collection and the index
            rcases args with _ | ⟨collection, _ | ⟨index, _ | ⟨_, _⟩⟩⟩
            · rfl
            · rfl
            · exact outcome_bind_eq (h _ _) fun _ => rfl
            · rfl
          | _ => rfl
        | _ => rfl
      | _ => rfl
    | _ => rfl
  | _ => rfl

theorem outcome_disjunctionRest (left : Expr) :
    (body self (.disjunctionRest left) c).outcome = Parser.disjunctionRest (n + 1) left c := by
  rw [Parser.disjunctionRest]
  dsimp only [body]
  split
  · exact outcome_bind_eq rfl fun _ => outcome_bind_eq (h _ _) fun _ => h _ _
  · rfl

theorem outcome_conjunctionRest (left : Expr) :
    (body self (.conjunctionRest left) c).outcome = Parser.conjunctionRest (n + 1) left c := by
  rw [Parser.conjunctionRest]
  dsimp only [body]
  split
  · exact outcome_bind_eq rfl fun _ => outcome_bind_eq (h _ _) fun _ => h _ _
  · rfl

/-- An operator is looked for by its kind, so the case is whether one is found. -/
theorem outcome_comparison : (body self .comparison c).outcome = Parser.comparison (n + 1) c := by
  rw [Parser.comparison]
  refine outcome_bind_eq (h _ _) fun found => ?_
  obtain ⟨left, d⟩ := found
  dsimp only
  cases d.kind.comparison? with
  | some op => exact outcome_bind_eq rfl fun _ => outcome_bind_eq (h _ _) fun _ => rfl
  | none => rfl

theorem outcome_sum : (body self .sum c).outcome = Parser.sum (n + 1) c := by
  rw [Parser.sum]
  dsimp only [body]
  cases c.kind.sign? with
  | some op => exact outcome_bind_eq rfl fun _ => outcome_bind_eq (h _ _) fun _ => h _ _
  | none => exact outcome_bind_eq (h _ _) fun _ => h _ _

theorem outcome_sumRest (left : Expr) :
    (body self (.sumRest left) c).outcome = Parser.sumRest (n + 1) left c := by
  rw [Parser.sumRest]
  dsimp only [body]
  cases c.kind.sum? with
  | some op => exact outcome_bind_eq rfl fun _ => outcome_bind_eq (h _ _) fun _ => h _ _
  | none => rfl

theorem outcome_productRest (left : Expr) :
    (body self (.productRest left) c).outcome = Parser.productRest (n + 1) left c := by
  rw [Parser.productRest]
  dsimp only [body]
  cases c.kind.product? with
  | some op => exact outcome_bind_eq rfl fun _ => outcome_bind_eq (h _ _) fun _ => h _ _
  | none => rfl

theorem outcome_power : (body self .power c).outcome = Parser.power (n + 1) c := by
  rw [Parser.power]
  refine outcome_bind_eq (h _ _) fun found => ?_
  obtain ⟨base, d⟩ := found
  dsimp only
  split
  · exact outcome_bind_eq rfl fun _ => outcome_bind_eq (h _ _) fun _ => rfl
  · rfl

/-- Either bracket goes on with the loop, and everything else leaves it. -/
theorem outcome_termRest (head : Expr) :
    (body self (.termRest head) c).outcome = Parser.termRest (n + 1) head c := by
  rw [Parser.termRest]
  dsimp only [body]
  cases c.kind with
  | symbol s =>
    cases s with
    | openParen => exact outcome_bind_eq rfl fun _ => outcome_bind_eq (h _ _) fun _ => h _ _
    | openBracket =>
      exact outcome_bind_eq rfl fun _ => outcome_bind_eq (h _ _) fun _ =>
        outcome_bind_eq (Recorded.outcome_takeSymbol _ _) fun _ => h _ _
    | _ => rfl
  | _ => rfl

/-- The closing bracket, or an element in front of it or of a comma. -/
theorem outcome_list (close : Symbol) :
    (body self (.list close) c).outcome = Parser.list (n + 1) close c := by
  rw [Parser.list]
  dsimp only [body]
  split
  · rfl
  refine outcome_bind_eq (h _ _) fun found => ?_
  obtain ⟨item, d⟩ := found
  dsimp only
  split
  · exact outcome_bind_eq rfl fun _ => outcome_bind_eq (h _ _) fun _ => rfl
  · exact outcome_bind_eq (Recorded.outcome_takeSymbol _ _) fun _ => rfl

/-- The token that a primary begins with decides which one it is. -/
theorem outcome_primary : (body self .primary c).outcome = Parser.primary (n + 1) c := by
  rw [Parser.primary]
  dsimp only [body]
  cases c.kind with
  | symbol s =>
    cases s with
    | not => exact outcome_bind_eq rfl fun _ => outcome_bind_eq (h _ _) fun _ => rfl
    | openParen =>
      exact outcome_bind_eq rfl fun _ => outcome_bind_eq (h _ _) fun _ =>
        outcome_bind_eq (Recorded.outcome_takeSymbol _ _) fun _ => rfl
    | openBracket => exact outcome_bind_eq rfl fun _ => outcome_bind_eq (h _ _) fun _ => rfl
    | _ => rfl
  | keyword k =>
    cases k with
    | ifK =>
      exact outcome_bind_eq rfl fun _ => outcome_bind_eq (h _ _) fun _ =>
        outcome_bind_eq (Recorded.outcome_takeKeyword _ _) fun _ => rfl
    | whileK | funK | blockK => exact outcome_bind_eq rfl fun _ => h _ _
    | _ => rfl
  | _ => rfl

/-- Either word may stand behind the condition, and what comes behind both is the same. -/
theorem outcome_conditional :
    (body self .conditional c).outcome = Parser.conditional (n + 1) c := by
  rw [Parser.conditional]
  refine outcome_bind_eq (h _ _) fun found => ?_
  obtain ⟨condition, d⟩ := found
  dsimp only
  refine outcome_takeThen_bind d fun e => ?_
  refine outcome_bind_eq (h _ _) fun found => ?_
  obtain ⟨consequent, f⟩ := found
  dsimp only
  cases f.kind with
  | keyword k =>
    cases k with
    | elifK | elseK => exact outcome_bind_eq rfl fun _ => outcome_bind_eq (h _ _) fun _ => rfl
    | _ => rfl
  | _ => rfl

theorem outcome_loop : (body self .loop c).outcome = Parser.loop (n + 1) c := by
  rw [Parser.loop]
  refine outcome_bind_eq (h _ _) fun found => ?_
  obtain ⟨condition, d⟩ := found
  dsimp only
  split
  · exact outcome_bind_eq rfl fun _ => outcome_bind_eq (h _ _) fun _ =>
      outcome_bind_eq (Recorded.outcome_takeKeyword _ _) fun _ => rfl
  · exact outcome_bind_eq (Recorded.outcome_takeKeyword _ _) fun _ => rfl

/-- Without a name the function is the tree, with one it is stored. -/
theorem outcome_function : (body self .function c).outcome = Parser.function (n + 1) c := by
  rw [Parser.function]
  refine outcome_bind_eq (Recorded.outcome_takeName? _) fun found => ?_
  obtain ⟨name, d⟩ := found
  refine outcome_bind_eq (Recorded.outcome_takeSymbol _ _) fun e => ?_
  refine outcome_bind_eq (h _ _) fun found => ?_
  obtain ⟨params, f⟩ := found
  dsimp only
  refine outcome_takeArrow_bind f fun g => ?_
  refine outcome_bind_eq (h _ _) fun found => ?_
  obtain ⟨tree, d⟩ := found
  refine outcome_bind_eq (Recorded.outcome_takeKeyword _ _) fun e => ?_
  cases name with
  | some name => rfl
  | none => rfl

theorem outcome_block : (body self .block c).outcome = Parser.block (n + 1) c := by
  rw [Parser.block]
  exact outcome_bind_eq (Recorded.outcome_takeName? _) fun _ =>
    outcome_bind_eq (Recorded.outcome_takeKeyword _ _) fun _ => outcome_bind_eq (h _ _) fun _ =>
      outcome_bind_eq (Recorded.outcome_takeKeyword _ _) fun _ => rfl

/-- A name that was seen before is an error, and both sides look for that first. -/
theorem outcome_parameters (seen : List String) :
    (body self (.parameters seen) c).outcome = Parser.parameters (n + 1) seen c := by
  rw [Parser.parameters]
  dsimp only [body]
  cases c.kind with
  | symbol s =>
    cases s with
    | closeParen => rfl
    | _ => rfl
  | identifier =>
    refine outcome_bind_eq rfl fun next => ?_
    split
    · rfl
    split
    · exact outcome_bind_eq rfl fun _ => outcome_bind_eq (h _ _) fun _ => rfl
    · exact outcome_bind_eq (Recorded.outcome_takeSymbol _ _) fun _ => rfl
  | _ => rfl

/-- The outcome of a body is the outcome of the production one level deeper. -/
theorem outcome_body (r : Rule) : (body self r c).outcome = r.run (n + 1) c := by
  cases r with
  | sequence =>
    rw [Rule.run, Parser.sequence]
    exact outcome_bind_eq (h _ _) fun _ => rfl
  | statements => exact outcome_statements h c
  | expression => exact outcome_expression h c
  | disjunction | conjunction | product | term =>
    simp only [Rule.run, Parser.disjunction, Parser.conjunction, Parser.product, Parser.term]
    exact outcome_bind_eq (h _ _) fun _ => h _ _
  | disjunctionRest left => exact outcome_disjunctionRest h c left
  | conjunctionRest left => exact outcome_conjunctionRest h c left
  | comparison => exact outcome_comparison h c
  | sum => exact outcome_sum h c
  | sumRest left => exact outcome_sumRest h c left
  | productRest left => exact outcome_productRest h c left
  | power => exact outcome_power h c
  | termRest head => exact outcome_termRest h c head
  | list close => exact outcome_list h c close
  | primary => exact outcome_primary h c
  | conditional => exact outcome_conditional h c
  | loop => exact outcome_loop h c
  | function => exact outcome_function h c
  | block => exact outcome_block h c
  | parameters seen => exact outcome_parameters h c seen

end Outcomes

/-- **Recording changes no outcome.** By induction on the depth, which is the same on both sides. -/
theorem outcome_recorded (n : Nat) (r : Rule) (c : Cursor) :
    (recorded n r c).outcome = r.run n c := by
  induction n generalizing r c with
  | zero => cases r <;> rfl
  | succ n ih =>
    refine outcome_body ?_ c r
    exact fun q d => ih q d

theorem outcome_recordedProgram (c : Cursor) : (recordedProgram c).outcome = program c := by
  refine outcome_bind_eq rfl fun c => ?_
  refine outcome_bind_eq (outcome_recorded _ .sequence _) fun found => ?_
  obtain ⟨tree, d⟩ := found
  dsimp only
  split <;> rfl

end CalcScript.Parser

/-
`Proofs/Relocation.lean` -- places in a program decide nothing.

The parser copies the places of tokens into its trees and into its errors, and never
looks at them. So reading tokens that stand elsewhere gives the same tree or the same
problem, with the places moved alike: every production commutes with `relocate`, for
any function on places (`Parser.Commutes`). With the function that forgets a place this
says that the tree, but for its places, depends on nothing but the words read
(`Parser.program_of_words`).

Places enter with the scanner. A text that stands some lines further down has the same
tokens, as many lines further down (`scanFrom_down`).
-/
import CalcScript.Expr.Parser

set_option autoImplicit false

namespace CalcScript

/-! ## 1. Moving things to other places -/

/-- The token somewhere else. -/
def Token.relocate (f : Position → Position) (t : Token) : Token := { t with pos := f t.pos }

mutual

/-- The tree with all its places moved. -/
def Expr.relocate (f : Position → Position) : Expr → Expr
  | .literal l => .literal l
  | .primitive p => .primitive p
  | .array items => .array (relocateAll f items)
  | .var name pos => .var name (f pos)
  | .store name value => .store name (value.relocate f)
  | .update name value pos => .update name (value.relocate f) (f pos)
  | .seq first rest => .seq (first.relocate f) (rest.relocate f)
  | .and left right => .and (left.relocate f) (right.relocate f)
  | .or left right => .or (left.relocate f) (right.relocate f)
  | .cond condition consequent alternate =>
    .cond (condition.relocate f) (consequent.relocate f) (alternate.relocate f)
  | .loop condition body => .loop (condition.relocate f) (body.relocate f)
  | .func params body => .func params (body.relocate f)
  | .apply callee args pos => .apply (callee.relocate f) (relocateAll f args) (f pos)
  | .block label body => .block label (body.relocate f)

def Expr.relocateAll (f : Position → Position) : List Expr → List Expr
  | [] => []
  | e :: es => e.relocate f :: relocateAll f es

end

namespace Expr

variable {f : Position → Position}

theorem relocateAll_eq_map (f : Position → Position) (es : List Expr) :
    relocateAll f es = es.map (relocate f) := by
  induction es with
  | nil => rfl
  | cons e es ih => rw [relocateAll, ih, List.map_cons]

/-- Sequences have no places of their own. -/
theorem relocate_ofSequence (f : Position → Position) (es : List Expr) :
    (ofSequence es).relocate f = ofSequence (es.map (relocate f)) := by
  fun_induction ofSequence es with
  | case1 => rfl
  | case2 e => rfl
  | case3 e es hne ih =>
    cases es with
    | nil => exact absurd rfl hne
    | cons e' es => rw [relocate, ih]; rfl

/-- Only a variable becomes a variable. -/
theorem relocate_eq_var {e : Expr} {name : String} {pos : Position}
    (h : e.relocate f = .var name pos) : ∃ p, e = .var name p ∧ pos = f p := by
  cases e <;> simp only [relocate, reduceCtorEq] at h
  obtain ⟨rfl, rfl⟩ := var.inj h
  exact ⟨_, rfl, rfl⟩

/-- Only the application of a primitive becomes one. -/
theorem relocate_eq_index {e collection index : Expr} {pos : Position}
    (h : e.relocate f = .apply (.primitive .get) [collection, index] pos) :
    ∃ c i p, e = .apply (.primitive .get) [c, i] p ∧ collection = c.relocate f ∧
      index = i.relocate f ∧ pos = f p := by
  cases e <;> simp only [relocate, reduceCtorEq] at h
  obtain ⟨hcallee, hargs, rfl⟩ := apply.inj h
  next callee args p =>
  cases callee <;> simp only [relocate, reduceCtorEq, primitive.injEq] at hcallee
  subst hcallee
  rw [relocateAll_eq_map] at hargs
  obtain ⟨c, tail, rfl, rfl, htail⟩ := List.map_eq_cons_iff.mp hargs
  obtain ⟨i, last, rfl, rfl, hlast⟩ := List.map_eq_cons_iff.mp htail
  rw [List.map_eq_nil_iff.mp hlast]
  exact ⟨c, i, p, rfl, rfl, rfl, rfl⟩

/-- The tree without its places. -/
def bare (e : Expr) : Expr := e.relocate fun _ => .start

end Expr

mutual

/-- Moved twice is moved once, by both functions. -/
theorem Expr.relocate_relocate (f g : Position → Position) :
    ∀ e : Expr, (e.relocate f).relocate g = e.relocate fun p => g (f p)
  | .literal _ | .primitive _ | .var _ _ => rfl
  | .array items => by simp only [relocate, relocateAll_relocateAll f g items]
  | .store _ value => by simp only [relocate, value.relocate_relocate f g]
  | .update _ value _ => by simp only [relocate, value.relocate_relocate f g]
  | .seq first rest => by
    simp only [relocate, first.relocate_relocate f g, rest.relocate_relocate f g]
  | .and left right => by
    simp only [relocate, left.relocate_relocate f g, right.relocate_relocate f g]
  | .or left right => by
    simp only [relocate, left.relocate_relocate f g, right.relocate_relocate f g]
  | .cond condition consequent alternate => by
    simp only [relocate, condition.relocate_relocate f g, consequent.relocate_relocate f g,
      alternate.relocate_relocate f g]
  | .loop condition body => by
    simp only [relocate, condition.relocate_relocate f g, body.relocate_relocate f g]
  | .func _ body => by simp only [relocate, body.relocate_relocate f g]
  | .apply callee args _ => by
    simp only [relocate, callee.relocate_relocate f g, relocateAll_relocateAll f g args]
  | .block _ body => by simp only [relocate, body.relocate_relocate f g]

theorem Expr.relocateAll_relocateAll (f g : Position → Position) :
    ∀ es : List Expr, relocateAll g (relocateAll f es) = relocateAll (fun p => g (f p)) es
  | [] => rfl
  | e :: es => by
    simp only [relocateAll, e.relocate_relocate f g, relocateAll_relocateAll f g es]

end

mutual

theorem Expr.relocate_id : ∀ e : Expr, e.relocate id = e
  | .literal _ | .primitive _ | .var _ _ => rfl
  | .array items => by simp only [relocate, relocateAll_id items]
  | .store _ value => by simp only [relocate, value.relocate_id]
  | .update _ value _ => by simp only [relocate, value.relocate_id, id_eq]
  | .seq first rest => by simp only [relocate, first.relocate_id, rest.relocate_id]
  | .and left right => by simp only [relocate, left.relocate_id, right.relocate_id]
  | .or left right => by simp only [relocate, left.relocate_id, right.relocate_id]
  | .cond condition consequent alternate => by
    simp only [relocate, condition.relocate_id, consequent.relocate_id, alternate.relocate_id]
  | .loop condition body => by simp only [relocate, condition.relocate_id, body.relocate_id]
  | .func _ body => by simp only [relocate, body.relocate_id]
  | .apply callee args _ => by
    simp only [relocate, callee.relocate_id, relocateAll_id args, id_eq]
  | .block _ body => by simp only [relocate, body.relocate_id]

theorem Expr.relocateAll_id : ∀ es : List Expr, relocateAll id es = es
  | [] => rfl
  | e :: es => by simp only [relocateAll, e.relocate_id, relocateAll_id es]

end

theorem Expr.bare_bare (e : Expr) : e.bare.bare = e.bare :=
  e.relocate_relocate _ _

namespace Cursor

/-- The cursor with all tokens ahead moved. -/
def relocate (f : Position → Position) (c : Cursor) : Cursor :=
  ⟨c.rest.map (Token.relocate f), f c.finish⟩

variable (f : Position → Position) (c : Cursor)

/-- At the end both cursors stand on an end of input, the second one on the moved one. -/
theorem current_relocate : (c.relocate f).current = c.current.relocate f := by
  obtain ⟨rest, finish⟩ := c
  cases rest <;> rfl

@[simp] theorem kind_relocate : (c.relocate f).kind = c.kind := by
  rw [kind, current_relocate]
  rfl

@[simp] theorem lexeme_relocate : (c.relocate f).current.lexeme = c.current.lexeme := by
  rw [current_relocate]
  rfl

@[simp] theorem pos_relocate : (c.relocate f).pos = f c.pos := by
  rw [pos, current_relocate]
  rfl

@[simp] theorem atSequenceEnd_relocate : (c.relocate f).atSequenceEnd = c.atSequenceEnd := by
  rw [atSequenceEnd, atSequenceEnd, kind_relocate]

/-- The depth to read with is counted in tokens, so both read with the same one. -/
@[simp] theorem depth_relocate : (c.relocate f).depth = c.depth := by
  simp [depth, relocate]

end Cursor

/-! ## 2. Reading at other places -/

namespace Parser

/-- What was read, moved: a problem to its new place, a result by `g`. -/
def moved {α : Type} (f : Position → Position) (g : α → α) : Read α → Read α
  | .ok a => .ok (g a)
  | .error e => .error ⟨e.problem, f e.pos⟩

section Moved

variable {α β : Type} {f : Position → Position} {g : α → α} {h : β → β}

/-- Two readings in two steps are alike if their steps are. All productions go through this. -/
theorem bind_moved {x x' : Read α} {k k' : α → Read β} (hx : x' = moved f g x)
    (hk : ∀ a, k' (g a) = moved f h (k a)) : x' >>= k' = moved f h (x >>= k) := by
  rw [hx]
  cases x with
  | ok a => exact hk a
  | error e => rfl

end Moved

variable (f : Position → Position)

/-- The problem stays, its place moves: every failure is at the place of the cursor. -/
theorem fail_relocate {α : Type} (g : α → α) (c : Cursor) (problem : Problem) :
    (c.relocate f).fail problem = moved f g (c.fail problem) := by
  rw [Cursor.fail, c.pos_relocate]
  rfl

theorem check_relocate (c : Cursor) :
    (c.relocate f).check = moved f (Cursor.relocate f) c.check := by
  rw [Cursor.check, Cursor.check, c.kind_relocate]
  split
  · exact fail_relocate f _ c _
  · rfl

theorem advance_relocate (c : Cursor) :
    (c.relocate f).advance = moved f (Cursor.relocate f) c.advance := by
  have hnext : { c.relocate f with rest := (c.relocate f).rest.tail } =
      Cursor.relocate f { c with rest := c.rest.tail } := by
    simp [Cursor.relocate, List.map_tail]
  rw [Cursor.advance, hnext]
  exact check_relocate f _

theorem takeSymbol_relocate (c : Cursor) (s : Symbol) :
    (c.relocate f).takeSymbol s = moved f (Cursor.relocate f) (c.takeSymbol s) := by
  rw [Cursor.takeSymbol, Cursor.takeSymbol, c.kind_relocate]
  split
  · exact advance_relocate f c
  · exact fail_relocate f _ c _

theorem takeKeyword_relocate (c : Cursor) (k : Keyword) :
    (c.relocate f).takeKeyword k = moved f (Cursor.relocate f) (c.takeKeyword k) := by
  rw [Cursor.takeKeyword, Cursor.takeKeyword, c.kind_relocate]
  split
  · exact advance_relocate f c
  · exact fail_relocate f _ c _

theorem takeName?_relocate (c : Cursor) :
    (c.relocate f).takeName? = moved f (Prod.map id (Cursor.relocate f)) c.takeName? := by
  rw [Cursor.takeName?, Cursor.takeName?, c.kind_relocate, c.lexeme_relocate]
  split
  · exact bind_moved (advance_relocate f c) fun _ => rfl
  · rfl

/-- The induction is on the depth. Only the names among the parameters decide, by their spelling. -/
theorem parameters_relocate (n : Nat) (seen : List String) (c : Cursor) :
    parameters n seen (c.relocate f) =
      moved f (Prod.map id (Cursor.relocate f)) (parameters n seen c) := by
  induction n generalizing seen c with
  | zero => exact fail_relocate f _ c _
  | succ n ih =>
    rw [parameters, parameters, c.kind_relocate, c.lexeme_relocate]
    split
    · exact bind_moved (advance_relocate f c) fun _ => rfl
    · -- whether a name has been there does not depend on where it stands
      refine bind_moved (advance_relocate f c) fun c₁ => ?_
      split
      · exact fail_relocate f _ c _
      rw [c₁.kind_relocate]
      split
      · exact bind_moved (advance_relocate f c₁) fun c₂ => bind_moved (ih _ c₂) fun _ => rfl
      · exact bind_moved (takeSymbol_relocate f c₁ _) fun _ => rfl
    · exact fail_relocate f _ c _

/-! ## 3. The productions -/

/-- A tree that was read, with the cursor behind it, moved. -/
abbrev movedTree : Read (Expr × Cursor) → Read (Expr × Cursor) :=
  moved f (Prod.map (Expr.relocate f) (Cursor.relocate f))

/-- Trees that were read, with the cursor behind them, moved. -/
abbrev movedTrees : Read (List Expr × Cursor) → Read (List Expr × Cursor) :=
  moved f (Prod.map (Expr.relocateAll f) (Cursor.relocate f))

/-- All productions of a given depth commute with moving. -/
structure Commutes (n : Nat) : Prop where
  sequence (c : Cursor) : sequence n (c.relocate f) = movedTree f (sequence n c)
  statements (c : Cursor) : statements n (c.relocate f) = movedTrees f (statements n c)
  expression (c : Cursor) : expression n (c.relocate f) = movedTree f (expression n c)
  disjunction (c : Cursor) : disjunction n (c.relocate f) = movedTree f (disjunction n c)
  disjunctionRest (left : Expr) (c : Cursor) :
    disjunctionRest n (left.relocate f) (c.relocate f) = movedTree f (disjunctionRest n left c)
  conjunction (c : Cursor) : conjunction n (c.relocate f) = movedTree f (conjunction n c)
  conjunctionRest (left : Expr) (c : Cursor) :
    conjunctionRest n (left.relocate f) (c.relocate f) = movedTree f (conjunctionRest n left c)
  comparison (c : Cursor) : comparison n (c.relocate f) = movedTree f (comparison n c)
  sum (c : Cursor) : sum n (c.relocate f) = movedTree f (sum n c)
  sumRest (left : Expr) (c : Cursor) :
    sumRest n (left.relocate f) (c.relocate f) = movedTree f (sumRest n left c)
  product (c : Cursor) : product n (c.relocate f) = movedTree f (product n c)
  productRest (left : Expr) (c : Cursor) :
    productRest n (left.relocate f) (c.relocate f) = movedTree f (productRest n left c)
  power (c : Cursor) : power n (c.relocate f) = movedTree f (power n c)
  term (c : Cursor) : term n (c.relocate f) = movedTree f (term n c)
  termRest (head : Expr) (c : Cursor) :
    termRest n (head.relocate f) (c.relocate f) = movedTree f (termRest n head c)
  list (close : Symbol) (c : Cursor) :
    list n close (c.relocate f) = movedTrees f (list n close c)
  primary (c : Cursor) : primary n (c.relocate f) = movedTree f (primary n c)
  conditional (c : Cursor) : conditional n (c.relocate f) = movedTree f (conditional n c)
  loop (c : Cursor) : loop n (c.relocate f) = movedTree f (loop n c)
  function (c : Cursor) : function n (c.relocate f) = movedTree f (function n c)
  block (c : Cursor) : block n (c.relocate f) = movedTree f (block n c)

/-- Without depth all productions fail, at the cursor. -/
theorem commutes_zero : Commutes f 0 := by
  constructor
  all_goals
    intros
    exact fail_relocate f _ _ _

namespace Commutes

variable {f} {n : Nat}

theorem sequence_succ (ih : Commutes f n) (c : Cursor) :
    Parser.sequence (n + 1) (c.relocate f) = movedTree f (Parser.sequence (n + 1) c) := by
  rw [Parser.sequence, Parser.sequence]
  refine bind_moved (ih.statements c) fun ⟨items, c₁⟩ => ?_
  dsimp only [Prod.map]
  rw [Expr.relocateAll_eq_map, ← Expr.relocate_ofSequence]
  rfl

theorem statements_succ (ih : Commutes f n) (c : Cursor) :
    Parser.statements (n + 1) (c.relocate f) = movedTrees f (Parser.statements (n + 1) c) := by
  rw [Parser.statements, Parser.statements, c.kind_relocate, c.atSequenceEnd_relocate]
  split
  · exact bind_moved (advance_relocate f c) fun c₁ => ih.statements c₁
  split
  · rfl
  refine bind_moved (ih.expression c) fun ⟨item, c₁⟩ => ?_
  dsimp only [Prod.map]
  rw [c₁.kind_relocate]
  split
  · exact bind_moved (advance_relocate f c₁) fun c₂ =>
      bind_moved (ih.statements c₂) fun _ => rfl
  · rfl

/-- Which target stands before an assignment is seen from the tree without its places. -/
theorem expression_succ (ih : Commutes f n) (c : Cursor) :
    Parser.expression (n + 1) (c.relocate f) = movedTree f (Parser.expression (n + 1) c) := by
  rw [Parser.expression, Parser.expression]
  refine bind_moved (ih.disjunction c) fun ⟨target, c₁⟩ => ?_
  dsimp only [Prod.map]
  rw [c₁.kind_relocate]
  split
  · refine bind_moved (advance_relocate f c₁) fun c₂ => ?_
    split
    · -- the moved target is a variable only if the target is one
      next name pos htarget =>
      obtain ⟨p, rfl, -⟩ := Expr.relocate_eq_var htarget
      exact bind_moved (ih.disjunction c₂) fun _ => rfl
    · next hvar =>
      split
      · exact absurd rfl (hvar _ _)
      · exact fail_relocate f _ c₁ _
  · refine bind_moved (advance_relocate f c₁) fun c₂ => ?_
    split
    · next name pos htarget =>
      obtain ⟨p, rfl, rfl⟩ := Expr.relocate_eq_var htarget
      exact bind_moved (ih.disjunction c₂) fun _ => rfl
    · next collection index pos htarget =>
      obtain ⟨i, k, p, rfl, rfl, rfl, rfl⟩ := Expr.relocate_eq_index htarget
      exact bind_moved (ih.disjunction c₂) fun _ => rfl
    · next hvar hindex =>
      split
      · exact absurd rfl (hvar _ _)
      · exact absurd rfl (hindex _ _ _)
      · exact fail_relocate f _ c₁ _
  · rfl

theorem disjunction_succ (ih : Commutes f n) (c : Cursor) :
    Parser.disjunction (n + 1) (c.relocate f) = movedTree f (Parser.disjunction (n + 1) c) := by
  rw [Parser.disjunction, Parser.disjunction]
  exact bind_moved (ih.conjunction c) fun ⟨left, c₁⟩ => ih.disjunctionRest left c₁

theorem disjunctionRest_succ (ih : Commutes f n) (left : Expr) (c : Cursor) :
    Parser.disjunctionRest (n + 1) (left.relocate f) (c.relocate f) =
      movedTree f (Parser.disjunctionRest (n + 1) left c) := by
  rw [Parser.disjunctionRest, Parser.disjunctionRest, c.kind_relocate]
  split
  · exact bind_moved (advance_relocate f c) fun c₁ =>
      bind_moved (ih.conjunction c₁) fun ⟨right, c₂⟩ => ih.disjunctionRest (.or left right) c₂
  · rfl

theorem conjunction_succ (ih : Commutes f n) (c : Cursor) :
    Parser.conjunction (n + 1) (c.relocate f) = movedTree f (Parser.conjunction (n + 1) c) := by
  rw [Parser.conjunction, Parser.conjunction]
  exact bind_moved (ih.comparison c) fun ⟨left, c₁⟩ => ih.conjunctionRest left c₁

theorem conjunctionRest_succ (ih : Commutes f n) (left : Expr) (c : Cursor) :
    Parser.conjunctionRest (n + 1) (left.relocate f) (c.relocate f) =
      movedTree f (Parser.conjunctionRest (n + 1) left c) := by
  rw [Parser.conjunctionRest, Parser.conjunctionRest, c.kind_relocate]
  split
  · exact bind_moved (advance_relocate f c) fun c₁ =>
      bind_moved (ih.comparison c₁) fun ⟨right, c₂⟩ => ih.conjunctionRest (.and left right) c₂
  · rfl

theorem comparison_succ (ih : Commutes f n) (c : Cursor) :
    Parser.comparison (n + 1) (c.relocate f) = movedTree f (Parser.comparison (n + 1) c) := by
  rw [Parser.comparison, Parser.comparison]
  refine bind_moved (ih.sum c) fun ⟨left, c₁⟩ => ?_
  dsimp only [Prod.map]
  rw [c₁.kind_relocate, c₁.pos_relocate]
  split
  · exact bind_moved (advance_relocate f c₁) fun c₂ => bind_moved (ih.sum c₂) fun _ => rfl
  · rfl

theorem sum_succ (ih : Commutes f n) (c : Cursor) :
    Parser.sum (n + 1) (c.relocate f) = movedTree f (Parser.sum (n + 1) c) := by
  rw [Parser.sum, Parser.sum, c.kind_relocate, c.pos_relocate]
  split
  · next op _ =>
    exact bind_moved (advance_relocate f c) fun c₁ =>
      bind_moved (ih.product c₁) fun ⟨operand, c₂⟩ =>
        ih.sumRest (.apply (.primitive op) [operand] c.pos) c₂
  · exact bind_moved (ih.product c) fun ⟨left, c₁⟩ => ih.sumRest left c₁

theorem sumRest_succ (ih : Commutes f n) (left : Expr) (c : Cursor) :
    Parser.sumRest (n + 1) (left.relocate f) (c.relocate f) =
      movedTree f (Parser.sumRest (n + 1) left c) := by
  rw [Parser.sumRest, Parser.sumRest, c.kind_relocate, c.pos_relocate]
  split
  · next op _ =>
    exact bind_moved (advance_relocate f c) fun c₁ =>
      bind_moved (ih.product c₁) fun ⟨right, c₂⟩ =>
        ih.sumRest (.apply (.primitive op) [left, right] c.pos) c₂
  · rfl

theorem product_succ (ih : Commutes f n) (c : Cursor) :
    Parser.product (n + 1) (c.relocate f) = movedTree f (Parser.product (n + 1) c) := by
  rw [Parser.product, Parser.product]
  exact bind_moved (ih.power c) fun ⟨left, c₁⟩ => ih.productRest left c₁

theorem productRest_succ (ih : Commutes f n) (left : Expr) (c : Cursor) :
    Parser.productRest (n + 1) (left.relocate f) (c.relocate f) =
      movedTree f (Parser.productRest (n + 1) left c) := by
  rw [Parser.productRest, Parser.productRest, c.kind_relocate, c.pos_relocate]
  split
  · next op _ =>
    exact bind_moved (advance_relocate f c) fun c₁ =>
      bind_moved (ih.power c₁) fun ⟨right, c₂⟩ =>
        ih.productRest (.apply (.primitive op) [left, right] c.pos) c₂
  · rfl

theorem power_succ (ih : Commutes f n) (c : Cursor) :
    Parser.power (n + 1) (c.relocate f) = movedTree f (Parser.power (n + 1) c) := by
  rw [Parser.power, Parser.power]
  refine bind_moved (ih.term c) fun ⟨base, c₁⟩ => ?_
  dsimp only [Prod.map]
  rw [c₁.kind_relocate, c₁.pos_relocate]
  split
  · exact bind_moved (advance_relocate f c₁) fun c₂ => bind_moved (ih.power c₂) fun _ => rfl
  · rfl

theorem term_succ (ih : Commutes f n) (c : Cursor) :
    Parser.term (n + 1) (c.relocate f) = movedTree f (Parser.term (n + 1) c) := by
  rw [Parser.term, Parser.term]
  exact bind_moved (ih.primary c) fun ⟨head, c₁⟩ => ih.termRest head c₁

/-- An application is given the place of its parenthesis or bracket, which has moved. -/
theorem termRest_succ (ih : Commutes f n) (head : Expr) (c : Cursor) :
    Parser.termRest (n + 1) (head.relocate f) (c.relocate f) =
      movedTree f (Parser.termRest (n + 1) head c) := by
  rw [Parser.termRest, Parser.termRest, c.kind_relocate, c.pos_relocate]
  split
  · exact bind_moved (advance_relocate f c) fun c₁ =>
      bind_moved (ih.list _ c₁) fun ⟨args, c₂⟩ => ih.termRest (.apply head args c.pos) c₂
  · exact bind_moved (advance_relocate f c) fun c₁ =>
      bind_moved (ih.expression c₁) fun ⟨index, c₂⟩ =>
        bind_moved (takeSymbol_relocate f c₂ _) fun c₃ =>
          ih.termRest (.apply (.primitive .get) [head, index] c.pos) c₃
  · rfl

theorem list_succ (ih : Commutes f n) (close : Symbol) (c : Cursor) :
    Parser.list (n + 1) close (c.relocate f) = movedTrees f (Parser.list (n + 1) close c) := by
  rw [Parser.list, Parser.list, c.kind_relocate]
  split
  · exact bind_moved (advance_relocate f c) fun _ => rfl
  refine bind_moved (ih.expression c) fun ⟨item, c₁⟩ => ?_
  dsimp only [Prod.map]
  rw [c₁.kind_relocate]
  split
  · exact bind_moved (advance_relocate f c₁) fun c₂ =>
      bind_moved (ih.list close c₂) fun _ => rfl
  · exact bind_moved (takeSymbol_relocate f c₁ _) fun _ => rfl

/-- The cases are those of the token in front, which is the same kind of token in both readings. -/
theorem primary_succ (ih : Commutes f n) (c : Cursor) :
    Parser.primary (n + 1) (c.relocate f) = movedTree f (Parser.primary (n + 1) c) := by
  rw [Parser.primary, Parser.primary, c.kind_relocate, c.pos_relocate, c.lexeme_relocate]
  split
  case h_1 | h_2 | h_3 | h_7 | h_8 | h_9 =>
    exact bind_moved (advance_relocate f c) fun _ => rfl
  case h_4 =>
    exact bind_moved (advance_relocate f c) fun c₁ => bind_moved (ih.term c₁) fun _ => rfl
  case h_5 =>
    exact bind_moved (advance_relocate f c) fun c₁ => bind_moved (ih.sequence c₁) fun ⟨_, c₂⟩ =>
      bind_moved (takeSymbol_relocate f c₂ _) fun _ => rfl
  case h_6 =>
    exact bind_moved (advance_relocate f c) fun c₁ => bind_moved (ih.list _ c₁) fun _ => rfl
  case h_10 =>
    exact bind_moved (advance_relocate f c) fun c₁ => bind_moved (ih.conditional c₁) fun ⟨_, c₂⟩ =>
      bind_moved (takeKeyword_relocate f c₂ _) fun _ => rfl
  case h_11 => exact bind_moved (advance_relocate f c) fun c₁ => ih.loop c₁
  case h_12 => exact bind_moved (advance_relocate f c) fun c₁ => ih.function c₁
  case h_13 => exact bind_moved (advance_relocate f c) fun c₁ => ih.block c₁
  case h_14 => exact fail_relocate f _ c _

/-- The branches behind the word that ends a condition. -/
theorem branches (ih : Commutes f n) (condition : Expr) (c : Cursor) :
    (Parser.sequence n (c.relocate f) >>= fun (consequent, c) =>
      match c.kind with
      | .keyword .elifK => c.advance >>= fun c => Parser.conditional n c >>= fun (alternate, c) =>
        pure (.cond (condition.relocate f) consequent alternate, c)
      | .keyword .elseK => c.advance >>= fun c => Parser.sequence n c >>= fun (alternate, c) =>
        pure (.cond (condition.relocate f) consequent alternate, c)
      | _ => pure (.cond (condition.relocate f) consequent .null, c)) =
    movedTree f (Parser.sequence n c >>= fun (consequent, c) =>
      match c.kind with
      | .keyword .elifK => c.advance >>= fun c => Parser.conditional n c >>= fun (alternate, c) =>
        pure (.cond condition consequent alternate, c)
      | .keyword .elseK => c.advance >>= fun c => Parser.sequence n c >>= fun (alternate, c) =>
        pure (.cond condition consequent alternate, c)
      | _ => pure (.cond condition consequent .null, c)) := by
  refine bind_moved (ih.sequence c) fun ⟨consequent, c₁⟩ => ?_
  dsimp only [Prod.map]
  rw [c₁.kind_relocate]
  split
  · exact bind_moved (advance_relocate f c₁) fun c₂ =>
      bind_moved (ih.conditional c₂) fun _ => rfl
  · exact bind_moved (advance_relocate f c₁) fun c₂ => bind_moved (ih.sequence c₂) fun _ => rfl
  · rfl

theorem conditional_succ (ih : Commutes f n) (c : Cursor) :
    Parser.conditional (n + 1) (c.relocate f) = movedTree f (Parser.conditional (n + 1) c) := by
  rw [Parser.conditional, Parser.conditional]
  refine bind_moved (ih.sequence c) fun ⟨condition, c₁⟩ => ?_
  dsimp only [Prod.map]
  rw [c₁.kind_relocate]
  split
  · exact bind_moved (advance_relocate f c₁) fun c₂ => ih.branches condition c₂
  · exact bind_moved (takeKeyword_relocate f c₁ _) fun c₂ => ih.branches condition c₂

theorem loop_succ (ih : Commutes f n) (c : Cursor) :
    Parser.loop (n + 1) (c.relocate f) = movedTree f (Parser.loop (n + 1) c) := by
  rw [Parser.loop, Parser.loop]
  refine bind_moved (ih.sequence c) fun ⟨condition, c₁⟩ => ?_
  dsimp only [Prod.map]
  rw [c₁.kind_relocate]
  split
  · exact bind_moved (advance_relocate f c₁) fun c₂ => bind_moved (ih.sequence c₂) fun ⟨_, c₃⟩ =>
      bind_moved (takeKeyword_relocate f c₃ _) fun _ => rfl
  · exact bind_moved (takeKeyword_relocate f c₁ _) fun _ => rfl

/-- The body behind the parameters of a function. -/
theorem body (ih : Commutes f n) (name : Option String) (params : List String) (c : Cursor) :
    (Parser.sequence n (c.relocate f) >>= fun (body, c) => c.takeKeyword .endK >>= fun c =>
      match name with
      | some name => pure (.store name (.func params body), c)
      | none => pure (.func params body, c)) =
    movedTree f (Parser.sequence n c >>= fun (body, c) => c.takeKeyword .endK >>= fun c =>
      match name with
      | some name => pure (.store name (.func params body), c)
      | none => pure (.func params body, c)) := by
  refine bind_moved (ih.sequence c) fun ⟨body, c₁⟩ =>
    bind_moved (takeKeyword_relocate f c₁ _) fun c₂ => ?_
  cases name <;> rfl

theorem function_succ (ih : Commutes f n) (c : Cursor) :
    Parser.function (n + 1) (c.relocate f) = movedTree f (Parser.function (n + 1) c) := by
  rw [Parser.function, Parser.function]
  refine bind_moved (takeName?_relocate f c) fun ⟨name, c₁⟩ =>
    bind_moved (takeSymbol_relocate f c₁ _) fun c₂ =>
      bind_moved (parameters_relocate f n [] c₂) fun ⟨params, c₃⟩ => ?_
  dsimp only [Prod.map, id]
  rw [c₃.kind_relocate]
  split
  · exact bind_moved (advance_relocate f c₃) fun c₄ => ih.body name params c₄
  · exact ih.body name params c₃

theorem block_succ (ih : Commutes f n) (c : Cursor) :
    Parser.block (n + 1) (c.relocate f) = movedTree f (Parser.block (n + 1) c) := by
  rw [Parser.block, Parser.block]
  exact bind_moved (takeName?_relocate f c) fun ⟨_, c₁⟩ =>
    bind_moved (takeKeyword_relocate f c₁ _) fun c₂ => bind_moved (ih.sequence c₂) fun ⟨_, c₃⟩ =>
      bind_moved (takeKeyword_relocate f c₃ _) fun _ => rfl

end Commutes

/-- Whatever the depth, reading commutes with moving. -/
theorem commutes (n : Nat) : Commutes f n := by
  induction n with
  | zero => exact commutes_zero f
  | succ n ih =>
    exact
      { sequence := ih.sequence_succ
        statements := ih.statements_succ
        expression := ih.expression_succ
        disjunction := ih.disjunction_succ
        disjunctionRest := ih.disjunctionRest_succ
        conjunction := ih.conjunction_succ
        conjunctionRest := ih.conjunctionRest_succ
        comparison := ih.comparison_succ
        sum := ih.sum_succ
        sumRest := ih.sumRest_succ
        product := ih.product_succ
        productRest := ih.productRest_succ
        power := ih.power_succ
        term := ih.term_succ
        termRest := ih.termRest_succ
        list := ih.list_succ
        primary := ih.primary_succ
        conditional := ih.conditional_succ
        loop := ih.loop_succ
        function := ih.function_succ
        block := ih.block_succ }

/-- A program at other places is the same program, at these places. -/
theorem program_relocate (c : Cursor) :
    program (c.relocate f) = moved f (Expr.relocate f) (program c) := by
  rw [program, program]
  refine bind_moved (check_relocate f c) fun c₁ => ?_
  rw [c₁.depth_relocate]
  refine bind_moved ((commutes f _).sequence c₁) fun ⟨tree, c₂⟩ => ?_
  dsimp only [Prod.map]
  rw [c₂.kind_relocate]
  split
  · rfl
  · exact fail_relocate f _ c₂ _

end Parser

/-! ## 4. Words without places -/

/-- What a token says, wherever it stands. -/
def Token.word (t : Token) : Token.Kind × String := (t.kind, t.lexeme)

theorem Token.relocate_start_eq {t t' : Token} (h : t.word = t'.word) :
    (t.relocate fun _ => .start) = t'.relocate fun _ => .start := by
  obtain ⟨hkind, hlexeme⟩ := Prod.mk.inj h
  rw [relocate, relocate, hkind, hlexeme]

/-- Tokens with the same words are the same but for their places. -/
theorem Token.map_relocate_start_eq {ts ts' : List Token}
    (h : ts.map Token.word = ts'.map Token.word) :
    (ts.map (relocate fun _ => .start)) = ts'.map (relocate fun _ => .start) := by
  induction ts generalizing ts' with
  | nil =>
    cases ts' with
    | nil => rfl
    | cons t' ts' => cases h
  | cons t ts ih =>
    cases ts' with
    | nil => cases h
    | cons t' ts' =>
      obtain ⟨hhead, htail⟩ := List.cons.inj h
      rw [List.map_cons, List.map_cons, relocate_start_eq hhead, ih htail]

namespace Parser

/-- What programs of the same words are read as: the same but for places. -/
theorem moved_program_of_words {c c' : Cursor}
    (h : c.rest.map Token.word = c'.rest.map Token.word) :
    moved (fun _ => .start) Expr.bare (program c) =
      moved (fun _ => .start) Expr.bare (program c') := by
  -- with all places the same, tokens with the same words are the same tokens
  have hbare : (c.relocate fun _ => .start) = c'.relocate fun _ => .start := by
    rw [Cursor.relocate, Cursor.relocate, Token.map_relocate_start_eq h]
  have hc := program_relocate (fun _ => .start) c
  rw [hbare, program_relocate] at hc
  exact hc.symm

/-- A program of the same words as one that is accepted is accepted too, with the same
tree but for the places. -/
theorem program_of_words {c c' : Cursor} {e : Expr}
    (h : c.rest.map Token.word = c'.rest.map Token.word) (he : program c = .ok e) :
    ∃ e', program c' = .ok e' ∧ e'.bare = e.bare := by
  have hmoved := moved_program_of_words h
  rw [he] at hmoved
  cases hc' : program c' with
  | ok e' =>
    rw [hc'] at hmoved
    exact ⟨e', rfl, (Except.ok.inj hmoved).symm⟩
  | error err =>
    rw [hc'] at hmoved
    cases hmoved

end Parser

/-! ## 5. Texts further down -/

/-- The place so many lines further down. -/
def Position.down (lines : Nat) (p : Position) : Position := ⟨p.line + lines, p.col⟩

/-- The column does not depend on the line. -/
theorem Position.after_down (lines : Nat) (p : Position) (c : Char) :
    (p.down lines).after c = (p.after c).down lines := by
  unfold after
  split
  · simp only [down, Position.mk.injEq, and_true]
    omega
  · rfl

/-- A text further down has its tokens further down. -/
theorem scanFrom_down (lines : Nat) (pos : Position) (skip : Nat) (cs : List Char) :
    scanFrom (pos.down lines) skip cs =
      ⟨(scanFrom pos skip cs).tokens.map (Token.relocate (Position.down lines)),
        (scanFrom pos skip cs).finish.down lines⟩ := by
  fun_induction scanFrom pos skip cs with
  | case1 pos skip => rw [scanFrom]; rfl
  | case2 pos skip c cs ih => rw [scanFrom, Position.after_down, ih]
  | case3 pos c cs piece hkind ih =>
    rw [scanFrom]
    simp only [piece] at hkind ih
    simp only [hkind]
    rw [Position.after_down, ih]
  | case4 pos c cs piece kind hkind ih =>
    rw [scanFrom]
    simp only [piece] at hkind ih
    simp only [hkind]
    rw [Position.after_down, ih]
    rfl

end CalcScript

/-
`Proofs/WrittenCalls.lean` -- which applications are written as calls.

Operators, signs, indices and calls all become applications in a tree. Those of the first three
kinds apply a primitive. All others are calls, and a call is written with parentheses: its
application has the place of the opening one, with the callee in front of it and the arguments
behind (`Grammar.WrittenCall`). The proof is an induction over derivations.
-/
import CalcScript.Proofs.Grammar
import CalcScript.Proofs.Regions

set_option autoImplicit false

namespace CalcScript

open Grammar

/-! ## 1. Trees with their calls among the tokens -/

/-- The application is written as a call among the tokens: its callee, then an opening
parenthesis at the given place, its arguments and a closing parenthesis. -/
def Grammar.WrittenCall (tokens : List Token) (callee : Expr) (args : List Expr) (pos : Position) :
    Prop :=
  ∃ ts t us close, ts ++ t :: (us ++ [close]) <:+: tokens ∧ Derives (.operand callee) ts ∧
    t.kind = .symbol .openParen ∧ t.pos = pos ∧ Derives (.list args) us ∧
    close.kind = .symbol .closeParen

def Expr.isApplication : Expr → Bool
  | .apply .. => true
  | _ => false

/-- All applications in the tree are written as calls, apart from those of primitives. -/
def Expr.CallsWritten (tokens : List Token) (e : Expr) : Prop :=
  ∀ callee args pos, e.Contains (.apply callee args pos) → (∀ p, callee ≠ .primitive p) →
    WrittenCall tokens callee args pos

namespace Expr.CallsWritten

variable {tokens : List Token} {e left right : Expr} {es : List Expr}

/-- A node that is no application only passes on what its parts have. -/
theorem of_children (hroot : e.isApplication = false)
    (h : ∀ child ∈ e.children, child.CallsWritten tokens) : e.CallsWritten tokens := by
  intro callee args pos hcontains hcallee
  rcases Relation.ReflTransGen.cases_head hcontains with rfl | ⟨child, hchild, hcontains⟩
  · cases hroot
  · exact h child hchild callee args pos hcontains hcallee

theorem leaf (hroot : e.isApplication = false) (h : e.children = []) : e.CallsWritten tokens :=
  of_children hroot (h ▸ List.forall_mem_nil _)

theorem child (h : e.CallsWritten tokens) {part : Expr} (hpart : part ∈ e.children) :
    part.CallsWritten tokens := fun callee args pos hcontains =>
  h callee args pos (.head hpart hcontains)

theorem operator {p : Primitive} {pos : Position} (h : ∀ e ∈ es, e.CallsWritten tokens) :
    (Expr.apply (.primitive p) es pos).CallsWritten tokens := by
  intro callee args pos hcontains hcallee
  rcases Relation.ReflTransGen.cases_head hcontains with heq | ⟨child, hchild, hcontains⟩
  · cases heq
    exact absurd rfl (hcallee p)
  · rcases List.mem_cons.mp hchild with rfl | hchild
    · exact leaf rfl rfl callee args pos hcontains hcallee
    · exact h child hchild callee args pos hcontains hcallee

theorem unary {p : Primitive} {pos : Position} (he : e.CallsWritten tokens) :
    (Expr.apply (.primitive p) [e] pos).CallsWritten tokens :=
  operator (List.forall_mem_singleton.mpr he)

theorem binary {p : Primitive} {pos : Position} (hleft : left.CallsWritten tokens)
    (hright : right.CallsWritten tokens) :
    (Expr.apply (.primitive p) [left, right] pos).CallsWritten tokens :=
  operator (List.forall_mem_cons.mpr ⟨hleft, List.forall_mem_singleton.mpr hright⟩)

theorem ofSequence (h : ∀ e ∈ es, e.CallsWritten tokens) :
    (Expr.ofSequence es).CallsWritten tokens := by
  fun_induction Expr.ofSequence es with
  | case1 => exact leaf rfl rfl
  | case2 e => exact h e List.mem_cons_self
  | case3 e es _ ih =>
    obtain ⟨he, hes⟩ := List.forall_mem_cons.mp h
    exact of_children rfl (List.forall_mem_cons.mpr ⟨he, List.forall_mem_singleton.mpr (ih hes)⟩)

end Expr.CallsWritten

/-! ## 2. Derivations -/

/-- All trees of the phrase have their calls among the tokens. -/
def Grammar.Phrase.CallsWritten (tokens : List Token) : Phrase → Prop
  | .items es | .list es => ∀ e ∈ es, e.CallsWritten tokens
  | .sequence e | .expression e | .disjunction e | .conjunction e | .comparison e | .sum e
  | .product e | .power e | .term e | .operand e | .primary e | .branches e =>
    e.CallsWritten tokens

/-- Both parts beside a separator stand among the tokens. -/
theorem isInfix_sides {tokens ts us : List Token} {t : Token} (h : ts ++ t :: us <:+: tokens) :
    ts <:+: tokens ∧ us <:+: tokens :=
  ⟨(List.prefix_append ts _).isInfix.trans h,
    ((List.suffix_cons t us).trans (List.suffix_append ts _)).isInfix.trans h⟩

theorem isInfix_tail {tokens ts : List Token} {t : Token} (h : t :: ts <:+: tokens) :
    ts <:+: tokens :=
  (List.suffix_cons t ts).isInfix.trans h

/-- **Calls are written with parentheses**, wherever a phrase stands among the tokens. The
induction is over the derivation; only its rule for calls makes an application of something
that is no primitive. -/
theorem Grammar.Derives.callsWritten {phrase : Phrase} {ts tokens : List Token}
    (h : Derives phrase ts) (hts : ts <:+: tokens) : phrase.CallsWritten tokens := by
  have hnull : Expr.null.CallsWritten tokens := .leaf rfl rfl
  induction h with
  | sequence _ ih => exact .ofSequence (ih hts)
  | noItem | noElement => exact List.forall_mem_nil _
  | semicolon _ _ ih => exact ih (isInfix_tail hts)
  | lastItem _ ih | lastElement _ ih => exact List.forall_mem_singleton.mpr (ih hts)
  | item _ _ _ ihe ihes | element _ _ _ ihe ihes =>
    obtain ⟨hleft, hright⟩ := isInfix_sides hts
    exact List.forall_mem_cons.mpr ⟨ihe hleft, ihes hright⟩
  | expression _ ih | disjunction _ ih | conjunction _ ih | comparison _ ih | sum _ ih
  | product _ ih | power _ ih | term _ ih | operand _ ih => exact ih hts
  | store _ _ _ _ ihvalue | update _ _ _ _ ihvalue =>
    have hvalue := ihvalue (isInfix_sides hts).2
    exact .of_children rfl (List.forall_mem_singleton.mpr hvalue)
  | replace _ _ _ ihtarget ihvalue =>
    -- the operands of the element that was read become those of its replacement
    obtain ⟨hleft, hright⟩ := isInfix_sides hts
    refine .operator fun e he => ?_
    rcases List.mem_cons.mp he with rfl | he
    · exact (ihtarget hleft).child (by simp [Expr.children])
    · rcases List.mem_cons.mp he with rfl | he
      · exact (ihtarget hleft).child (by simp [Expr.children])
      · rw [List.mem_singleton.mp he]
        exact ihvalue hright
  | or _ _ _ ihleft ihright | and _ _ _ ihleft ihright =>
    obtain ⟨hleft, hright⟩ := isInfix_sides hts
    refine .of_children rfl (List.forall_mem_cons.mpr ⟨ihleft hleft, ?_⟩)
    exact List.forall_mem_singleton.mpr (ihright hright)
  | compare _ _ _ ihleft ihright | add _ _ _ ihleft ihright | multiply _ _ _ ihleft ihright
  | raise _ _ _ ihleft ihright =>
    obtain ⟨hleft, hright⟩ := isInfix_sides hts
    exact .binary (ihleft hleft) (ihright hright)
  | signed _ _ ih | not _ _ ih => exact .unary (ih (isInfix_tail hts))
  | @call callee us t args vs close hcallee ht hargs hclose ihcallee ihargs =>
    obtain ⟨hleft, hright⟩ := isInfix_sides hts
    intro callee' args' pos hcontains hne
    -- the application is this call itself, or is in its callee or in an argument
    rcases Relation.ReflTransGen.cases_head hcontains with heq | ⟨child, hchild, hinner⟩
    · cases heq
      exact ⟨us, t, vs, close, hts, hcallee, ht, rfl, hargs, hclose⟩
    · rcases List.mem_cons.mp hchild with rfl | hchild
      · exact ihcallee hleft callee' args' pos hinner hne
      · exact ihargs (isInfix_sides hright).1 child hchild callee' args' pos hinner hne
  | index _ _ _ _ ihcollection ihindex =>
    obtain ⟨hleft, hright⟩ := isInfix_sides hts
    exact .binary (ihcollection hleft) (ihindex (isInfix_sides hright).1)
  | number _ | str _ | true _ | false _ | var _ => exact .leaf rfl rfl
  | null _ => exact hnull
  | parentheses _ _ _ ih | cond _ _ _ ih => exact ih (isInfix_sides (isInfix_tail hts)).1
  | array _ _ _ ih => exact .of_children rfl (ih (isInfix_sides (isInfix_tail hts)).1)
  | emptyLoop _ _ _ ih =>
    have hcondition := ih (isInfix_sides (isInfix_tail hts)).1
    exact .of_children rfl
      (List.forall_mem_cons.mpr ⟨hcondition, List.forall_mem_singleton.mpr hnull⟩)
  | loop _ _ _ _ _ ihcondition ihbody =>
    obtain ⟨hcondition, hbody⟩ := isInfix_sides (isInfix_tail hts)
    refine .of_children rfl (List.forall_mem_cons.mpr ⟨ihcondition hcondition, ?_⟩)
    exact List.forall_mem_singleton.mpr (ihbody (isInfix_sides hbody).1)
  | @func _ name _ _ params _ _ _ body _ _ _ _ _ _ _ _ _ _ _ ih =>
    obtain ⟨-, hrest⟩ := isInfix_sides (isInfix_tail hts)
    obtain ⟨-, hrest⟩ := isInfix_sides hrest
    have hbody := ih (isInfix_sides ((List.suffix_append _ _).isInfix.trans hrest)).1
    have hfunc : Expr.CallsWritten tokens (.func params body) :=
      .of_children rfl (List.forall_mem_singleton.mpr hbody)
    cases name with
    | none => exact hfunc
    | some name => exact .of_children rfl (List.forall_mem_singleton.mpr hfunc)
  | block _ _ _ _ _ ih =>
    obtain ⟨-, hrest⟩ := isInfix_sides (isInfix_tail hts)
    have hbody := ih (isInfix_sides hrest).1
    exact .of_children rfl (List.forall_mem_singleton.mpr hbody)
  | oneBranch _ _ _ ihcondition ihconsequent =>
    obtain ⟨hleft, hright⟩ := isInfix_sides hts
    refine .of_children rfl (List.forall_mem_cons.mpr ⟨ihcondition hleft, ?_⟩)
    exact List.forall_mem_cons.mpr ⟨ihconsequent hright, List.forall_mem_singleton.mpr hnull⟩
  | elseBranch _ _ _ _ _ ihcondition ihconsequent ihalternate
  | elifBranch _ _ _ _ _ ihcondition ihconsequent ihalternate =>
    obtain ⟨hleft, hright⟩ := isInfix_sides hts
    obtain ⟨hmiddle, hright⟩ := isInfix_sides hright
    refine .of_children rfl (List.forall_mem_cons.mpr ⟨ihcondition hleft, ?_⟩)
    exact List.forall_mem_cons.mpr
      ⟨ihconsequent hmiddle, List.forall_mem_singleton.mpr (ihalternate hright)⟩

end CalcScript

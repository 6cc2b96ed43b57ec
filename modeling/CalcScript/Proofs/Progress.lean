/-
`Proofs/Progress.lean` -- the parser gets ahead.

Where one production calls another, either fewer tokens are ahead than where the first one was
called, or they are the same and the second one binds more tightly (`Site.Below`). There is no
endless chain of such calls, and none that is as long as the depth that a program is read with.

The record of a run (`Proofs/ParserRecord`) shows all calls. `Recorded.Runs` says that they go
down, that the tokens taken are those between the two cursors, and how many calls there are for
them. It is proved for each production from the steps that it is made of, by one rule for each
kind of step.
-/
import CalcScript.Proofs.Lookahead
import CalcScript.Proofs.ParserRecord
import Mathlib.Tactic.NormNum

set_option autoImplicit false

namespace CalcScript

namespace Parser

/-! ## 1. Going down -/

/-- How tightly a production binds. A production that begins with another one is looser. -/
def Rule.level : Rule → ℕ
  | .conditional | .loop | .function | .block => 0
  | .sequence => 1
  | .statements | .list _ => 2
  | .expression => 3
  | .disjunction => 4
  | .conjunction | .disjunctionRest _ => 5
  | .comparison | .conjunctionRest _ => 6
  | .sum => 7
  | .product | .sumRest _ => 8
  | .power | .productRest _ => 9
  | .term => 10
  | .primary | .termRest _ => 11
  | .parameters _ => 12

namespace Site

/-- Fewer tokens are ahead, or the same ones and the production is tighter. -/
def Below (s t : Site) : Prop :=
  s.cursor.rest.length < t.cursor.rest.length ∨
    s.cursor = t.cursor ∧ t.rule.level < s.rule.level

variable {q r : Rule} {c d : Cursor}

/-- A production that has taken a token may call any other one. -/
theorem below_of_length (h : d.rest.length < c.rest.length) : Below ⟨q, d⟩ ⟨r, c⟩ := .inl h

/-- Where nothing has been taken yet, only a tighter production may be called. -/
theorem below_of_level (h : r.level < q.level) : Below ⟨q, c⟩ ⟨r, c⟩ := .inr ⟨rfl, h⟩

/-- How many calls can be open below a site. -/
def height (s : Site) : ℕ := 16 * s.cursor.rest.length + (15 - s.rule.level)

theorem level_le (r : Rule) : r.level ≤ 12 := by
  cases r <;> simp [Rule.level]

/-- Sixteen is more than there are levels, so one token outweighs them all. -/
theorem Below.height_lt {s t : Site} (h : Below s t) : s.height < t.height := by
  have hs := level_le s.rule
  have ht := level_le t.rule
  unfold height
  rcases h with hfewer | ⟨hsame, htighter⟩
  · omega
  · rw [hsame]
    omega

/-- The calls go down in height, so no chain of them is endless. -/
theorem wellFounded_below : WellFounded Below :=
  Subrelation.wf (fun h => h.height_lt) (measure height).wf

end Site

/-! ## 2. What a run of a production is like -/

namespace Rule

/-- The least number of tokens that a production takes. -/
def least : Rule → ℕ
  | sequence | statements | disjunctionRest _ | conjunctionRest _ | sumRest _ | productRest _
  | termRest _ => 0
  | _ => 1

/-- The calls under a production that succeeds are sixteen for each token taken, and these. -/
def surplus : Rule → ℤ
  | sequence => 1
  | statements | disjunctionRest _ | conjunctionRest _ | sumRest _ | productRest _
  | termRest _ => 0
  | expression => -3
  | disjunction => -4
  | conjunction => -6
  | comparison => -8
  | sum => -9
  | product => -11
  | power => -13
  | term => -14
  | conditional => -12
  | loop => -14
  | primary | list _ | function | block | parameters _ => -16

/-- The calls under a production that fails are sixteen for each token ahead, and these. -/
def excess : Rule → ℤ
  | conditional | loop => 11
  | sequence => 10
  | statements | list _ => 9
  | expression => 8
  | disjunction => 7
  | conjunction => 6
  | comparison => 5
  | sum => 4
  | product => 3
  | power => 2
  | term => 1
  | _ => 0

end Rule

namespace Recorded

variable {α β : Type}

/-- What is recorded of two runs is recorded of the first one and then of the second. -/
theorem bind_of_ok {x : Recorded α} {a : α} (h : x.outcome = .ok a) (f : α → Recorded β) :
    x >>= f = ⟨x.calls ++ (f a).calls, x.taken ++ (f a).taken, (f a).outcome⟩ := by
  show Recorded.bind x f = _
  simp only [Recorded.bind, h]
  rfl

/-- Behind a failure nothing is recorded any more. -/
theorem bind_of_error {x : Recorded α} {e : ParseError} (h : x.outcome = .error e)
    (f : α → Recorded β) : x >>= f = ⟨x.calls, x.taken, .error e⟩ := by
  show Recorded.bind x f = _
  simp only [Recorded.bind, h, List.append_nil]
  rfl

/-- A run from `c` to the place that it returns. All calls go down. A run that succeeds has
taken the tokens up to that place, and `least` of them at least. The calls are bounded in the
tokens; and if the depth was enough, the run does not fail for the lack of it. -/
structure Runs (enough : Prop) (c : Cursor) (place : α → Cursor) (least : ℕ)
    (surplus excess : ℤ) (x : Recorded α) : Prop where
  below : ∀ call ∈ x.calls, call.callee.Below call.caller
  ok : ∀ a, x.outcome = .ok a → c = (place a).before x.taken ∧ least ≤ x.taken.length ∧
    (x.calls.length : ℤ) ≤ 16 * x.taken.length + surplus
  error : ∀ e, x.outcome = .error e → (x.calls.length : ℤ) ≤ 16 * c.rest.length + excess ∧
    (enough → e.problem ≠ .tooDeep)

namespace Runs

variable {enough : Prop} {c : Cursor} {place : α → Cursor} {there : β → Cursor}
  {least least' : ℕ} {surplus surplus' excess excess' : ℤ} {x : Recorded α}

/-- Bounds may be made looser. -/
theorem mono (h : Runs enough c place least surplus excess x) (hleast : least' ≤ least)
    (hsurplus : surplus ≤ surplus') (hexcess : excess ≤ excess') :
    Runs enough c place least' surplus' excess' x := by
  refine ⟨h.below, fun a ha => ?_, fun e he => ?_⟩
  · obtain ⟨hc, htaken, hcalls⟩ := h.ok a ha
    exact ⟨hc, hleast.trans htaken, by omega⟩
  · obtain ⟨hcalls, hdeep⟩ := h.error e he
    exact ⟨by omega, hdeep⟩

theorem of_enough (h : Runs enough c place least surplus excess x) (henough : enough) :
    Runs True c place least surplus excess x :=
  ⟨h.below, h.ok, fun e he => ⟨(h.error e he).1, fun _ => (h.error e he).2 henough⟩⟩

protected theorem pure {a : α} (hc : place a = c) (hsurplus : 0 ≤ surplus) :
    Runs enough c place 0 surplus excess (pure a) := by
  refine ⟨List.forall_mem_nil _, ?_, nofun⟩
  rintro b ⟨⟩
  refine ⟨hc.symm, le_rfl, ?_⟩
  show (0 : ℤ) ≤ 16 * 0 + surplus
  omega

/-- A run may fail at any cursor. -/
theorem fail {problem : Problem} (d : Cursor) (hproblem : problem ≠ .tooDeep)
    (hexcess : 0 ≤ excess) : Runs enough c place least surplus excess (fail d problem) := by
  refine ⟨List.forall_mem_nil _, nofun, ?_⟩
  rintro e ⟨⟩
  refine ⟨?_, fun _ => hproblem⟩
  show (0 : ℤ) ≤ _
  omega

/-- One run after another. What the first one has used up the second one cannot use. -/
theorem bind_before {f : α → Recorded β} {first : ℕ} {cost excess₁ : ℤ}
    (hx : Runs enough c place first cost excess₁ x)
    (hf : ∀ a, c = (place a).before x.taken → first ≤ x.taken.length →
      Runs enough (place a) there (least - first) (surplus - cost) (excess - cost) (f a))
    (hexcess : excess₁ ≤ excess) :
    Runs enough c there least surplus excess (x >>= f) := by
  cases hrun : x.outcome with
  | error e =>
    -- the second run does not take place
    obtain ⟨hcalls, hdeep⟩ := hx.error e hrun
    rw [bind_of_error hrun]
    refine ⟨hx.below, nofun, ?_⟩
    rintro e' ⟨⟩
    exact ⟨by dsimp only; omega, hdeep⟩
  | ok a =>
    obtain ⟨hc, hfirst, hcalls⟩ := hx.ok a hrun
    -- the tokens ahead of the second run are those that the first one has left
    have hlength := congrArg List.length (congrArg Cursor.rest hc)
    rw [Cursor.before, List.length_append] at hlength
    have hrest := hf a hc hfirst
    rw [bind_of_ok hrun]
    refine ⟨?_, fun b hb => ?_, fun e he => ?_⟩
    · exact List.forall_mem_append.mpr ⟨hx.below, hrest.below⟩
    · obtain ⟨hplace, hleast, hcalls'⟩ := hrest.ok b hb
      refine ⟨?_, ?_, ?_⟩
      · rw [Cursor.before_append, ← hplace]
        exact hc
      · rw [List.length_append]
        omega
      · rw [List.length_append, List.length_append]
        push_cast
        omega
    · obtain ⟨hcalls', hdeep⟩ := hrest.error e he
      refine ⟨?_, hdeep⟩
      rw [List.length_append]
      push_cast
      omega

/-- The second run only has to know how many tokens are gone. -/
theorem bind {f : α → Recorded β} {first : ℕ} {cost excess₁ : ℤ}
    (hx : Runs enough c place first cost excess₁ x)
    (hf : ∀ a, (place a).rest.length + first ≤ c.rest.length →
      Runs enough (place a) there (least - first) (surplus - cost) (excess - cost) (f a))
    (hexcess : excess₁ ≤ excess) :
    Runs enough c there least surplus excess (x >>= f) := by
  refine hx.bind_before (fun a hc hfirst => hf a ?_) hexcess
  have hlength := congrArg List.length (congrArg Cursor.rest hc)
  rw [Cursor.before, List.length_append] at hlength
  omega

/-- A run that was called. -/
theorem entered {enough' : Prop} {call : Call} (h : Runs enough c place least surplus excess x)
    (hbelow : call.callee.Below call.caller) (henough : enough' → enough) :
    Runs enough' c place least (surplus + 1) (excess + 1) (entered call x) := by
  refine ⟨List.forall_mem_cons.mpr ⟨hbelow, h.below⟩, fun a ha => ?_, fun e he => ?_⟩
  · obtain ⟨hc, hleast, hcalls⟩ := h.ok a ha
    refine ⟨hc, hleast, ?_⟩
    rw [Recorded.entered, List.length_cons]
    push_cast
    omega
  · obtain ⟨hcalls, hdeep⟩ := h.error e he
    refine ⟨?_, fun hn => hdeep (henough hn)⟩
    rw [Recorded.entered, List.length_cons]
    push_cast
    omega

/-! ### Taking tokens -/

/-- A token is taken without any call, so it pays for sixteen of them. -/
theorem advance (h : c.kind ≠ .finish) : Runs enough c id 1 (-16) 0 (advance c) := by
  have htaken : (Recorded.advance c).taken = [c.current] := by
    obtain ⟨rest, finish⟩ := c
    cases rest with
    | nil => exact absurd rfl h
    | cons t ts => rfl
  refine ⟨List.forall_mem_nil _, fun d hd => ?_, fun e he => ?_⟩
  · rw [htaken]
    exact ⟨Cursor.advance_eq_ok hd h, le_rfl, by simp [Recorded.advance]⟩
  · refine ⟨by simp [Recorded.advance], fun _ => ?_⟩
    rcases Tracks.advance_cases h with ⟨y, -, -, hy⟩ | ⟨y, p, -, -, hy⟩
    · rw [outcome_advance, hy] at he
      cases he
    · rw [outcome_advance, hy] at he
      cases he
      exact nofun

theorem takeSymbol (s : Symbol) : Runs enough c id 1 (-16) 0 (takeSymbol c s) := by
  unfold Recorded.takeSymbol
  split
  · next hkind => exact advance (by rw [hkind]; exact nofun)
  · exact fail c nofun le_rfl

theorem takeKeyword (k : Keyword) : Runs enough c id 1 (-16) 0 (takeKeyword c k) := by
  unfold Recorded.takeKeyword
  split
  · next hkind => exact advance (by rw [hkind]; exact nofun)
  · exact fail c nofun le_rfl

/-- The name may be missing, so no token can be counted on. -/
theorem takeName? : Runs enough c Prod.snd 0 0 0 (takeName? c) := by
  unfold Recorded.takeName?
  split
  · next hkind =>
    refine .bind (advance (by rw [hkind]; exact nofun)) (fun d _ => ?_) le_rfl
    exact .pure rfl (by norm_num)
  · exact .pure rfl le_rfl

/-- The first token is looked at only for whether it is malformed. -/
theorem check : Runs enough c id 0 0 0 (still c.check) := by
  refine ⟨List.forall_mem_nil _, fun d hd => ?_, fun e he => ?_⟩
  · exact ⟨(Cursor.check_eq_ok hd).symm, le_rfl, le_rfl⟩
  · refine ⟨by simp [still], fun _ => ?_⟩
    change c.check = _ at he
    unfold Cursor.check at he
    split at he
    · cases he
      exact nofun
    · cases he

/-- Either word is one token. -/
theorem takeThen : Runs enough c id 1 (-16) 0 (takeThen c) := by
  unfold Recorded.takeThen
  split
  · next hkind => exact advance (by rw [hkind]; exact nofun)
  · exact takeKeyword .doK

theorem takeArrow : Runs enough c id 0 0 0 (takeArrow c) := by
  unfold Recorded.takeArrow
  split
  · next hkind => exact (advance (by rw [hkind]; exact nofun)).mono (by decide) (by decide) le_rfl
  · exact .pure rfl le_rfl

end Runs

end Recorded

/-! ## 3. The productions -/

open Recorded (Runs)

/-- A run of the production `r` from `c`. -/
abbrev Rule.Runs (enough : Prop) (r : Rule) (c : Cursor) (x : Recorded (r.Result × Cursor)) :
    Prop :=
  Recorded.Runs enough c Prod.snd r.least r.surplus r.excess x

/-- What a production at the site `s` is told about the runs that it calls. -/
def Serves (enough : Prop) (s : Site)
    (self : (r : Rule) → Cursor → Recorded (r.Result × Cursor)) : Prop :=
  ∀ q d, Site.Below ⟨q, d⟩ s →
    Runs enough d Prod.snd q.least (q.surplus + 1) (q.excess + 1) (self q d)

section Bodies

variable {enough : Prop} {self : (r : Rule) → Cursor → Recorded (r.Result × Cursor)} {c : Cursor}

/-- A token that a production recognises is not the end, so it can be taken. -/
theorem ne_finish {k : Token.Kind} (h : c.kind = k) (hk : k ≠ .finish) : c.kind ≠ .finish := by
  rwa [h]

/-- The items of a sequence begin where it begins. Their production is the tighter one. -/
theorem runs_sequence (h : Serves enough ⟨.sequence, c⟩ self) :
    Rule.Runs enough .sequence c (body self .sequence c) := by
  refine .bind (h .statements c (Site.below_of_level (by decide))) (fun ⟨items, d⟩ _ => ?_)
    (by decide)
  exact .pure rfl (by decide)

/-- A round begins with a semicolon or with an expression, so the next one has fewer tokens ahead.
-/
theorem runs_statements (h : Serves enough ⟨.statements, c⟩ self) :
    Rule.Runs enough .statements c (body self .statements c) := by
  dsimp only [body]
  split
  · next hkind =>
    refine .bind (.advance (ne_finish hkind nofun)) (fun d hd => ?_) (by decide)
    exact (h .statements d (Site.below_of_length hd)).mono (by decide) (by decide) (by decide)
  split
  · exact .pure rfl le_rfl
  refine .bind (h .expression c (Site.below_of_level (by decide))) (fun ⟨item, d⟩ hd => ?_)
    (by decide)
  dsimp only
  split
  · next hkind =>
    refine .bind (.advance (ne_finish hkind nofun)) (fun e he => ?_) (by decide)
    refine .bind (h .statements e (Site.below_of_length (lt_trans he hd)))
      (fun ⟨items, f⟩ _ => ?_) (by decide)
    exact .pure rfl (by decide)
  · exact .pure rfl (by decide)

/-- The value of an assignment is read behind its arrow, whatever stands in front of that. -/
theorem runs_expression (h : Serves enough ⟨.expression, c⟩ self) :
    Rule.Runs enough .expression c (body self .expression c) := by
  refine .bind (h .disjunction c (Site.below_of_level (by decide))) (fun ⟨target, d⟩ hd => ?_)
    (by decide)
  have hvalue : ∀ e : Cursor, e.rest.length + 1 ≤ d.rest.length →
      Runs enough e Prod.snd 1 (-3) 9 (self .disjunction e) := fun e he =>
    (h .disjunction e (Site.below_of_length (lt_trans he hd))).mono (by decide) (by decide)
      (by decide)
  dsimp only
  split
  · next hkind =>
    refine .bind (.advance (ne_finish hkind nofun)) (fun e he => ?_) (by decide)
    split
    · exact .bind (hvalue e he) (fun _ _ => .pure rfl (by decide)) (by decide)
    · exact .fail d nofun (by decide)
  · next hkind =>
    refine .bind (.advance (ne_finish hkind nofun)) (fun e he => ?_) (by decide)
    split
    · exact .bind (hvalue e he) (fun _ _ => .pure rfl (by decide)) (by decide)
    · exact .bind (hvalue e he) (fun _ _ => .pure rfl (by decide)) (by decide)
    · exact .fail d nofun (by decide)
  · exact .pure rfl (by decide)

/-- A production that begins with an operand and hands it on. -/
theorem runs_begun {operand : Recorded (Expr × Cursor)}
    {rest : Expr × Cursor → Recorded (Expr × Cursor)} {surplus excess surplus' excess' : ℤ}
    (hoperand : Runs enough c Prod.snd 1 surplus excess operand)
    (hrest : ∀ left, left.2.rest.length < c.rest.length →
      Runs enough left.2 Prod.snd 0 1 1 (rest left))
    (hsurplus : surplus + 1 ≤ surplus') (hexcess : excess ≤ excess')
    (hroom : surplus + 1 ≤ excess') :
    Runs enough c Prod.snd 1 surplus' excess' (operand >>= rest) := by
  refine .bind hoperand (fun left hleft => ?_) hexcess
  exact (hrest left hleft).mono le_rfl (by omega) (by omega)

/-- Once more around a loop over operators: the operator, an operand, and the next round. -/
theorem runs_continued {operand : Cursor → Recorded (Expr × Cursor)}
    {rest : Expr × Cursor → Recorded (Expr × Cursor)} (hkind : c.kind ≠ .finish)
    (hoperand : ∀ d, d.rest.length < c.rest.length → Runs enough d Prod.snd 1 15 16 (operand d))
    (hrest : ∀ right, right.2.rest.length < c.rest.length →
      Runs enough right.2 Prod.snd 0 1 1 (rest right)) :
    Runs enough c Prod.snd 0 0 0 (Recorded.advance c >>= fun d => operand d >>= rest) := by
  refine .bind (.advance hkind) (fun d hd => ?_) le_rfl
  refine .bind (hoperand d hd) (fun right hright => ?_) (by norm_num)
  exact (hrest right ((Nat.lt_of_succ_le hright).trans hd)).mono le_rfl (by norm_num)
    (by norm_num)

theorem runs_disjunction (h : Serves enough ⟨.disjunction, c⟩ self) :
    Rule.Runs enough .disjunction c (body self .disjunction c) :=
  runs_begun (h .conjunction c (Site.below_of_level (by decide)))
    (fun (left, d) hd => h (.disjunctionRest left) d (Site.below_of_length hd))
    (by decide) (by decide) (by decide)

theorem runs_disjunctionRest (left : Expr) (h : Serves enough ⟨.disjunctionRest left, c⟩ self) :
    Rule.Runs enough (.disjunctionRest left) c (body self (.disjunctionRest left) c) := by
  dsimp only [body]
  split
  · next hkind =>
    refine runs_continued (ne_finish hkind nofun) (fun d hd => ?_) (fun (right, d) hd => ?_)
    · exact (h .conjunction d (Site.below_of_length hd)).mono (by decide) (by decide) (by decide)
    · exact h (.disjunctionRest (.or left right)) d (Site.below_of_length hd)
  · exact .pure rfl le_rfl

theorem runs_conjunction (h : Serves enough ⟨.conjunction, c⟩ self) :
    Rule.Runs enough .conjunction c (body self .conjunction c) :=
  runs_begun (h .comparison c (Site.below_of_level (by decide)))
    (fun (left, d) hd => h (.conjunctionRest left) d (Site.below_of_length hd))
    (by decide) (by decide) (by decide)

theorem runs_conjunctionRest (left : Expr) (h : Serves enough ⟨.conjunctionRest left, c⟩ self) :
    Rule.Runs enough (.conjunctionRest left) c (body self (.conjunctionRest left) c) := by
  dsimp only [body]
  split
  · next hkind =>
    refine runs_continued (ne_finish hkind nofun) (fun d hd => ?_) (fun (right, d) hd => ?_)
    · exact (h .comparison d (Site.below_of_length hd)).mono (by decide) (by decide) (by decide)
    · exact h (.conjunctionRest (.and left right)) d (Site.below_of_length hd)
  · exact .pure rfl le_rfl

/-- Comparisons do not continue each other: there is a second operand, or there is none. -/
theorem runs_comparison (h : Serves enough ⟨.comparison, c⟩ self) :
    Rule.Runs enough .comparison c (body self .comparison c) := by
  refine .bind (h .sum c (Site.below_of_level (by decide))) (fun ⟨left, d⟩ hd => ?_) (by decide)
  dsimp only
  split
  · next op hop =>
    refine .bind (.advance (Cursor.ne_finish_of_some hop rfl)) (fun e he => ?_) (by decide)
    refine .bind (h .sum e (Site.below_of_length (lt_trans he hd))) (fun ⟨right, f⟩ _ => ?_)
      (by decide)
    exact .pure rfl (by decide)
  · exact .pure rfl (by decide)

/-- A sign is a token of its own, in front of the first operand. -/
theorem runs_sum (h : Serves enough ⟨.sum, c⟩ self) :
    Rule.Runs enough .sum c (body self .sum c) := by
  have hrest : ∀ (e : Expr) (d : Cursor), d.rest.length < c.rest.length →
      Runs enough d Prod.snd 0 1 1 (self (.sumRest e) d) := fun e d hd =>
    h (.sumRest e) d (Site.below_of_length hd)
  dsimp only [body]
  split
  · next op hop =>
    refine .bind (.advance (Cursor.ne_finish_of_some hop rfl)) (fun d hd => ?_) (by decide)
    refine .bind (h .product d (Site.below_of_length hd)) (fun ⟨operand, e⟩ he => ?_) (by decide)
    exact (hrest (.apply (.primitive op) [operand] c.pos) e (lt_trans he hd)).mono (by decide)
      (by decide) (by decide)
  · exact runs_begun (h .product c (Site.below_of_level (by decide)))
      (fun (left, d) hd => hrest left d hd) (by decide) (by decide) (by decide)

theorem runs_sumRest (left : Expr) (h : Serves enough ⟨.sumRest left, c⟩ self) :
    Rule.Runs enough (.sumRest left) c (body self (.sumRest left) c) := by
  dsimp only [body]
  split
  · next op hop =>
    refine runs_continued (Cursor.ne_finish_of_some hop rfl) (fun d hd => ?_)
      (fun (right, d) hd => ?_)
    · exact (h .product d (Site.below_of_length hd)).mono (by decide) (by decide) (by decide)
    · exact h (.sumRest _) d (Site.below_of_length hd)
  · exact .pure rfl le_rfl

theorem runs_product (h : Serves enough ⟨.product, c⟩ self) :
    Rule.Runs enough .product c (body self .product c) :=
  runs_begun (h .power c (Site.below_of_level (by decide)))
    (fun (left, d) hd => h (.productRest left) d (Site.below_of_length hd))
    (by decide) (by decide) (by decide)

theorem runs_productRest (left : Expr) (h : Serves enough ⟨.productRest left, c⟩ self) :
    Rule.Runs enough (.productRest left) c (body self (.productRest left) c) := by
  dsimp only [body]
  split
  · next op hop =>
    refine runs_continued (Cursor.ne_finish_of_some hop rfl) (fun d hd => ?_)
      (fun (right, d) hd => ?_)
    · exact (h .power d (Site.below_of_length hd)).mono (by decide) (by decide) (by decide)
    · exact h (.productRest _) d (Site.below_of_length hd)
  · exact .pure rfl le_rfl

theorem runs_power (h : Serves enough ⟨.power, c⟩ self) :
    Rule.Runs enough .power c (body self .power c) := by
  refine .bind (h .term c (Site.below_of_level (by decide))) (fun ⟨base, d⟩ hd => ?_) (by decide)
  dsimp only
  split
  · next hkind =>
    refine .bind (.advance (ne_finish hkind nofun)) (fun e he => ?_) (by decide)
    refine .bind (h .power e (Site.below_of_length (lt_trans he hd))) (fun ⟨exponent, f⟩ _ => ?_)
      (by decide)
    exact .pure rfl (by decide)
  · exact .pure rfl (by decide)

theorem runs_term (h : Serves enough ⟨.term, c⟩ self) :
    Rule.Runs enough .term c (body self .term c) :=
  runs_begun (h .primary c (Site.below_of_level (by decide)))
    (fun (head, d) hd => h (.termRest head) d (Site.below_of_length hd))
    (by decide) (by decide) (by decide)

/-- Each bracket behind a term opens one more round. -/
theorem runs_termRest (head : Expr) (h : Serves enough ⟨.termRest head, c⟩ self) :
    Rule.Runs enough (.termRest head) c (body self (.termRest head) c) := by
  have hrest : ∀ (e : Expr) (d : Cursor), d.rest.length < c.rest.length →
      Runs enough d Prod.snd 0 1 1 (self (.termRest e) d) := fun e d hd =>
    h (.termRest e) d (Site.below_of_length hd)
  show Runs enough c Prod.snd 0 0 0 _
  dsimp only [body]
  split
  · next hkind =>
    refine .bind (.advance (ne_finish hkind nofun)) (fun d hd => ?_) le_rfl
    refine .bind (h (.list .closeParen) d (Site.below_of_length hd)) (fun ⟨args, e⟩ he => ?_)
      (by decide)
    exact (hrest (.apply head args c.pos) e (lt_trans he hd)).mono (by decide) (by decide)
      (by decide)
  · next hkind =>
    refine .bind (.advance (ne_finish hkind nofun)) (fun d hd => ?_) le_rfl
    refine .bind (h .expression d (Site.below_of_length hd)) (fun ⟨index, e⟩ he => ?_) (by decide)
    refine .bind (.takeSymbol .closeBracket) (fun f hf => ?_) (by decide)
    exact (hrest (.apply (.primitive .get) [head, index] c.pos) f
      (lt_trans (lt_trans hf he) hd)).mono (by decide) (by decide) (by decide)
  · exact .pure rfl le_rfl

theorem runs_list (close : Symbol) (h : Serves enough ⟨.list close, c⟩ self) :
    Rule.Runs enough (.list close) c (body self (.list close) c) := by
  show Runs enough c Prod.snd 1 (-16) 9 _
  dsimp only [body]
  split
  · next hkind =>
    refine .bind (.advance (ne_finish hkind nofun)) (fun d _ => ?_) (by decide)
    exact .pure rfl (by decide)
  refine .bind (h .expression c (Site.below_of_level (by simp [Rule.level])))
    (fun ⟨item, d⟩ hd => ?_) (by decide)
  dsimp only
  split
  · next hkind =>
    refine .bind (.advance (ne_finish hkind nofun)) (fun e he => ?_) (by decide)
    have hitems : Runs enough e Prod.snd 1 (-15) 10 (self (.list close) e) :=
      h (.list close) e (Site.below_of_length (lt_trans he hd))
    refine .bind hitems (fun ⟨items, f⟩ _ => ?_) (by decide)
    exact .pure rfl (by decide)
  · refine .bind (.takeSymbol close) (fun e _ => ?_) (by decide)
    exact .pure rfl (by decide)

/-- What follows the first token of a primary may be of any production, since that token is gone. -/
theorem runs_primary (h : Serves enough ⟨.primary, c⟩ self) :
    Rule.Runs enough .primary c (body self .primary c) := by
  -- one token is all
  have htoken : ∀ e : Expr, c.kind ≠ .finish →
      Runs enough c Prod.snd 1 (-16) 0 (Recorded.advance c >>= fun d => pure (e, d)) :=
    fun e hkind => .bind (.advance hkind) (fun d _ => .pure rfl (by decide)) le_rfl
  dsimp only [body]
  split
  · next hkind => exact htoken _ (ne_finish hkind nofun)
  · next hkind => exact htoken _ (ne_finish hkind nofun)
  · next hkind => exact htoken _ (ne_finish hkind nofun)
  · next hkind =>
    refine .bind (.advance (ne_finish hkind nofun)) (fun d hd => ?_) le_rfl
    refine .bind (h .term d (Site.below_of_length hd)) (fun ⟨operand, e⟩ _ => ?_) (by decide)
    exact .pure rfl (by decide)
  · next hkind =>
    refine .bind (.advance (ne_finish hkind nofun)) (fun d hd => ?_) le_rfl
    refine .bind (h .sequence d (Site.below_of_length hd)) (fun ⟨inner, e⟩ _ => ?_) (by decide)
    refine .bind (.takeSymbol .closeParen) (fun f _ => ?_) (by decide)
    exact .pure rfl (by decide)
  · next hkind =>
    refine .bind (.advance (ne_finish hkind nofun)) (fun d hd => ?_) le_rfl
    refine .bind (h (.list .closeBracket) d (Site.below_of_length hd)) (fun ⟨items, e⟩ _ => ?_)
      (by decide)
    exact .pure rfl (by decide)
  · next hkind => exact htoken _ (ne_finish hkind nofun)
  · next hkind => exact htoken _ (ne_finish hkind nofun)
  · next hkind => exact htoken _ (ne_finish hkind nofun)
  · next hkind =>
    refine .bind (.advance (ne_finish hkind nofun)) (fun d hd => ?_) le_rfl
    refine .bind (h .conditional d (Site.below_of_length hd)) (fun ⟨tree, e⟩ _ => ?_) (by decide)
    refine .bind (.takeKeyword .endK) (fun f _ => ?_) (by decide)
    exact .pure rfl (by decide)
  · next hkind =>
    refine .bind (.advance (ne_finish hkind nofun)) (fun d hd => ?_) le_rfl
    exact (h .loop d (Site.below_of_length hd)).mono (by decide) (by decide) (by decide)
  · next hkind =>
    refine .bind (.advance (ne_finish hkind nofun)) (fun d hd => ?_) le_rfl
    exact (h .function d (Site.below_of_length hd)).mono (by decide) (by decide) (by decide)
  · next hkind =>
    refine .bind (.advance (ne_finish hkind nofun)) (fun d hd => ?_) le_rfl
    exact (h .block d (Site.below_of_length hd)).mono (by decide) (by decide) (by decide)
  · exact .fail c nofun le_rfl

/-- An `elif` calls the production that it belongs to, two words further on at least. -/
theorem runs_conditional (h : Serves enough ⟨.conditional, c⟩ self) :
    Rule.Runs enough .conditional c (body self .conditional c) := by
  refine .bind (h .sequence c (Site.below_of_level (by decide))) (fun ⟨condition, d⟩ hd => ?_)
    (by decide)
  refine .bind .takeThen (fun e he => ?_) (by decide)
  -- the word is gone, so both branches have fewer tokens ahead
  have hec : e.rest.length < c.rest.length := lt_of_lt_of_le he hd
  refine .bind (h .sequence e (Site.below_of_length hec)) (fun ⟨consequent, f⟩ hf => ?_)
    (by decide)
  have hfc : f.rest.length < c.rest.length := lt_of_le_of_lt hf hec
  dsimp only
  split
  · next hkind =>
    refine .bind (.advance (ne_finish hkind nofun)) (fun g hg => ?_) (by decide)
    refine .bind (h .conditional g (Site.below_of_length (lt_trans hg hfc)))
      (fun ⟨alternate, k⟩ _ => ?_) (by decide)
    exact .pure rfl (by decide)
  · next hkind =>
    refine .bind (.advance (ne_finish hkind nofun)) (fun g hg => ?_) (by decide)
    refine .bind (h .sequence g (Site.below_of_length (lt_trans hg hfc)))
      (fun ⟨alternate, k⟩ _ => ?_) (by decide)
    exact .pure rfl (by decide)
  · exact .pure rfl (by decide)

theorem runs_loop (h : Serves enough ⟨.loop, c⟩ self) :
    Rule.Runs enough .loop c (body self .loop c) := by
  refine .bind (h .sequence c (Site.below_of_level (by decide))) (fun ⟨condition, d⟩ hd => ?_)
    (by decide)
  dsimp only
  split
  · next hkind =>
    refine .bind (.advance (ne_finish hkind nofun)) (fun e he => ?_) (by decide)
    refine .bind (h .sequence e (Site.below_of_length (lt_of_lt_of_le he hd)))
      (fun ⟨tree, f⟩ _ => ?_) (by decide)
    refine .bind (.takeKeyword .endK) (fun g _ => ?_) (by decide)
    exact .pure rfl (by decide)
  · refine .bind (.takeKeyword .endK) (fun g _ => ?_) (by decide)
    exact .pure rfl (by decide)

/-- The parenthesis in front of the parameters is a token in any case, with or without a name. -/
theorem runs_function (h : Serves enough ⟨.function, c⟩ self) :
    Rule.Runs enough .function c (body self .function c) := by
  refine .bind .takeName? (fun ⟨name, d⟩ hd => ?_) (by decide)
  refine .bind (.takeSymbol .openParen) (fun e he => ?_) (by decide)
  have hec : e.rest.length < c.rest.length := lt_of_lt_of_le he hd
  refine .bind (h (.parameters []) e (Site.below_of_length hec)) (fun ⟨params, f⟩ hf => ?_)
    (by decide)
  refine .bind .takeArrow (fun g hg => ?_) (by decide)
  have hgc : g.rest.length < c.rest.length :=
    lt_of_le_of_lt hg (lt_trans hf hec)
  refine .bind (h .sequence g (Site.below_of_length hgc)) (fun ⟨tree, k⟩ _ => ?_) (by decide)
  refine .bind (.takeKeyword .endK) (fun l _ => ?_) (by decide)
  split <;> exact .pure rfl (by decide)

theorem runs_block (h : Serves enough ⟨.block, c⟩ self) :
    Rule.Runs enough .block c (body self .block c) := by
  refine .bind .takeName? (fun ⟨label, d⟩ hd => ?_) (by decide)
  refine .bind (.takeKeyword .doK) (fun e he => ?_) (by decide)
  refine .bind (h .sequence e (Site.below_of_length (lt_of_lt_of_le he hd)))
    (fun ⟨tree, f⟩ _ => ?_) (by decide)
  refine .bind (.takeKeyword .endK) (fun g _ => ?_) (by decide)
  exact .pure rfl (by decide)

/-- A name and a comma are gone before the next round. -/
theorem runs_parameters (seen : List String) (h : Serves enough ⟨.parameters seen, c⟩ self) :
    Rule.Runs enough (.parameters seen) c (body self (.parameters seen) c) := by
  show Runs enough c Prod.snd 1 (-16) 0 _
  dsimp only [body]
  split
  · next hkind =>
    refine .bind (.advance (ne_finish hkind nofun)) (fun d _ => ?_) le_rfl
    exact .pure rfl (by decide)
  · next hkind =>
    refine .bind (.advance (ne_finish hkind nofun)) (fun d hd => ?_) le_rfl
    split
    · exact .fail c nofun (by decide)
    split
    · next hcomma =>
      refine .bind (.advance (ne_finish hcomma nofun)) (fun e he => ?_) (by decide)
      have hnames : Runs enough e Prod.snd 1 (-15) 1
          (self (.parameters (c.current.lexeme :: seen)) e) :=
        h (.parameters _) e (Site.below_of_length (lt_trans he hd))
      refine .bind hnames (fun ⟨names, f⟩ _ => ?_) (by decide)
      exact .pure rfl (by decide)
    · refine .bind (.takeSymbol .closeParen) (fun e _ => ?_) (by decide)
      exact .pure rfl (by decide)
  · exact .fail c nofun le_rfl

/-- Each production keeps to its bounds, if those that it calls keep to theirs. -/
theorem runs_body (r : Rule) (h : Serves enough ⟨r, c⟩ self) :
    Rule.Runs enough r c (body self r c) := by
  cases r with
  | sequence => exact runs_sequence h
  | statements => exact runs_statements h
  | expression => exact runs_expression h
  | disjunction => exact runs_disjunction h
  | disjunctionRest left => exact runs_disjunctionRest left h
  | conjunction => exact runs_conjunction h
  | conjunctionRest left => exact runs_conjunctionRest left h
  | comparison => exact runs_comparison h
  | sum => exact runs_sum h
  | sumRest left => exact runs_sumRest left h
  | product => exact runs_product h
  | productRest left => exact runs_productRest left h
  | power => exact runs_power h
  | term => exact runs_term h
  | termRest head => exact runs_termRest head h
  | list close => exact runs_list close h
  | primary => exact runs_primary h
  | conditional => exact runs_conditional h
  | loop => exact runs_loop h
  | function => exact runs_function h
  | block => exact runs_block h
  | parameters seen => exact runs_parameters seen h

end Bodies

/-! ## 4. Whole runs -/

/-- Running out of depth is a failure without any call, which every production allows. -/
theorem Rule.excess_nonneg (r : Rule) : 0 ≤ r.excess := by
  cases r <;> simp [excess]

/-- A production keeps to its bounds at any depth, and a depth above the height of its site is
enough. -/
theorem runs_recorded (n : ℕ) (r : Rule) (c : Cursor) :
    r.Runs (Site.height ⟨r, c⟩ < n) c (recorded n r c) := by
  induction n generalizing r c with
  | zero =>
    refine ⟨List.forall_mem_nil _, nofun, ?_⟩
    rintro e ⟨⟩
    have hexcess := r.excess_nonneg
    exact ⟨by simp only [recorded, Recorded.fail, Recorded.still, List.length_nil]; omega,
      fun h => absurd h (Nat.not_lt_zero _)⟩
  | succ n ih =>
    rw [recorded]
    -- a call goes down in height by one at least, and it gets one level of depth less
    refine runs_body r fun q d hbelow => ?_
    refine (ih q d).entered hbelow fun h => ?_
    exact lt_of_lt_of_le hbelow.height_lt (Nat.le_of_lt_succ h)

/-- The depth that a program is read with is enough. -/
theorem height_lt_depth (c : Cursor) : Site.height ⟨.sequence, c⟩ < c.depth := by
  show 16 * c.rest.length + 14 < 16 * (c.rest.length + 1)
  omega

/-- A program that is read takes all tokens, if the end is none of them. -/
theorem runs_program {c : Cursor} (hfinish : ∀ t ∈ c.rest, t.kind ≠ .finish) :
    Runs True c (fun _ => ⟨[], c.finish⟩) 0 1 10 (recordedProgram c) := by
  refine .bind_before .check (fun c₁ hc₁ _ => ?_) (by decide)
  obtain rfl : c = c₁ := hc₁
  have hrun := (runs_recorded c.depth .sequence c).of_enough (height_lt_depth c)
  refine hrun.bind_before (fun (tree, d) hd _ => ?_) (by decide)
  dsimp only
  split
  · next hend =>
    -- the end is no token of its own, so none is left
    refine .pure ?_ (by decide)
    rw [hd] at hfinish
    obtain ⟨rest, finish⟩ := d
    cases rest with
    | nil =>
      rw [hd]
      rfl
    | cons t us => exact absurd hend (hfinish t (List.mem_append_right _ List.mem_cons_self))
  · exact .fail d nofun (by decide)

/-- **Progress.** The record of a run of the parser shows it with all its calls and all the
tokens that it takes. Every call, and every further round of a loop, has fewer tokens ahead or
is of a tighter production with the same ones, so that no chain of calls is endless. Where a
production succeeds it has moved over the tokens taken, and all but the sequences and the
rests of loops have taken one. So the parser comes to an end with every program, after a
number of calls that is linear in the tokens and never for the lack of depth; and a program
that is read has had each token taken once. -/
theorem parse_progress :
    (∀ n r c, (recorded n r c).outcome = r.run n c) ∧
    (∀ n r c, ∀ call ∈ (recorded n r c).calls, call.callee.Below call.caller) ∧
    WellFounded Site.Below ∧
    (∀ n r c a d, r.run n c = .ok (a, d) →
      c = d.before (recorded n r c).taken ∧ r.least ≤ (recorded n r c).taken.length) ∧
    ∀ source, ∃ run : Recorded Expr,
      run = recordedProgram ⟨(scan source).tokens, (scan source).finish⟩ ∧
      run.outcome = Expr.parse source ∧
      (∀ call ∈ run.calls, call.callee.Below call.caller) ∧
      run.calls.length ≤ 16 * ((scan source).tokens.length + 1) ∧
      (∀ e, Expr.parse source = .error e → e.problem ≠ .tooDeep) ∧
      (∀ tree, Expr.parse source = .ok tree → run.taken = (scan source).tokens) := by
  refine ⟨outcome_recorded, fun n r c => (runs_recorded n r c).below, Site.wellFounded_below,
    fun n r c a d h => ?_, fun source => ⟨_, rfl, outcome_recordedProgram _, ?_⟩⟩
  · rw [← outcome_recorded] at h
    obtain ⟨hc, hleast, -⟩ := (runs_recorded n r c).ok _ h
    exact ⟨hc, hleast⟩
  have hparse := outcome_recordedProgram ⟨(scan source).tokens, (scan source).finish⟩
  obtain ⟨hbelow, hok, herror⟩ := runs_program
    (c := ⟨(scan source).tokens, (scan source).finish⟩) (kind_ne_finish_of_mem_scan source)
  generalize recordedProgram ⟨(scan source).tokens, (scan source).finish⟩ = run at *
  -- a program that is read ends where no token is left
  have htaken : ∀ tree, run.outcome = .ok tree → run.taken = (scan source).tokens := by
    intro tree htree
    have hrest := congrArg Cursor.rest (hok tree htree).1
    rw [Cursor.before, List.append_nil] at hrest
    exact hrest.symm
  refine ⟨hbelow, ?_, fun e he => ?_, fun tree htree => htaken tree (hparse.trans htree)⟩
  · cases hrun : run.outcome with
    | ok tree =>
      have hcalls := (hok tree hrun).2.2
      rw [htaken tree hrun] at hcalls
      omega
    | error e =>
      have hcalls := (herror e hrun).1
      dsimp only at hcalls
      omega
  · exact (herror e (hparse.trans he)).2 trivial

end Parser

end CalcScript

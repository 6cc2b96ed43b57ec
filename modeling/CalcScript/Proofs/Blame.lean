/-
`Proofs/Blame.lean` -- which node an error comes from.

An error begins without a place in a built-in operation, at a value that cannot be called or
at a label, and gets the place of the application it happens in. Or it begins with a place,
where a variable is looked up or changed that does not exist. `Point.Raises` has one rule for
each of these. An error that has its place passes through everything around it as it is
(`Point.Enters.fails`), and every error can be followed back to the point that raised it
(`Point.exists_raises`). By `Proofs/Regions.lean` the node there is one of the program, or
of a function that the session had before.
-/
import CalcScript.Proofs.Exits
import CalcScript.Proofs.Regions

set_option autoImplicit false

namespace CalcScript

open Eval

def Task.isCall : Task → Bool
  | .call .. => true
  | _ => false

namespace Point

variable {p q : Point} {n : Nat} {m : Machine} {rs : List LabelRef} {err : RuntimeError}

/-! ## 1. Errors on their way out -/

/-- The evaluation ends with an error. -/
def Fails (p : Point) (err : RuntimeError) : Prop := ∃ m, p.result = .error (.error err) m

theorem fails_expr {e : Expr} {scope : ScopeRef} :
    Fails ⟨.expr e scope, n, m, rs⟩ err ↔ ∃ m', eval n e scope m = .error (.error err) m' :=
  exists_congr fun _ => singleton_eq_error

theorem fails_turns {condition body : Expr} {scope : ScopeRef} :
    Fails ⟨.turns condition body scope, n, m, rs⟩ err ↔
      ∃ m', evalLoop n condition body scope m = .error (.error err) m' :=
  exists_congr fun _ => singleton_eq_error

theorem fails_call {callee : Value} {args : List Value} :
    Fails ⟨.call callee args, n, m, rs⟩ err ↔
      ∃ m', applyValue n callee args m = .error (.error err) m' :=
  exists_congr fun _ => singleton_eq_error

/-- An application leaves an error alone that has a place. -/
theorem locating_of_placed {x : Eval Value} {pos : Position} {m' : Machine}
    (hplaced : err.pos.isSome = true) (h : x m = .error (.error err) m') :
    Eval.locating pos x m = .error (.error err) m' := by
  obtain ⟨fault, place⟩ := err
  cases place with
  | none => cases hplaced
  | some place =>
    rw [Eval.locating, h]
    rfl

/-- **An error that has its place ends the outer evaluation as it is.** -/
theorem Enters.fails (h : p.Enters q) (hplaced : err.pos.isSome = true) (hq : q.Fails err) :
    p.Fails err := by
  obtain ⟨m', hq⟩ := hq
  cases h with
  | array => exact fails_expr.mpr ⟨m', bind_of_error hq⟩
  | store | update | andLeft | orLeft | condition | callee =>
    exact fails_expr.mpr ⟨m', bind_of_error (singleton_eq_error.mp hq)⟩
  | first =>
    exact fails_expr.mpr ⟨m', bind_of_error (discard_of_error (singleton_eq_error.mp hq))⟩
  | rest hfirst =>
    exact fails_expr.mpr ⟨m', (bind_of_ok (discard_of_ok hfirst)).trans (singleton_eq_error.mp hq)⟩
  | andRight hleft htruthy | orRight hleft htruthy =>
    refine fails_expr.mpr ⟨m', (bind_of_ok hleft).trans ?_⟩
    exact (bind_of_ok (truthy_of_eq htruthy)).trans (bind_of_error (singleton_eq_error.mp hq))
  | consequent hcondition htruthy | alternate hcondition htruthy =>
    refine fails_expr.mpr ⟨m', (bind_of_ok hcondition).trans ?_⟩
    exact (bind_of_ok (truthy_of_eq htruthy)).trans (singleton_eq_error.mp hq)
  | loop => exact fails_expr.mpr ⟨m', singleton_eq_error.mp hq⟩
  | arguments hcallee =>
    exact fails_expr.mpr ⟨m', (bind_of_ok hcallee).trans (bind_of_error hq)⟩
  | application hcallee hargs =>
    refine fails_expr.mpr ⟨m', (bind_of_ok hcallee).trans ?_⟩
    exact (bind_of_ok hargs).trans (locating_of_placed hplaced (singleton_eq_error.mp hq))
  | @block name body scope n m rs =>
    -- a block run ends its label and looks for exits only
    refine fails_expr.mpr ⟨m'.leaveBlock m.store.nextRef, ?_⟩
    show inBlock name scope (eval n body) m = _
    rw [inBlock_eq, singleton_eq_error.mp hq]
  | head => exact ⟨m', bind_of_error (singleton_eq_error.mp hq)⟩
  | tail hhead => exact ⟨m', (bind_of_ok hhead).trans (bind_of_error hq)⟩
  | test => exact fails_turns.mpr ⟨m', bind_of_error (singleton_eq_error.mp hq)⟩
  | turn htest htruthy =>
    refine fails_turns.mpr ⟨m', (bind_of_ok htest).trans ?_⟩
    exact (bind_of_ok (truthy_of_eq htruthy)).trans
      (bind_of_error (discard_of_error (singleton_eq_error.mp hq)))
  | again htest htruthy hturn =>
    refine fails_turns.mpr ⟨m', (bind_of_ok htest).trans ?_⟩
    exact (bind_of_ok (truthy_of_eq htruthy)).trans
      ((bind_of_ok (discard_of_ok hturn)).trans (singleton_eq_error.mp hq))
  | body hclosure hlength =>
    refine fails_call.mpr ⟨m', ?_⟩
    rw [applyValue_closure hclosure hlength]
    exact singleton_eq_error.mp hq

/-- However many evaluations are around it. -/
theorem fails_of_enters (h : Relation.ReflTransGen Enters p q) (hplaced : err.pos.isSome = true)
    (hq : q.Fails err) : p.Fails err := by
  induction h with
  | refl => exact hq
  | tail _ henters ih => exact ih (henters.fails hplaced hq)

/-! ## 2. Where errors come from -/

/-- The evaluation of this node raises the error: a variable does not exist, or an
application comes to an error that has no place yet. -/
inductive Raises : Point → RuntimeError → Prop
  | var {name pos scope n m rs} (hlookup : m.store.lookup? scope name = none) :
    Raises ⟨.expr (.var name pos) scope, n + 1, m, rs⟩ ⟨.undefinedVariable name, some pos⟩
  | update {name value pos scope n m rs v m₁} (hvalue : eval n value scope m = .ok v m₁)
      (hresolve : m₁.store.resolve? scope name = none) :
    Raises ⟨.expr (.update name value pos) scope, n + 1, m, rs⟩
      ⟨.undefinedVariable name, some pos⟩
  | apply {callee args pos scope n m rs v m₁ vs m₂ fault m₃}
      (hcallee : eval n callee scope m = .ok v m₁) (hargs : evalAll n args scope m₁ = .ok vs m₂)
      (happly : applyValue n v vs m₂ = .error (.error ⟨fault, none⟩) m₃) :
    Raises ⟨.expr (.apply callee args pos) scope, n + 1, m, rs⟩ ⟨fault, some pos⟩

/-- An inner evaluation has ended with the error. Of a call this counts only if the error has
its place, because otherwise it gets another one here. -/
def InnerFails (p : Point) (err : RuntimeError) : Prop :=
  ∃ q, p.Enters q ∧ q.Fails err ∧ (q.task.isCall = true → err.pos.isSome = true)

theorem lookup_eq_error {name : String} {pos : Position} {scope : ScopeRef} {m' : Machine}
    {signal : Signal} (h : Eval.lookup name pos scope m = .error signal m') :
    m.store.lookup? scope name = none ∧ signal = .error ⟨.undefinedVariable name, some pos⟩ := by
  rw [Eval.lookup, get_bind] at h
  cases hlookup : m.store.lookup? scope name with
  | some v => rw [hlookup] at h; cases h
  | none =>
    rw [hlookup] at h
    cases h
    exact ⟨rfl, rfl⟩

theorem assign_eq_error {name : String} {value : Value} {pos : Position} {scope : ScopeRef}
    {m' : Machine} {signal : Signal} (h : Eval.assign name value pos scope m = .error signal m') :
    m.store.resolve? scope name = none ∧ signal = .error ⟨.undefinedVariable name, some pos⟩ := by
  cases hresolve : m.store.resolve? scope name with
  | some found => rw [assign_of_resolve? hresolve] at h; cases h
  | none =>
    rw [assign_of_unresolved hresolve] at h
    cases h
    exact ⟨rfl, rfl⟩

/-- An error that comes out of an application had its place already, or has it from there. -/
theorem locating_eq_error {x : Eval Value} {pos : Position} {m' : Machine}
    (h : Eval.locating pos x m = .error (.error err) m') :
    (x m = .error (.error err) m' ∧ err.pos.isSome = true) ∨
      ∃ fault, err = ⟨fault, some pos⟩ ∧ x m = .error (.error ⟨fault, none⟩) m' := by
  unfold Eval.locating at h
  split at h
  · next e m₁ hx =>
    obtain ⟨fault, place⟩ := e
    cases h
    cases place with
    | none => exact .inr ⟨fault, rfl, hx⟩
    | some place => exact .inl ⟨hx, rfl⟩
  · next hne => exact absurd h (hne _ _)

theorem raises_or_innerFails_expr {e : Expr} {scope : ScopeRef} {m' : Machine}
    (h : eval (n + 1) e scope m = .error (.error err) m') :
    Raises ⟨.expr e scope, n + 1, m, rs⟩ err ∨ InnerFails ⟨.expr e scope, n + 1, m, rs⟩ err := by
  cases e with
  | literal l => cases h
  | primitive p => cases h
  | array items =>
    rcases bind_eq_error h with h | ⟨vs, m₁, -, h⟩
    · exact .inr ⟨_, .array, ⟨_, h⟩, nofun⟩
    · cases h
  | var name pos =>
    obtain ⟨hlookup, hsignal⟩ := lookup_eq_error h
    cases hsignal
    exact .inl (.var hlookup)
  | store name value =>
    rcases bind_eq_error h with h | ⟨w, m₁, -, h⟩
    · exact .inr ⟨_, .store, fails_expr.mpr ⟨_, h⟩, nofun⟩
    · cases h
  | update name value pos =>
    rcases bind_eq_error h with h | ⟨w, m₁, hvalue, h⟩
    · exact .inr ⟨_, .update, fails_expr.mpr ⟨_, h⟩, nofun⟩
    rcases bind_eq_error h with h | ⟨_, m₂, -, h⟩
    · obtain ⟨hresolve, hsignal⟩ := assign_eq_error h
      cases hsignal
      exact .inl (.update hvalue hresolve)
    · cases h
  | seq first rest =>
    rcases bind_eq_error h with h | ⟨_, m₁, hfirst, h⟩
    · exact .inr ⟨_, .first, fails_expr.mpr ⟨_, discard_eq_error h⟩, nofun⟩
    · obtain ⟨w, hfirst⟩ := discard_eq_ok hfirst
      exact .inr ⟨_, .rest hfirst, fails_expr.mpr ⟨_, h⟩, nofun⟩
  | and left right =>
    rcases bind_eq_error h with h | ⟨w, m₁, hleft, h⟩
    · exact .inr ⟨_, .andLeft, fails_expr.mpr ⟨_, h⟩, nofun⟩
    rw [truthy_bind] at h
    cases htruthy : m₁.store.truthy w with
    | false => rw [htruthy] at h; cases h
    | true =>
      rw [htruthy] at h
      rcases bind_eq_error h with h | ⟨u, m₂, -, h⟩
      · exact .inr ⟨_, .andRight hleft htruthy, fails_expr.mpr ⟨_, h⟩, nofun⟩
      · cases h
  | or left right =>
    rcases bind_eq_error h with h | ⟨w, m₁, hleft, h⟩
    · exact .inr ⟨_, .orLeft, fails_expr.mpr ⟨_, h⟩, nofun⟩
    rw [truthy_bind] at h
    cases htruthy : m₁.store.truthy w with
    | true => rw [htruthy] at h; cases h
    | false =>
      rw [htruthy] at h
      rcases bind_eq_error h with h | ⟨u, m₂, -, h⟩
      · exact .inr ⟨_, .orRight hleft htruthy, fails_expr.mpr ⟨_, h⟩, nofun⟩
      · cases h
  | cond condition consequent alternate =>
    rcases bind_eq_error h with h | ⟨w, m₁, hcondition, h⟩
    · exact .inr ⟨_, .condition, fails_expr.mpr ⟨_, h⟩, nofun⟩
    rw [truthy_bind] at h
    cases htruthy : m₁.store.truthy w with
    | true =>
      rw [htruthy] at h
      exact .inr ⟨_, .consequent hcondition htruthy, fails_expr.mpr ⟨_, h⟩, nofun⟩
    | false =>
      rw [htruthy] at h
      exact .inr ⟨_, .alternate hcondition htruthy, fails_expr.mpr ⟨_, h⟩, nofun⟩
  | loop condition body => exact .inr ⟨_, .loop, fails_turns.mpr ⟨_, h⟩, nofun⟩
  | func params body => cases h
  | apply callee args pos =>
    rcases bind_eq_error h with h | ⟨w, m₁, hcallee, h⟩
    · exact .inr ⟨_, .callee, fails_expr.mpr ⟨_, h⟩, nofun⟩
    rcases bind_eq_error h with h | ⟨ws, m₂, hargs, h⟩
    · exact .inr ⟨_, .arguments hcallee, ⟨_, h⟩, nofun⟩
    -- the call itself: this node is to blame for what nothing inside was
    rcases locating_eq_error h with ⟨happly, hplaced⟩ | ⟨fault, rfl, happly⟩
    · exact .inr ⟨_, .application hcallee hargs, fails_call.mpr ⟨_, happly⟩, fun _ => hplaced⟩
    · exact .inl (.apply hcallee hargs happly)
  | block name body =>
    replace h : inBlock name scope (eval n body) m = .error (.error err) m' := h
    rw [inBlock_eq] at h
    split at h
    · cases h
    · split at h <;> cases h
    · next hbody =>
      cases h
      exact .inr ⟨_, .block, fails_expr.mpr ⟨_, hbody⟩, nofun⟩

theorem innerFails_exprs {es : List Expr} {scope : ScopeRef} {m' : Machine}
    (h : evalAll (n + 1) es scope m = .error (.error err) m') :
    InnerFails ⟨.exprs es scope, n + 1, m, rs⟩ err := by
  cases es with
  | nil => cases h
  | cons e es =>
    rcases bind_eq_error h with h | ⟨w, m₁, hhead, h⟩
    · exact ⟨_, .head, fails_expr.mpr ⟨_, h⟩, nofun⟩
    rcases bind_eq_error h with h | ⟨ws, m₂, -, h⟩
    · exact ⟨_, .tail hhead, ⟨_, h⟩, nofun⟩
    · cases h

theorem innerFails_turns {condition body : Expr} {scope : ScopeRef} {m' : Machine}
    (h : evalLoop (n + 1) condition body scope m = .error (.error err) m') :
    InnerFails ⟨.turns condition body scope, n + 1, m, rs⟩ err := by
  rcases bind_eq_error h with h | ⟨w, m₁, htest, h⟩
  · exact ⟨_, .test, fails_expr.mpr ⟨_, h⟩, nofun⟩
  rw [truthy_bind] at h
  cases htruthy : m₁.store.truthy w with
  | false => rw [htruthy] at h; cases h
  | true =>
    rw [htruthy] at h
    rcases bind_eq_error h with h | ⟨_, m₂, hturn, h⟩
    · exact ⟨_, .turn htest htruthy, fails_expr.mpr ⟨_, discard_eq_error h⟩, nofun⟩
    · obtain ⟨u, hturn⟩ := discard_eq_ok hturn
      exact ⟨_, .again htest htruthy hturn, fails_turns.mpr ⟨_, h⟩, nofun⟩

/-- A call raises errors without a place only. One that has a place comes from the body of
the function. -/
theorem innerFails_call {callee : Value} {args : List Value} {m' : Machine}
    (h : applyValue (n + 1) callee args m = .error (.error err) m')
    (hplaced : err.pos.isSome = true) : InnerFails ⟨.call callee args, n + 1, m, rs⟩ err := by
  -- only a function runs something; what else fails here has no place yet
  cases callee with
  | closure r =>
    replace h : inCall r args (eval n) m = .error (.error err) m' := h
    rw [inCall_eq] at h
    split at h
    · cases h; cases hplaced
    · next c hclosure =>
      split at h
      · next hlength => exact ⟨_, .body hclosure hlength, fails_expr.mpr ⟨_, h⟩, nofun⟩
      · cases h; cases hplaced
  | primitive p =>
    replace h : callPrimitive p args m = .error (.error err) m' := h
    unfold callPrimitive at h
    split at h <;> cases h
    cases hplaced
  | label r =>
    replace h : exitTo r args m = .error (.error err) m' := h
    rw [Settled.exitTo_eq] at h
    split at h
    · split at h
      · split at h <;> cases h
        cases hplaced
      · cases h; cases hplaced
    · cases h; cases hplaced
  | number _ | bool _ | null | str _ | array _ => cases h; cases hplaced

/-- **Every error is raised by a node**, somewhere inside, and has passed on from there as it
was. The induction is on the depth of evaluation. -/
theorem exists_raises (hp : p.Fails err) (hcall : p.task.isCall = true → err.pos.isSome = true) :
    ∃ q, Relation.ReflTransGen Enters p q ∧ q.Raises err := by
  obtain ⟨task, depth, m, rs⟩ := p
  induction depth generalizing task m rs with
  | zero =>
    obtain ⟨m', hm'⟩ := hp
    cases task <;> cases hm'
  | succ n ih =>
    -- the error is raised here, or something started here has failed with it
    have hinner : Raises ⟨task, n + 1, m, rs⟩ err ∨ InnerFails ⟨task, n + 1, m, rs⟩ err := by
      cases task with
      | expr e scope =>
        obtain ⟨m', hm'⟩ := fails_expr.mp hp
        exact raises_or_innerFails_expr hm'
      | exprs es scope =>
        obtain ⟨m', hm'⟩ := hp
        exact .inr (innerFails_exprs hm')
      | turns condition body scope =>
        obtain ⟨m', hm'⟩ := fails_turns.mp hp
        exact .inr (innerFails_turns hm')
      | call callee args =>
        obtain ⟨m', hm'⟩ := fails_call.mp hp
        exact .inr (innerFails_call hm' (hcall rfl))
    rcases hinner with h | ⟨⟨task', depth', m', rs'⟩, henters, hfails, hplaced⟩
    · exact ⟨_, .refl, h⟩
    · -- what is started has one less of depth, so the hypothesis is about it
      have hdepth : depth' = n := by cases henters <;> rfl
      subst hdepth
      obtain ⟨q, hpath, hraises⟩ := ih task' m' rs' hfails hplaced
      exact ⟨q, .head henters hpath, hraises⟩

end Point

/-! ## 3. Nodes and their errors -/

theorem Point.Raises.isSome_pos {p : Point} {err : RuntimeError} (h : p.Raises err) :
    err.pos.isSome = true := by
  cases h <;> rfl

theorem Fault.kind_eq_undefinedVariable {fault : Fault} (h : fault.kind = .undefinedVariable) :
    ∃ name, fault = .undefinedVariable name := by
  cases fault with
  | undefinedVariable name => exact ⟨name, rfl⟩
  | _ => cases h

/-- A call never complains about a variable by itself: in the body of a function such an error
has got its place. -/
theorem Eval.applyValue_ne_undefinedVariable {n : Nat} {callee : Value} {args : List Value}
    {m m' : Machine} {name : String} :
    applyValue n callee args m ≠ .error (.error ⟨.undefinedVariable name, none⟩) m' := by
  intro h
  cases n with
  | zero => cases h
  | succ n =>
    cases callee with
    | closure r =>
      replace h : inCall r args (eval n) m = .error _ m' := h
      rw [inCall_eq] at h
      split at h
      · cases h
      · next c hclosure =>
        split at h
        · have hfails : Point.Fails ⟨.expr c.body (m.enterCall c args).1, n, _, []⟩ _ :=
            Point.fails_expr.mpr ⟨m', h⟩
          obtain ⟨q, -, hraises⟩ := Point.exists_raises hfails nofun
          cases hraises.isSome_pos
        · cases h
    | primitive p =>
      replace h : callPrimitive p args m = .error _ m' := h
      unfold callPrimitive at h
      split at h <;> cases h
      next hcall => cases Primitive.isOperational_of_call (congrArg Prod.fst hcall)
    | label r =>
      replace h : exitTo r args m = .error _ m' := h
      rw [Settled.exitTo_eq] at h
      split at h
      · split at h
        · split at h <;> cases h
        · cases h
      · cases h
    | number _ | bool _ | null | str _ | array _ => cases h

/-- The node and the place that the error has fit each other: a variable that does not exist
is reported at a node that names it, everything else at an application. -/
structure Expr.Blamed (node : Expr) (err : RuntimeError) (pos : Position) : Prop where
  pos_eq : err.pos = some pos
  of_variable : err.fault.kind = .undefinedVariable → ∃ name,
    (node = .var name pos ∨ ∃ value, node = .update name value pos) ∧
      err.fault.message = "No such variable " ++ name
  of_other : err.fault.kind ≠ .undefinedVariable → ∃ callee args, node = .apply callee args pos

theorem Point.Raises.blamed {p : Point} {err : RuntimeError} (h : p.Raises err) :
    ∃ node scope pos, p.task = .expr node scope ∧ node.Blamed err pos := by
  cases h with
  | @var name pos scope _ _ _ _ =>
    refine ⟨_, scope, pos, rfl, rfl, fun _ => ⟨name, .inl rfl, rfl⟩, fun hkind => ?_⟩
    exact absurd rfl hkind
  | @update name value pos scope _ _ _ _ _ _ _ =>
    refine ⟨_, scope, pos, rfl, rfl, fun _ => ⟨name, .inr ⟨value, rfl⟩, rfl⟩, fun hkind => ?_⟩
    exact absurd rfl hkind
  | @apply callee args pos scope _ _ _ _ _ _ _ fault _ _ _ happly =>
    refine ⟨_, scope, pos, rfl, rfl, fun hkind => ?_, fun _ => ⟨callee, args, rfl⟩⟩
    obtain ⟨name, rfl⟩ := Fault.kind_eq_undefinedVariable hkind
    exact absurd happly applyValue_ne_undefinedVariable

/-! ## 4. Sessions -/

namespace Session

variable {s : Session} {err : RuntimeError}

/-- The point at which the evaluation of a tree starts. -/
def start (s : Session) (e : Expr) : Point := ⟨.expr e globals, depth, s.machine, []⟩

/-- An answer that is an error of the program comes from an evaluation that ended so. -/
theorem fails_of_evaluateExpr (hs : s.Reachable) {e : Expr}
    (h : (s.evaluateExpr e).1 = .error (.runtime err)) : (s.start e).Fails err := by
  have hstray := (Answers.evaluateExpr (s := s) e).ne_strayExit hs.tracks_nil
  refine Point.fails_expr.mpr ?_
  rw [evaluateExpr] at h hstray
  cases hrun : eval depth e globals s.machine with
  | ok v m =>
    rw [finish_of_ok hrun] at h
    rcases answer_of_flushed h with hanswer | ⟨reason, hanswer⟩ <;> cases hanswer
  | error signal m =>
    rw [finish_of_error hrun] at h hstray
    rcases answer_of_flushed h with hanswer | ⟨reason, hanswer⟩
    · cases signal with
      | error e' => cases hanswer; exact ⟨m, rfl⟩
      | exit id v => cases hanswer; exact absurd h (hstray id none)
      | exhausted => cases hanswer
    · cases hanswer

/-- **Every runtime error of a program carries the place of the node that raised it.** If
the evaluation of a tree ends with an error, the error has a place. The node there is one of
the tree, or of the body of a function that the session reached from its global scope before;
and there is a point of the evaluation at which this node raised the error. If the error is
about a variable, the node is one that looks it up or changes it, and otherwise it is an
application. Whatever evaluation inside ends with an error that has a place, that is the
error of the whole: no application around it puts another place there. -/
theorem runtime_error_at_raising_node (hs : s.Reachable) :
    (∀ e err, (s.evaluateExpr e).1 = .error (.runtime err) →
      (∃ node scope pos q, node.Blamed err pos ∧ s.machine.store.Knows e globals node ∧
        Relation.ReflTransGen Point.Enters (s.start e) q ∧ q.task = .expr node scope ∧
        q.Raises err) ∧
      (∀ q err', Relation.ReflTransGen Point.Enters (s.start e) q → q.Fails err' →
        err'.pos.isSome = true → err' = err)) ∧
    (∀ source err, (s.evaluate source).1 = .error (.runtime err) →
      ∃ e, Expr.parse source = .ok e ∧ (s.evaluateExpr e).1 = .error (.runtime err)) := by
  refine ⟨fun e err h => ⟨?_, ?_⟩, fun source err h => ?_⟩
  · obtain ⟨q, hpath, hraises⟩ := Point.exists_raises (fails_of_evaluateExpr hs h) nofun
    obtain ⟨node, scope, pos, htask, hblamed⟩ := hraises.blamed
    exact ⟨node, scope, pos, q, hblamed, Point.knows_of_enters hpath htask, hpath, htask, hraises⟩
  · intro q err' hpath hfails hplaced
    obtain ⟨m, hm⟩ := fails_of_evaluateExpr hs h
    obtain ⟨m', hm'⟩ := Point.fails_of_enters hpath hplaced hfails
    rw [hm] at hm'
    cases hm'
    rfl
  · rw [evaluate] at h
    cases hparse : Expr.parse source with
    | ok e =>
      rw [hparse] at h
      exact ⟨e, rfl, h⟩
    | error e =>
      rw [hparse] at h
      cases h

/-- The error of an index that is out of range, in a function of an earlier program: its place
is in that program, and not at the call. -/
theorem runtime_error_in_earlier_function :
    let s := ((Session.new .unlimited).evaluate "fun f(a)\n  a[0] end").2
    s.Reachable ∧ (s.evaluate "f([])").1 = .error (.runtime ⟨.outOfRange 0 0, some ⟨2, 3⟩⟩) ∧
      ∃ e callee args, Expr.parse "f([])" = .ok e ∧
        s.machine.store.Knows e globals (.apply callee args ⟨2, 3⟩) := by
  intro s
  have hs : s.Reachable := (Reachable.new .unlimited).evaluate _
  have hanswer : (match (s.evaluate "f([])").1 with
      | .error (.runtime err) => decide (err = ⟨.outOfRange 0 0, some ⟨2, 3⟩⟩)
      | _ => false) = true := by decide +kernel
  split at hanswer
  · next err herr =>
    obtain rfl := of_decide_eq_true hanswer
    obtain ⟨hexpr, hprogram⟩ := runtime_error_at_raising_node hs
    obtain ⟨e, hparse, hfailed⟩ := hprogram _ _ herr
    obtain ⟨⟨node, scope, pos, q, hblamed, hknows, -⟩, -⟩ := hexpr e _ hfailed
    obtain ⟨callee, args, rfl⟩ := hblamed.of_other nofun
    cases hblamed.pos_eq
    exact ⟨hs, herr, e, callee, args, hparse, hknows⟩
  · cases hanswer

end Session

end CalcScript

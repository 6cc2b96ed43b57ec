/-
`Proofs/Operators.lean` -- operators are no values.

The tree of an operator, a sign, an index or the replacement of an element is an application of
a primitive, and evaluation of that primitive gives a value like any other. Yet programs never
get hold of it: by `Proofs/OrdinaryValues.lean` no scope, no array and no result holds a primitive
but those that a session binds to their names. Nor is an operator ever given a wrong number of
arguments. An error about that number can be followed back to the node that raised it, and the
node, by `Proofs/WrittenCalls.lean`, to a call that is written with parentheses.
-/
import CalcScript.Proofs.Blame
import CalcScript.Proofs.Composition
import CalcScript.Proofs.OrdinaryValues
import CalcScript.Proofs.WrittenCalls
import Mathlib.Data.List.Induction

set_option autoImplicit false

namespace CalcScript

/-! ## 1. Wrong numbers of arguments -/

theorem Primitive.accepts_of_operands? {p : Primitive} {n : Nat} (h : p.operands? = some n) :
    p.arity.accepts n = true := by
  cases p <;> cases h <;> rfl

theorem evalAll_length {n : Nat} {es : List Expr} {scope : ScopeRef} {m m' : Machine}
    {vs : List Value} (h : evalAll n es scope m = .ok vs m') : vs.length = es.length := by
  induction es generalizing n m vs with
  | nil =>
    cases n with
    | zero => cases h
    | succ n => cases h; rfl
  | cons e es ih =>
    cases n with
    | zero => cases h
    | succ n =>
      obtain ⟨v, m₁, -, h⟩ := Eval.bind_eq_ok h
      obtain ⟨ws, m₂, hws, h⟩ := Eval.bind_eq_ok h
      cases h
      rw [List.length_cons, List.length_cons, ih hws]

/-- An operator has the operands it takes, so it does not complain about their number. -/
theorem applyValue_operator {n : Nat} {p : Primitive} {args : List Value} {m m' : Machine}
    {err : RuntimeError} (hcount : p.operands? = some args.length)
    (h : applyValue n (.primitive p) args m = .error (.error err) m') :
    err.fault.kind ≠ .arity := by
  cases n with
  | zero => cases h
  | succ n =>
    replace h : Eval.callPrimitive p args m = .error (.error err) m' := h
    unfold Eval.callPrimitive at h
    split at h
    · cases h
    · next fault m₁ hcall =>
      cases h
      have hproper := Proper.call (Primitive.accepts_of_operands? hcount) m fault
        (congrArg Prod.fst hcall)
      intro hkind
      simp [Fault.isProper, hkind] at hproper

/-- A node that raises an error about the number of arguments applies something that is no
operator. -/
theorem Point.Raises.call_of_arity {q : Point} {err : RuntimeError} (h : q.Raises err)
    (hkind : err.fault.kind = .arity) {node : Expr} {scope : ScopeRef}
    (htask : q.task = .expr node scope) (hnode : node.WellFormed ∨ ∃ p, node = .primitive p) :
    ∃ callee args pos, node = .apply callee args pos ∧ (∀ p, callee ≠ .primitive p) ∧
      err.pos = some pos := by
  cases h with
  | var _ => cases hkind
  | update _ _ => cases hkind
  | @apply callee args pos _ n m _ v m₁ vs _ fault _ hcallee hargs happly =>
    cases htask
    refine ⟨callee, args, pos, rfl, ?_, rfl⟩
    rintro p rfl
    -- an operator of the tree has the operands it takes, and each of them has given one value
    have hcount : p.operands? = some vs.length := by
      rw [evalAll_length hargs]
      rcases hnode with hnode | ⟨p, hnode⟩
      · cases hnode with
        | operator hcount _ => exact hcount
        | apply hcallee _ => cases hcallee
      · cases hnode
    have hv : v = .primitive p := by
      cases n with
      | zero => cases hcallee
      | succ n => cases hcallee; rfl
    subst hv
    exact applyValue_operator hcount happly hkind

/-! ## 2. Sessions of programs -/

/-- The trees of programs, with all their parts. -/
def Trees.ofPrograms (sources : List String) : Trees where
  mem e := e.WellFormed ∧ ∃ source ∈ sources, ∃ program, Expr.parse source = .ok program ∧
    program.Contains e
  wellFormed h := h.1
  child h hpart hwell := by
    obtain ⟨-, source, hsource, program, hparse, hcontains⟩ := h
    exact ⟨hwell, source, hsource, program, hparse, hcontains.tail hpart⟩

theorem Expr.wellFormed_of_parse {source : String} {e : Expr} (h : Expr.parse source = .ok e) :
    e.WellFormed := by
  have hderives := Expr.derives_of_parse h
  exact hderives.wellFormed fun t ht => Token.spelled_of_mem_scan ht (hderives.isWord t ht)

theorem Trees.mem_ofPrograms {source : String} {e : Expr} (h : Expr.parse source = .ok e)
    {sources : List String} (hmem : source ∈ sources) : (Trees.ofPrograms sources).mem e :=
  ⟨Expr.wellFormed_of_parse h, source, hmem, e, h, .refl⟩

/-- Every scope and every array holds primitives with a name only. -/
def Store.HoldsNamed (s : Store) : Prop :=
  (∀ r name p, s.local? r name = some (.primitive p) → p ∈ Primitive.named) ∧
    ∀ r p, .primitive p ∈ s.items r → p ∈ Primitive.named

theorem Store.Orderly.holdsNamed {T : Trees} {s : Store} (h : s.Orderly T) : s.HoldsNamed :=
  ⟨fun _ _ _ hlocal => h.ordinary_of_local? hlocal, fun _ _ hitem => h.ordinary_of_mem_items hitem⟩

/-- More programs may come. -/
theorem Store.Orderly.mono {sources sources' : List String} {s : Store}
    (h : s.Orderly (.ofPrograms sources)) (hsub : sources ⊆ sources') :
    s.Orderly (.ofPrograms sources') := by
  refine { h with body := fun c hc => ?_ }
  obtain ⟨hwell, source, hsource, hprogram⟩ := h.body c hc
  exact ⟨hwell, source, hsub hsource, hprogram⟩

namespace Session

/-- The session behind the programs, evaluated one after another. -/
def after (sink : Sink) (sources : List String) : Session :=
  sources.foldl (fun s source => (s.evaluate source).2) (new sink)

theorem after_concat (sink : Sink) (sources : List String) (source : String) :
    after sink (sources ++ [source]) = ((after sink sources).evaluate source).2 := by
  simp [after]

theorem reachable_after (sink : Sink) (sources : List String) : (after sink sources).Reachable := by
  induction sources using List.reverseRecOn with
  | nil => exact .new sink
  | append_singleton sources source ih =>
    rw [after_concat]
    exact ih.evaluate source

variable {T : Trees} {s : Session}

theorem orderly_finish {x : Eval Value} (hx : Eval.Orderly T Value.Ordinary x)
    (hs : s.machine.store.Orderly T) :
    (s.finish x).2.machine.store.Orderly T ∧ ∀ v, (s.finish x).1 = .ok v → v.Ordinary := by
  cases hrun : x s.machine with
  | ok value m =>
    obtain ⟨hstore, hvalue⟩ := hx.ok hs hrun
    rw [finish_of_ok hrun]
    refine ⟨hstore, fun v hv => ?_⟩
    rcases answer_of_flushed hv with hanswer | ⟨reason, hanswer⟩ <;> cases hanswer
    exact hvalue
  | error signal m =>
    obtain ⟨hstore, -⟩ := hx.error hs hrun
    rw [finish_of_error hrun]
    refine ⟨hstore, fun v hv => ?_⟩
    rcases answer_of_flushed hv with hanswer | ⟨reason, hanswer⟩ <;> cases hanswer

theorem orderly_new (sink : Sink) : (new sink).machine.store.Orderly T := by
  refine ⟨?_, ?_, ?_⟩
  · intro scope hscope
    rcases Array.mem_push.mp hscope with hscope | rfl
    · simp [Store.empty] at hscope
    · intro b hb
      rcases List.mem_append.mp hb with hb | hb
      · rcases List.mem_cons.mp hb with rfl | hb
        · trivial
        · rw [List.mem_singleton.mp hb]
          trivial
      · obtain ⟨p, hp, rfl⟩ := List.mem_map.mp hb
        exact hp
  · intro items hitems
    simp [new, Store.newScope, Store.empty] at hitems
  · intro c hc
    simp [new, Store.newScope, Store.empty] at hc

/-- A program leaves an orderly store behind, and its value is ordinary. -/
theorem orderly_evaluate {sources : List String} {source : String} (hsource : source ∈ sources)
    (hs : s.machine.store.Orderly (.ofPrograms sources)) :
    (s.evaluate source).2.machine.store.Orderly (.ofPrograms sources) ∧
      ∀ v, (s.evaluate source).1 = .ok v → v.Ordinary := by
  rw [evaluate]
  split
  · next e hparse =>
    have he := Trees.mem_ofPrograms hparse hsource
    exact orderly_finish ((Eval.orderlyWithin _ depth).eval globals he) hs
  · refine ⟨hs, fun v hv => ?_⟩
    cases hv

/-- After any programs the store is orderly. The induction is on the programs, from the last. -/
theorem orderly_after (sink : Sink) (sources : List String) :
    (after sink sources).machine.store.Orderly (.ofPrograms sources) := by
  induction sources using List.reverseRecOn with
  | nil => exact orderly_new sink
  | append_singleton sources source ih =>
    rw [after_concat]
    have hsub : sources ⊆ sources ++ [source] := List.subset_append_left _ _
    exact (orderly_evaluate (List.mem_append_right _ List.mem_cons_self) (ih.mono hsub)).1

/-- A node that an evaluation comes to is one of some program's tree. -/
theorem exists_program_of_knows {sources : List String} {source : String} {e node : Expr}
    (hs : s.machine.store.Orderly (.ofPrograms sources)) (hparse : Expr.parse source = .ok e)
    (h : s.machine.store.Knows e globals node) :
    ∃ text ∈ source :: sources, ∃ program, Expr.parse text = .ok program ∧
      program.Contains node := by
  rcases h with h | ⟨r, c, -, hc, h⟩
  · exact ⟨source, List.mem_cons_self, e, hparse, h⟩
  · obtain ⟨-, text, htext, program, hprogram, hbody⟩ := hs.body_of_closure? hc
    exact ⟨text, List.mem_cons_of_mem _ htext, program, hprogram, hbody.trans h⟩

/-- **Operators are not first-class.** Take a session that has evaluated any programs, from its
beginning, and one more program. The primitives that scopes and arrays hold have a name, before
this program, behind it and at every point of its evaluation; so has a primitive that is its
value. If the program fails because of a wrong number of arguments, the error comes from a call
that one of the programs writes with parentheses, and has its place: there is a point of the
evaluation at which the node of this call raised it. -/
theorem operators_are_not_first_class (sink : Sink) (sources : List String) (source : String) :
    (after sink sources).machine.store.HoldsNamed ∧
    ((after sink sources).evaluate source).2.machine.store.HoldsNamed ∧
    (∀ p, ((after sink sources).evaluate source).1 = .ok (.primitive p) → p ∈ Primitive.named) ∧
    (∀ e q, Expr.parse source = .ok e →
      Relation.ReflTransGen Point.Enters ((after sink sources).start e) q →
      q.machine.store.HoldsNamed ∧ q.final.store.HoldsNamed) ∧
    (∀ err, ((after sink sources).evaluate source).1 = .error (.runtime err) →
      err.fault.kind = .arity →
      ∃ text ∈ source :: sources, ∃ callee args pos, err.pos = some pos ∧
        Grammar.WrittenCall (scan text).tokens callee args pos ∧
        ∃ e q scope, Expr.parse source = .ok e ∧
          Relation.ReflTransGen Point.Enters ((after sink sources).start e) q ∧
          q.task = .expr (.apply callee args pos) scope ∧ q.Raises err) := by
  have hafter := orderly_after sink sources
  have hmore : (after sink sources).machine.store.Orderly (.ofPrograms (source :: sources)) :=
    hafter.mono (List.subset_cons_self _ _)
  obtain ⟨hstore, hvalue⟩ := orderly_evaluate List.mem_cons_self hmore
  refine ⟨hafter.holdsNamed, hstore.holdsNamed, fun p hp => hvalue _ hp, ?_, ?_⟩
  · intro e q hparse hpath
    have hstart : Point.Orderly (.ofPrograms (source :: sources)) ((after sink sources).start e) :=
      ⟨.inl (Trees.mem_ofPrograms hparse List.mem_cons_self), hmore⟩
    have hq := hstart.of_enters hpath
    exact ⟨hq.store.holdsNamed, hq.final.holdsNamed⟩
  · intro err hanswer hkind
    rw [evaluate] at hanswer
    split at hanswer
    · next e hparse =>
      have hfails := fails_of_evaluateExpr (reachable_after sink sources) hanswer
      obtain ⟨q, hpath, hraises⟩ := Point.exists_raises hfails fun hcall => by cases hcall
      obtain ⟨node, scope, -, htask, -⟩ := hraises.blamed
      -- the node may be in a function of an earlier program, whose tokens then have the call
      obtain ⟨text, htext, program, hprogram, hcontains⟩ :=
        exists_program_of_knows hafter hparse (Point.knows_of_enters hpath htask)
      have hnode := (Expr.wellFormed_of_parse hprogram).contains hcontains
      obtain ⟨callee, args, pos, rfl, hcallee, hpos⟩ := hraises.call_of_arity hkind htask hnode
      have hwritten := (Expr.derives_of_parse hprogram).callsWritten (List.infix_refl _)
      exact ⟨text, htext, callee, args, pos, hpos, hwritten callee args pos hcontains hcallee,
        e, q, scope, hparse, hpath, htask, hraises⟩
    · cases hanswer

end Session

end CalcScript

/-
`Proofs/Exits.lean` -- labels and exits over a whole session.

Between two evaluations no block run is in progress, so no label is active: that
is what `Store.Tracks []` says, and every request to a session keeps it. From
there `Proofs/Activations.lean` covers every moment of the next evaluation. The
host may build arrays, functions and scopes of its own and hand them in; it makes
no labels.
-/
import CalcScript.Proofs.Activations
import CalcScript.Proofs.Faults

set_option autoImplicit false

namespace CalcScript

open Eval

/-! ## 1. Sessions and the points of their evaluations -/

namespace Session

/-- The sessions that a host can come to: it evaluates programs and trees, calls
values and binds global variables, in any order, and in between changes anything
but the labels. -/
inductive Reachable : Session → Prop
  | new (sink : Sink) : Reachable (new sink)
  | evaluate {s : Session} (source : String) : Reachable s → Reachable (s.evaluate source).2
  | evaluateExpr {s : Session} (e : Expr) : Reachable s → Reachable (s.evaluateExpr e).2
  | call {s : Session} (callee : Value) (args : List Value) :
    Reachable s → Reachable (s.call callee args).2
  | define {s : Session} (name : String) (value : Value) :
    Reachable s → Reachable (s.define name value)
  | host {s s' : Session} :
    Reachable s → s.machine.store.SameLabels s'.machine.store → Reachable s'

/-- The point at which an evaluation of a session starts, within any depth. -/
inductive Starts (s : Session) : Point → Prop
  | expr (e : Expr) (n : Nat) : Starts s ⟨.expr e globals, n, s.machine, []⟩
  | call (callee : Value) (args : List Value) (n : Nat) :
    Starts s ⟨.call callee args, n, s.machine, []⟩

/-- The points that the evaluations of a session come to. -/
def Visits (s : Session) (p : Point) : Prop :=
  ∃ start, s.Starts start ∧ Relation.ReflTransGen Point.Enters start p

/-- What a session answers to a program, a tree or a call, and the session behind
the answer. -/
inductive Answers (s : Session) : Except Error Value → Session → Prop
  | evaluate (source : String) : Answers s (s.evaluate source).1 (s.evaluate source).2
  | evaluateExpr (e : Expr) : Answers s (s.evaluateExpr e).1 (s.evaluateExpr e).2
  | call (callee : Value) (args : List Value) :
    Answers s (s.call callee args).1 (s.call callee args).2

end Session

/-! ## 2. No label is active between evaluations -/

namespace Session

variable {s s' : Session} {p : Point}

theorem finish_of_ok {x : Eval Value} {value : Value} {m : Machine}
    (h : x s.machine = .ok value m) : s.finish x =
      ((m.sink.flush.1.mapError .flush).bind fun _ => .ok value, ⟨m.store, m.sink.flush.2⟩) := by
  rw [finish, h]

theorem finish_of_error {x : Eval Value} {signal : Signal} {m : Machine}
    (h : x s.machine = .error signal m) : s.finish x =
      ((m.sink.flush.1.mapError .flush).bind fun _ => .error signal.toError,
        ⟨m.store, m.sink.flush.2⟩) := by
  rw [finish, h]

/-- Behind a flush the answer is the one before, or the error of the flush. -/
theorem answer_of_flushed {flushed : Except String Unit} {r answer : Except Error Value}
    (h : ((flushed.mapError .flush).bind fun _ => r) = answer) :
    r = answer ∨ ∃ reason, answer = .error (.flush reason) := by
  cases flushed with
  | ok => exact .inl h
  | error reason => exact .inr ⟨reason, h.symm⟩

theorem finish_settles {x : Eval Value} (hx : Settled x) (s : Session) :
    s.machine.store.Settles (s.finish x).2.machine.store := by
  cases h : x s.machine with
  | ok value m =>
    have hsettles := hx.ok h
    rw [finish_of_ok h]
    exact hsettles
  | error signal m =>
    have hsettles := hx.error h
    rw [finish_of_error h]
    exact hsettles

/-- After any history no label is active. -/
theorem Reachable.tracks_nil (h : s.Reachable) : s.machine.store.Tracks [] := by
  induction h with
  | new sink =>
    -- a new session has no labels at all
    have hlabels : (Session.new sink).machine.store.labels = #[] := rfl
    refine Store.Tracks.nil_iff.mpr fun l hl => ?_
    rw [hlabels] at hl
    cases hl with | mk h => cases h
  | @evaluate s source _ ih =>
    unfold Session.evaluate
    split
    · exact ih.of_settles (finish_settles (eval_settled _ _ _) s)
    · exact ih
  | @evaluateExpr s e _ ih => exact ih.of_settles (finish_settles (eval_settled _ _ _) s)
  | @call s callee args _ ih => exact ih.of_settles (finish_settles (applyValue_settled _ _ _) s)
  | define name value _ ih => exact ih.of_settles (.of_labels_eq rfl rfl)
  | host _ hsame ih => exact ih.of_settles (.of_labels_eq hsame.1 hsame.2)

theorem Answers.reachable {r : Except Error Value} (h : s.Answers r s') (hs : s.Reachable) :
    s'.Reachable := by
  cases h with
  | evaluate source => exact hs.evaluate source
  | evaluateExpr e => exact hs.evaluateExpr e
  | call callee args => exact hs.call callee args

/-! ## 3. Every moment of an evaluation -/

theorem Visits.tracked (h : s.Visits p) (hs : s.machine.store.Tracks []) : p.Tracked := by
  obtain ⟨start, hstart, hpath⟩ := h
  induction hpath with
  | refl => cases hstart <;> exact hs
  | tail _ henters ih => exact henters.tracked ih

/-- The runs in progress all belong to the evaluation going on: their labels are
younger than the session they started from. -/
theorem Visits.size_le (h : s.Visits p) :
    s.machine.store.labels.size ≤ p.machine.store.labels.size ∧
    ∀ r ∈ p.running, s.machine.store.labels.size ≤ r.index := by
  obtain ⟨start, hstart, hpath⟩ := h
  induction hpath with
  | refl => cases hstart <;> exact ⟨Nat.le_refl _, fun r hr => nomatch hr⟩
  | @tail p q _ henters ih =>
    obtain ⟨hsize, hindex⟩ := ih
    rcases henters.running_cases with ⟨hrunning, hsettles⟩ | ⟨name, body, scope, n, -, -, rfl⟩
    · rw [hrunning]
      exact ⟨Nat.le_trans hsize hsettles.size_le, hindex⟩
    · -- the new run has the next free place, which is behind all that were there
      refine ⟨?_, fun r hr => ?_⟩
      · rw [p.machine.enterBlock_labels, Array.size_push]
        omega
      · rcases List.mem_cons.mp hr with hr | hr
        · rw [hr]
          exact hsize
        · exact hindex r hr

/-- A label that the session had before is dead at every point of an evaluation. -/
theorem Visits.exitTo_eq (h : s.Visits p) (hs : s.machine.store.Tracks []) {r : LabelRef}
    (hr : r.index < s.machine.store.labels.size) (args : List Value) :
    exitTo r args p.machine = .error (.error ⟨.deadLabel, none⟩) p.machine := by
  obtain ⟨-, hindex⟩ := h.size_le
  have hdead : ¬ ∃ l, p.machine.store.label? r = some l ∧ l.active = true := by
    rw [(h.tracked hs).active_iff r]
    intro hmem
    have hle := hindex r hmem
    omega
  rw [Settled.exitTo_eq]
  cases hl : p.machine.store.label? r with
  | none => rfl
  | some l =>
    cases hactive : l.active with
    | true => exact absurd ⟨l, hl, hactive⟩ hdead
    | false => simp only [hactive]; rfl

end Session

/-! ## 4. No exit is left over -/

namespace Eval

/-- The evaluation does not itself report an exit that met no block run. -/
def NoStray {α : Type} (x : Eval α) : Prop :=
  ∀ m m' id pos, x m ≠ .error (.error ⟨.strayExit id, pos⟩) m'

variable {α β : Type}

/-- An exit would go to an active label. -/
theorem Settled.ne_exit {x : Eval α} (hx : Settled x) {m : Machine} (hm : m.store.Tracks [])
    (id : Nat) (v : Value) (m' : Machine) : x m ≠ .error (.exit id v) m' := by
  intro h
  obtain ⟨r, l, hl, hactive, -⟩ := hx.exit h
  exact List.not_mem_nil ((hm.active_iff r).mp ⟨l, hl, hactive⟩)

theorem NoStray.bind {x : Eval α} {f : α → Eval β} (hx : NoStray x) (hf : ∀ a, NoStray (f a)) :
    NoStray (x >>= f) := by
  intro m m' id pos h
  rcases bind_eq_error h with h | ⟨a, m₁, -, h⟩
  · exact hx m m' id pos h
  · exact hf a m₁ m' id pos h

theorem NoStray.get : NoStray (MonadState.get : Eval Machine) := fun _ _ _ _ h => nomatch h

theorem NoStray.lookup (name : String) (pos : Position) (scope : ScopeRef) :
    NoStray (Eval.lookup name pos scope) := by
  refine NoStray.get.bind fun m => ?_
  cases m.store.lookup? scope name with
  | some value => exact fun _ _ _ _ h => nomatch h
  | none => exact fun _ _ _ _ h => nomatch h

theorem NoStray.assign (name : String) (value : Value) (pos : Position) (scope : ScopeRef) :
    NoStray (Eval.assign name value pos scope) := by
  refine NoStray.get.bind fun m => ?_
  cases m.store.resolve? scope name with
  | some owner => exact fun _ _ _ _ h => nomatch h
  | none => exact fun _ _ _ _ h => nomatch h

theorem NoStray.callPrimitive (p : Primitive) (args : List Value) :
    NoStray (Eval.callPrimitive p args) := by
  intro m m' id pos h
  unfold Eval.callPrimitive at h
  split at h <;> cases h
  next hcall =>
    have hfault := Primitive.isOperational_of_call (congrArg Prod.fst hcall)
    cases hfault

theorem NoStray.exitTo (r : LabelRef) (args : List Value) : NoStray (Eval.exitTo r args) := by
  intro m m' id pos h
  rw [Settled.exitTo_eq] at h
  split at h
  · split at h
    · split at h <;> cases h
    · cases h
  · cases h

theorem NoStray.locating (pos : Position) {x : Eval Value} (hx : NoStray x) :
    NoStray (Eval.locating pos x) := by
  intro m m' id pos' h
  unfold Eval.locating at h
  split at h
  · next e m₁ hm =>
    obtain ⟨fault, place⟩ := e
    cases h
    exact hx m m' id place hm
  · exact hx m m' id pos' h

theorem NoStray.inBlock (name : Option String) (scope : ScopeRef) {body : ScopeRef → Eval Value}
    (hbody : ∀ inner, NoStray (body inner)) : NoStray (Eval.inBlock name scope body) := by
  intro m m' id pos h
  rw [inBlock_eq] at h
  split at h
  · cases h
  · split at h <;> cases h
  · next hm =>
    cases h
    exact hbody _ _ _ id pos hm

theorem closed_noStray : Closed @NoStray where
  pure _ := fun _ _ _ _ h => nomatch h
  bind := .bind
  exhausted := fun _ _ _ _ h => nomatch h
  notCallable _ := fun _ _ _ _ h => nomatch h
  arity _ _ := fun _ _ _ _ h => nomatch h
  get := .get
  lookup := .lookup
  define _ _ _ := fun _ _ _ _ h => nomatch h
  assign := .assign
  newArray _ := fun _ _ _ _ h => nomatch h
  newClosure _ := fun _ _ _ _ h => nomatch h
  newScope _ _ := fun _ _ _ _ h => nomatch h
  callPrimitive := .callPrimitive
  exitTo := .exitTo
  locating := .locating
  inBlock := .inBlock

end Eval

namespace Session

variable {s s' : Session} {p : Point}

/-- An evaluation that the session finishes has no exit left over. -/
theorem finish_ne_strayExit {x : Eval Value} (hsettled : Settled x) (hstray : NoStray x)
    (hs : s.machine.store.Tracks []) (id : Nat) (pos : Option Position) :
    (s.finish x).1 ≠ .error (.runtime ⟨.strayExit id, pos⟩) := by
  intro hfinish
  cases h : x s.machine with
  | ok value m =>
    rw [finish_of_ok h] at hfinish
    rcases answer_of_flushed hfinish with hanswer | ⟨reason, hanswer⟩ <;> cases hanswer
  | error signal m =>
    rw [finish_of_error h] at hfinish
    rcases answer_of_flushed hfinish with hanswer | ⟨reason, hanswer⟩
    · cases signal with
      | error e => cases hanswer; exact hstray s.machine m id pos h
      | exit label value => exact hsettled.ne_exit hs label value m h
      | exhausted => cases hanswer
    · cases hanswer

theorem Answers.ne_strayExit {r : Except Error Value} (h : s.Answers r s')
    (hs : s.machine.store.Tracks []) (id : Nat) (pos : Option Position) :
    r ≠ .error (.runtime ⟨.strayExit id, pos⟩) := by
  have hexpr : ∀ e, (s.evaluateExpr e).1 ≠ .error (.runtime ⟨.strayExit id, pos⟩) := fun e =>
    finish_ne_strayExit (eval_settled _ e _) ((closed_noStray.within _).1 e _) hs id pos
  cases h with
  | evaluate source =>
    unfold Session.evaluate
    split
    · exact hexpr _
    · exact fun h => nomatch h
  | evaluateExpr e => exact hexpr e
  | call callee args =>
    exact finish_ne_strayExit (applyValue_settled _ _ _)
      ((closed_noStray.within _).2.2.2 callee args) hs id pos

/-! ## 5. Exits land on their own block run -/

/-- **Exits land on their own block run.** At every point `p` of every evaluation of a
session, whatever came before:

* the active labels are those of the block runs in progress, with pairwise distinct
  numbers below the counter, at the start of the evaluation and at its end;
* if it ends with an exit, this was raised by applying the label of a run that was
  already in progress at its start;
* an exit out of an evaluation inside it is taken by the run that made the label, and
  by nothing else.

No answer of the session reports a stray exit. Behind every answer no label is active,
and all labels made so far are dead wherever a later evaluation applies them. -/
theorem exits_land_on_their_run (hs : s.Reachable) :
    (∀ p, s.Visits p →
      p.machine.store.Tracks p.running ∧
      p.final.store.Tracks p.running ∧
      (∀ id v, p.Exits id v → ∃ r ∈ p.running, p.LeftBy r v ∧
        ∃ l, p.machine.store.label? r = some l ∧ l.id = id) ∧
      (∀ q r v, p.Enters q → q.LeftBy r v →
        (q.running = r :: p.running → ∃ m, p.result = .ok [v] m) ∧
        (q.running ≠ r :: p.running → p.LeftBy r v))) ∧
    (∀ answer s', s.Answers answer s' →
      (∀ id pos, answer ≠ .error (.runtime ⟨.strayExit id, pos⟩)) ∧
      (∀ l ∈ s'.machine.store.labels, l.active = false) ∧
      (∀ p r args n, s'.Visits p → r.index < s'.machine.store.labels.size →
        applyValue (n + 1) (.label r) args p.machine
          = .error (.error ⟨.deadLabel, none⟩) p.machine)) := by
  refine ⟨fun p hp => ?_, fun answer s' hanswer => ?_⟩
  · have htracked : p.Tracked := hp.tracked hs.tracks_nil
    refine ⟨htracked, htracked.final, fun id v hexits => ?_, fun q r v henters hq => ⟨?_, ?_⟩⟩
    · -- the number of an exit is that of the label it was raised through
      obtain ⟨r, hr⟩ := Point.exists_leftBy hexits
      obtain ⟨hmem, l, hl, m, hm⟩ := hr.mem_running htracked
      obtain ⟨m', hm'⟩ := hexits
      rw [hm] at hm'
      cases hm'
      exact ⟨r, hmem, hr, l, hl, rfl⟩
    · exact henters.ok_of_leftBy htracked hq
    · exact henters.leftBy_of_leftBy htracked hq
  · have hs' : s'.machine.store.Tracks [] := (hanswer.reachable hs).tracks_nil
    refine ⟨hanswer.ne_strayExit hs.tracks_nil, Store.Tracks.nil_iff.mp hs', ?_⟩
    intro p r args n hp hr
    exact hp.exitTo_eq hs' hr args

/-- A block inside a block of the same name, left through the inner label. Both runs
are over afterwards and both labels are dead. -/
theorem exits_land_in_nested_blocks :
    let s := Session.new .unlimited
    let leave : Expr := .apply (.var "out" .start) [] .start
    let after := (s.evaluateExpr (.block (some "out") (.block (some "out") leave))).2
    s.Reachable ∧ after.machine.store.labels.size = 2 ∧
    ∀ i < 2, applyValue 1 (.label ⟨i⟩) [] after.machine
      = .error (.error ⟨.deadLabel, none⟩) after.machine := by
  intro s leave after
  have hs : s.Reachable := .new .unlimited
  have hsize : after.machine.store.labels.size = 2 := by decide +kernel
  refine ⟨hs, hsize, fun i hi => ?_⟩
  have hdead := ((exits_land_on_their_run hs).2 _ after (.evaluateExpr _)).2.2
  exact hdead ⟨.call .null [], 0, after.machine, []⟩ ⟨i⟩ [] 0 ⟨_, .call .null [] 0, .refl⟩
    (by rw [hsize]; exact hi)

end Session

end CalcScript

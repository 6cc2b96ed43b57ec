/-
`Proofs/Activations.lean` -- block runs in progress, and where exits go.

A label is active from the moment its block run begins to the moment it ends. To
say so of every moment of an evaluation, this file follows the evaluator through
its own recursion: a `Point` is the start of one evaluation inside another, with
the machine at that time and the block runs that are then in progress, innermost
first, and `Point.Enters` has one rule for each place where an evaluation starts
another one.

The invariant is `Store.Tracks`: the active labels are those of the block runs in
progress. It holds at the start and at the end of every evaluation that a session
makes. Exits are then traced back: one that leaves an evaluation comes from an
application of some label inside (`Point.LeftBy`), and it travels outwards up to
the run of the very block that made this label.
-/
import CalcScript.Proofs.Labels
import Mathlib.Data.List.Pairwise
import Mathlib.Logic.Relation
import Mathlib.Tactic.ByContra

set_option autoImplicit false

namespace CalcScript

open Eval

/-! ## 1. Evaluations inside evaluations -/

/-- What an evaluation is asked to do. -/
inductive Task where
  | expr (e : Expr) (scope : ScopeRef)
  | exprs (es : List Expr) (scope : ScopeRef)
  /-- the turns of a loop, from one of them on -/
  | turns (condition body : Expr) (scope : ScopeRef)
  | call (callee : Value) (args : List Value)

/-- The evaluator on a task, with the values as a list. -/
def Task.run : Task → Nat → Eval (List Value)
  | .expr e scope, n => do return [← eval n e scope]
  | .exprs es scope, n => evalAll n es scope
  | .turns condition body scope, n => do return [← evalLoop n condition body scope]
  | .call callee args, n => do return [← applyValue n callee args]

/-- The start of an evaluation. -/
structure Point where
  task : Task
  depth : Nat
  machine : Machine
  /-- the labels of the block runs in progress, innermost first -/
  running : List LabelRef

namespace Point

def result (p : Point) : EStateM.Result Signal Machine (List Value) :=
  p.task.run p.depth p.machine

/-- The machine at the end of the evaluation. -/
def final (p : Point) : Machine :=
  match p.result with
  | .ok _ m => m
  | .error _ m => m

/-- The evaluation ends with an exit. -/
def Exits (p : Point) (id : Nat) (v : Value) : Prop :=
  ∃ m, p.result = .error (.exit id v) m

end Point

/-- The scope and the machine that the body of a called function starts with. -/
def Machine.enterCall (m : Machine) (c : Closure) (args : List Value) : ScopeRef × Machine :=
  let (inner, store) := m.store.newScope (some c.scope) (frame c.params args)
  (inner, ⟨store, m.sink⟩)

/-- The evaluation at the first point starts the one at the second. Only a block
adds to the runs in progress. -/
inductive Point.Enters : Point → Point → Prop
  | array {items scope n m rs} :
    Enters ⟨.expr (.array items) scope, n + 1, m, rs⟩ ⟨.exprs items scope, n, m, rs⟩
  | store {name value scope n m rs} :
    Enters ⟨.expr (.store name value) scope, n + 1, m, rs⟩ ⟨.expr value scope, n, m, rs⟩
  | update {name value pos scope n m rs} :
    Enters ⟨.expr (.update name value pos) scope, n + 1, m, rs⟩ ⟨.expr value scope, n, m, rs⟩
  | first {first rest scope n m rs} :
    Enters ⟨.expr (.seq first rest) scope, n + 1, m, rs⟩ ⟨.expr first scope, n, m, rs⟩
  | rest {first rest scope n m rs v m₁} (hfirst : eval n first scope m = .ok v m₁) :
    Enters ⟨.expr (.seq first rest) scope, n + 1, m, rs⟩ ⟨.expr rest scope, n, m₁, rs⟩
  | andLeft {left right scope n m rs} :
    Enters ⟨.expr (.and left right) scope, n + 1, m, rs⟩ ⟨.expr left scope, n, m, rs⟩
  | andRight {left right scope n m rs v m₁} (hleft : eval n left scope m = .ok v m₁)
      (htruthy : m₁.store.truthy v = true) :
    Enters ⟨.expr (.and left right) scope, n + 1, m, rs⟩ ⟨.expr right scope, n, m₁, rs⟩
  | orLeft {left right scope n m rs} :
    Enters ⟨.expr (.or left right) scope, n + 1, m, rs⟩ ⟨.expr left scope, n, m, rs⟩
  | orRight {left right scope n m rs v m₁} (hleft : eval n left scope m = .ok v m₁)
      (htruthy : m₁.store.truthy v = false) :
    Enters ⟨.expr (.or left right) scope, n + 1, m, rs⟩ ⟨.expr right scope, n, m₁, rs⟩
  | condition {condition consequent alternate scope n m rs} :
    Enters ⟨.expr (.cond condition consequent alternate) scope, n + 1, m, rs⟩
      ⟨.expr condition scope, n, m, rs⟩
  | consequent {condition consequent alternate scope n m rs v m₁}
      (hcondition : eval n condition scope m = .ok v m₁) (htruthy : m₁.store.truthy v = true) :
    Enters ⟨.expr (.cond condition consequent alternate) scope, n + 1, m, rs⟩
      ⟨.expr consequent scope, n, m₁, rs⟩
  | alternate {condition consequent alternate scope n m rs v m₁}
      (hcondition : eval n condition scope m = .ok v m₁) (htruthy : m₁.store.truthy v = false) :
    Enters ⟨.expr (.cond condition consequent alternate) scope, n + 1, m, rs⟩
      ⟨.expr alternate scope, n, m₁, rs⟩
  | loop {condition body scope n m rs} :
    Enters ⟨.expr (.loop condition body) scope, n + 1, m, rs⟩
      ⟨.turns condition body scope, n, m, rs⟩
  | callee {callee args pos scope n m rs} :
    Enters ⟨.expr (.apply callee args pos) scope, n + 1, m, rs⟩ ⟨.expr callee scope, n, m, rs⟩
  | arguments {callee args pos scope n m rs v m₁} (hcallee : eval n callee scope m = .ok v m₁) :
    Enters ⟨.expr (.apply callee args pos) scope, n + 1, m, rs⟩ ⟨.exprs args scope, n, m₁, rs⟩
  | application {callee args pos scope n m rs v m₁ vs m₂}
      (hcallee : eval n callee scope m = .ok v m₁) (hargs : evalAll n args scope m₁ = .ok vs m₂) :
    Enters ⟨.expr (.apply callee args pos) scope, n + 1, m, rs⟩ ⟨.call v vs, n, m₂, rs⟩
  | block {name body scope n m rs} :
    Enters ⟨.expr (.block name body) scope, n + 1, m, rs⟩
      ⟨.expr body (m.enterBlock name scope).1, n, (m.enterBlock name scope).2,
        m.store.nextRef :: rs⟩
  | head {e es scope n m rs} :
    Enters ⟨.exprs (e :: es) scope, n + 1, m, rs⟩ ⟨.expr e scope, n, m, rs⟩
  | tail {e es scope n m rs v m₁} (hhead : eval n e scope m = .ok v m₁) :
    Enters ⟨.exprs (e :: es) scope, n + 1, m, rs⟩ ⟨.exprs es scope, n, m₁, rs⟩
  | test {condition body scope n m rs} :
    Enters ⟨.turns condition body scope, n + 1, m, rs⟩ ⟨.expr condition scope, n, m, rs⟩
  | turn {condition body scope n m rs v m₁} (htest : eval n condition scope m = .ok v m₁)
      (htruthy : m₁.store.truthy v = true) :
    Enters ⟨.turns condition body scope, n + 1, m, rs⟩ ⟨.expr body scope, n, m₁, rs⟩
  | again {condition body scope n m rs v m₁ w m₂} (htest : eval n condition scope m = .ok v m₁)
      (htruthy : m₁.store.truthy v = true) (hturn : eval n body scope m₁ = .ok w m₂) :
    Enters ⟨.turns condition body scope, n + 1, m, rs⟩ ⟨.turns condition body scope, n, m₂, rs⟩
  | body {r args n m rs c} (hclosure : m.store.closure? r = some c)
      (hlength : c.params.length = args.length) :
    Enters ⟨.call (.closure r) args, n + 1, m, rs⟩
      ⟨.expr c.body (m.enterCall c args).1, n, (m.enterCall c args).2, rs⟩

theorem applyValue_closure {r : ClosureRef} {args : List Value} {m : Machine} {c : Closure}
    {n : Nat} (hclosure : m.store.closure? r = some c) (hlength : c.params.length = args.length) :
    applyValue (n + 1) (.closure r) args m
      = eval n c.body (m.enterCall c args).1 (m.enterCall c args).2 := by
  have hget : (get : Eval Machine) m = .ok m m := rfl
  rw [applyValue, bind_of_ok hget]
  simp only [hclosure, hlength, if_true]
  rfl

/-! ## 2. The invariant -/

/-- Two labels have different numbers. -/
def Store.Apart (s : Store) (r₁ r₂ : LabelRef) : Prop :=
  ∀ l₁ l₂, s.label? r₁ = some l₁ → s.label? r₂ = some l₂ → l₁.id ≠ l₂.id

instance (s : Store) : Std.Symm s.Apart :=
  ⟨fun _ _ h l₁ l₂ hl₁ hl₂ heq => h l₂ l₁ hl₂ hl₁ heq.symm⟩

/-- The active labels are those of the runs in progress, whose numbers are pairwise
distinct and have all been given out. -/
structure Store.Tracks (s : Store) (running : List LabelRef) : Prop where
  active_iff (r : LabelRef) : (∃ l, s.label? r = some l ∧ l.active = true) ↔ r ∈ running
  distinct : running.Pairwise s.Apart
  below : ∀ r ∈ running, ∀ l, s.label? r = some l → l.id < s.nextLabel

namespace Store.Tracks

variable {s s' : Store} {running : List LabelRef}

theorem exists_label (h : s.Tracks running) {r : LabelRef} (hr : r ∈ running) :
    ∃ l, s.label? r = some l ∧ l.active = true :=
  (h.active_iff r).mpr hr

/-- With nothing in progress, tracking says that no label is active. -/
theorem nil_iff : s.Tracks [] ↔ ∀ l ∈ s.labels, l.active = false := by
  constructor
  · intro h l hl
    obtain ⟨i, hi⟩ := Array.mem_iff_getElem?.mp hl
    by_contra hne
    have hmem := (h.active_iff ⟨i⟩).mp ⟨l, hi, by simpa using hne⟩
    cases hmem
  · intro h
    refine ⟨fun r => ⟨?_, fun hr => nomatch hr⟩, List.Pairwise.nil, fun r hr => nomatch hr⟩
    rintro ⟨l, hl, hactive⟩
    rw [h l (Array.mem_of_getElem? hl)] at hactive
    cases hactive

/-- Two runs in progress with one number are one run. -/
theorem eq_of_id_eq (h : s.Tracks running) {r₁ r₂ : LabelRef} {l₁ l₂ : Label}
    (h₁ : r₁ ∈ running) (h₂ : r₂ ∈ running) (hl₁ : s.label? r₁ = some l₁)
    (hl₂ : s.label? r₂ = some l₂) (hid : l₁.id = l₂.id) : r₁ = r₂ := by
  by_contra hne
  exact h.distinct.forall h₁ h₂ hne l₁ l₂ hl₁ hl₂ hid

/-- Settling changes nothing about the runs in progress. -/
theorem of_settles (h : s.Tracks running) (hs : s.Settles s') : s'.Tracks running := by
  -- a run in progress has its label already, so settling has not added it
  have hback : ∀ r ∈ running, ∀ l, s'.label? r = some l → s.label? r = some l := by
    intro r hr l hl
    obtain ⟨l₀, hl₀, -⟩ := h.exists_label hr
    rwa [← hs.label?_of_lt (label?_lt hl₀)]
  refine ⟨fun r => ⟨?_, ?_⟩, ?_, ?_⟩
  · rintro ⟨l, hl, hactive⟩
    exact (h.active_iff r).mp ⟨l, hs.label?_of_active hl hactive, hactive⟩
  · intro hr
    obtain ⟨l, hl, hactive⟩ := h.exists_label hr
    exact ⟨l, hs.label? hl, hactive⟩
  · refine h.distinct.imp_of_mem ?_
    intro r₁ r₂ hr₁ hr₂ hne l₁ l₂ hl₁ hl₂
    exact hne l₁ l₂ (hback r₁ hr₁ l₁ hl₁) (hback r₂ hr₂ l₂ hl₂)
  · intro r hr l hl
    have hlt := h.below r hr l (hback r hr l hl)
    have hle := hs.1
    omega

theorem nextRef_notMem (h : s.Tracks running) : s.nextRef ∉ running := by
  intro hr
  obtain ⟨l, hl, -⟩ := h.exists_label hr
  exact Nat.lt_irrefl _ (label?_lt hl)

end Store.Tracks

/-- A block run joins the runs in progress when its body starts. Its number is
fresh because all others are below the counter. -/
theorem Store.Tracks.enterBlock {m : Machine} {running : List LabelRef}
    (h : m.store.Tracks running) (name : Option String) (scope : ScopeRef) :
    (m.enterBlock name scope).2.store.Tracks (m.store.nextRef :: running) := by
  have hnew := h.nextRef_notMem
  have hold : ∀ r ∈ running, (m.enterBlock name scope).2.store.label? r = m.store.label? r := by
    intro r hr
    have hne : r ≠ m.store.nextRef := fun heq => hnew (heq ▸ hr)
    rw [m.enterBlock_label?, if_neg hne]
  have hown : (m.enterBlock name scope).2.store.label? m.store.nextRef
      = some ⟨m.store.nextLabel, name, true⟩ := by
    rw [m.enterBlock_label?, if_pos rfl]
  refine ⟨fun r => ?_, List.pairwise_cons.mpr ⟨?_, ?_⟩, ?_⟩
  · -- the labels of the running blocks are the active ones
    by_cases hr : r = m.store.nextRef
    · subst hr
      simp [hown]
    · rw [m.enterBlock_label?, if_neg hr, h.active_iff r]
      simp [hr]
  · -- the new number is larger than those of all running blocks
    intro r hr l₁ l₂ hl₁ hl₂
    rw [hown] at hl₁
    rw [hold r hr] at hl₂
    cases hl₁
    have hlt := h.below r hr l₂ hl₂
    exact fun heq => Nat.lt_irrefl _ (heq ▸ hlt)
  · refine h.distinct.imp_of_mem ?_
    intro r₁ r₂ hr₁ hr₂ hne
    rw [Store.Apart, hold r₁ hr₁, hold r₂ hr₂]
    exact hne
  · -- and it is below the next one
    intro r hr l hl
    rw [m.enterBlock_nextLabel]
    rcases List.mem_cons.mp hr with hr | hr
    · rw [hr, hown] at hl
      cases hl
      exact Nat.lt_succ_self _
    · rw [hold r hr] at hl
      have hlt := h.below r hr l hl
      omega

/-! ## 3. The invariant at every point -/

theorem Task.run_settled (t : Task) (n : Nat) : Settled (t.run n) := by
  cases t with
  | expr e scope => exact (eval_settled n e scope).bind fun _ => .pure _
  | exprs es scope => exact evalAll_settled n es scope
  | turns condition body scope =>
    exact (evalLoop_settled n condition body scope).bind fun _ => .pure _
  | call callee args => exact (applyValue_settled n callee args).bind fun _ => .pure _

namespace Point

variable {p q : Point}

theorem settles_final (p : Point) : p.machine.store.Settles p.final.store := by
  cases h : p.result with
  | ok vs m =>
    rw [final, h]
    exact (p.task.run_settled p.depth).ok h
  | error signal m =>
    rw [final, h]
    exact (p.task.run_settled p.depth).error h

/-- What an evaluation can have done before it starts another: either labels have
settled and the runs in progress are the same, or it is a block that starts its
body. -/
theorem Enters.running_cases (h : p.Enters q) :
    (q.running = p.running ∧ p.machine.store.Settles q.machine.store) ∨
    (∃ name body scope n, p.task = .expr (.block name body) scope ∧ p.depth = n + 1 ∧
      q = ⟨.expr body (p.machine.enterBlock name scope).1, n, (p.machine.enterBlock name scope).2,
        p.machine.store.nextRef :: p.running⟩) := by
  cases h with
  | block => exact .inr ⟨_, _, _, _, rfl, rfl, rfl⟩
  -- all others start in the machine that the parts evaluated before have left
  | rest hfirst => exact .inl ⟨rfl, (eval_settled _ _ _).ok hfirst⟩
  | andRight hleft _ => exact .inl ⟨rfl, (eval_settled _ _ _).ok hleft⟩
  | orRight hleft _ => exact .inl ⟨rfl, (eval_settled _ _ _).ok hleft⟩
  | consequent hcondition _ => exact .inl ⟨rfl, (eval_settled _ _ _).ok hcondition⟩
  | alternate hcondition _ => exact .inl ⟨rfl, (eval_settled _ _ _).ok hcondition⟩
  | arguments hcallee => exact .inl ⟨rfl, (eval_settled _ _ _).ok hcallee⟩
  | application hcallee hargs =>
    exact .inl ⟨rfl, ((eval_settled _ _ _).ok hcallee).trans ((evalAll_settled _ _ _).ok hargs)⟩
  | tail hhead => exact .inl ⟨rfl, (eval_settled _ _ _).ok hhead⟩
  | turn htest _ => exact .inl ⟨rfl, (eval_settled _ _ _).ok htest⟩
  | again htest _ hturn =>
    exact .inl ⟨rfl, ((eval_settled _ _ _).ok htest).trans ((eval_settled _ _ _).ok hturn)⟩
  | body _ _ => exact .inl ⟨rfl, .of_labels_eq rfl rfl⟩
  | _ => exact .inl ⟨rfl, .refl _⟩

/-- The active labels of a point are those of its runs in progress. -/
def Tracked (p : Point) : Prop := p.machine.store.Tracks p.running

theorem Enters.tracked (h : p.Enters q) (hp : p.Tracked) : q.Tracked := by
  rcases h.running_cases with ⟨hrunning, hsettles⟩ | ⟨name, body, scope, n, -, -, rfl⟩
  · rw [Tracked, hrunning]
    exact hp.of_settles hsettles
  · exact hp.enterBlock name scope

theorem Tracked.final (hp : p.Tracked) : p.final.store.Tracks p.running :=
  hp.of_settles p.settles_final

/-- An evaluation that ends with an exit does so to a run that was in progress when
it started. -/
theorem Tracked.exists_of_exits (hp : p.Tracked) {id : Nat} {v : Value} (h : p.Exits id v) :
    ∃ r ∈ p.running, ∃ l, p.machine.store.label? r = some l ∧ l.id = id := by
  obtain ⟨m, hm⟩ := h
  obtain ⟨r, l, hl, hactive, hid⟩ := (p.task.run_settled p.depth).exit hm
  exact ⟨r, (hp.active_iff r).mp ⟨l, hl, hactive⟩, l, hl, hid⟩

end Point

/-! ## 4. Exits on their way out -/

section Singletons

variable {x : Eval Value} {m m' : Machine}

theorem singleton_eq_error {signal : Signal} :
    (do return [← x] : Eval (List Value)) m = .error signal m' ↔ x m = .error signal m' := by
  constructor
  · intro h
    rcases bind_eq_error h with h | ⟨v, m₁, -, h⟩
    · exact h
    · cases h
  · exact bind_of_error

theorem singleton_eq_ok {v : Value} :
    (do return [← x] : Eval (List Value)) m = .ok [v] m' ↔ x m = .ok v m' := by
  constructor
  · intro h
    obtain ⟨w, m₁, h₁, h₂⟩ := bind_eq_ok h
    cases h₂
    exact h₁
  · intro h
    rw [bind_of_ok h]
    rfl

end Singletons

namespace Point

variable {p q : Point} {id n : Nat} {v : Value} {m : Machine} {rs : List LabelRef}

theorem exits_expr {e : Expr} {scope : ScopeRef} :
    Exits ⟨.expr e scope, n, m, rs⟩ id v ↔ ∃ m', eval n e scope m = .error (.exit id v) m' :=
  exists_congr fun _ => singleton_eq_error

theorem exits_exprs {es : List Expr} {scope : ScopeRef} :
    Exits ⟨.exprs es scope, n, m, rs⟩ id v ↔ ∃ m', evalAll n es scope m = .error (.exit id v) m' :=
  Iff.rfl

theorem exits_turns {condition body : Expr} {scope : ScopeRef} :
    Exits ⟨.turns condition body scope, n, m, rs⟩ id v
      ↔ ∃ m', evalLoop n condition body scope m = .error (.exit id v) m' :=
  exists_congr fun _ => singleton_eq_error

theorem exits_call {callee : Value} {args : List Value} :
    Exits ⟨.call callee args, n, m, rs⟩ id v
      ↔ ∃ m', applyValue n callee args m = .error (.exit id v) m' :=
  exists_congr fun _ => singleton_eq_error

/-- A block run takes the exits to its own number and lets all others pass. -/
theorem block_exits_or_ok {name : Option String} {body : Expr} {scope : ScopeRef}
    (h : Exits ⟨.expr body (m.enterBlock name scope).1, n, (m.enterBlock name scope).2,
      m.store.nextRef :: rs⟩ id v) :
    Exits ⟨.expr (.block name body) scope, n + 1, m, rs⟩ id v ∨
    (id = m.store.nextLabel ∧
      ∃ m', result ⟨.expr (.block name body) scope, n + 1, m, rs⟩ = .ok [v] m') := by
  obtain ⟨m', hm'⟩ := exits_expr.mp h
  have hblock : eval (n + 1) (.block name body) scope m
      = if id = m.store.nextLabel then .ok v (m'.leaveBlock m.store.nextRef)
        else .error (.exit id v) (m'.leaveBlock m.store.nextRef) := by
    show inBlock name scope (eval n body) m = _
    rw [inBlock_eq, hm']
  by_cases hid : id = m.store.nextLabel
  · rw [if_pos hid] at hblock
    exact .inr ⟨hid, _, singleton_eq_ok.mpr hblock⟩
  · rw [if_neg hid] at hblock
    exact .inl (exits_expr.mpr ⟨_, hblock⟩)

theorem truthy_of_eq {m : Machine} {v : Value} {b : Bool} (h : m.store.truthy v = b) :
    Eval.truthy v m = .ok b m := by
  rw [← h]
  rfl

theorem locating_of_exit {x : Eval Value} {pos : Position} {m m' : Machine}
    (h : x m = .error (.exit id v) m') : Eval.locating pos x m = .error (.exit id v) m' := by
  rw [Eval.locating, h]

theorem discard_of_ok {x : Eval Value} {m m' : Machine} {v : Value} (h : x m = .ok v m') :
    (discard x : Eval PUnit) m = .ok ⟨⟩ m' := by
  rw [discard_eq_bind, bind_of_ok h]
  rfl

theorem discard_of_error {x : Eval Value} {m m' : Machine} {signal : Signal}
    (h : x m = .error signal m') : (discard x : Eval PUnit) m = .error signal m' := by
  rw [discard_eq_bind, bind_of_error h]

/-- An exit out of an inner evaluation ends the outer one too, unless that is the
run of the block it goes to. -/
theorem Enters.exits_or_caught (h : p.Enters q) (hq : q.Exits id v) :
    p.Exits id v ∨
    (q.running = p.machine.store.nextRef :: p.running ∧ id = p.machine.store.nextLabel ∧
      ∃ m, p.result = .ok [v] m) := by
  cases h with
  | block =>
    rcases block_exits_or_ok hq with h | ⟨hid, h⟩
    · exact .inl h
    · exact .inr ⟨rfl, hid, h⟩
  -- everywhere else the outer evaluation has nothing to do behind the inner one
  | array =>
    obtain ⟨m', hm'⟩ := exits_exprs.mp hq
    exact .inl (exits_expr.mpr ⟨m', bind_of_error hm'⟩)
  | store | update | andLeft | orLeft | condition | callee =>
    obtain ⟨m', hm'⟩ := exits_expr.mp hq
    exact .inl (exits_expr.mpr ⟨m', bind_of_error hm'⟩)
  | first =>
    obtain ⟨m', hm'⟩ := exits_expr.mp hq
    exact .inl (exits_expr.mpr ⟨m', bind_of_error (discard_of_error hm')⟩)
  | rest hfirst =>
    obtain ⟨m', hm'⟩ := exits_expr.mp hq
    exact .inl (exits_expr.mpr ⟨m', (bind_of_ok (discard_of_ok hfirst)).trans hm'⟩)
  | andRight hleft htruthy | orRight hleft htruthy =>
    obtain ⟨m', hm'⟩ := exits_expr.mp hq
    refine .inl (exits_expr.mpr ⟨m', (bind_of_ok hleft).trans ?_⟩)
    exact (bind_of_ok (truthy_of_eq htruthy)).trans (bind_of_error hm')
  | consequent hcondition htruthy | alternate hcondition htruthy =>
    obtain ⟨m', hm'⟩ := exits_expr.mp hq
    refine .inl (exits_expr.mpr ⟨m', (bind_of_ok hcondition).trans ?_⟩)
    exact (bind_of_ok (truthy_of_eq htruthy)).trans hm'
  | loop =>
    obtain ⟨m', hm'⟩ := exits_turns.mp hq
    exact .inl (exits_expr.mpr ⟨m', hm'⟩)
  | arguments hcallee =>
    obtain ⟨m', hm'⟩ := exits_exprs.mp hq
    exact .inl (exits_expr.mpr ⟨m', (bind_of_ok hcallee).trans (bind_of_error hm')⟩)
  | application hcallee hargs =>
    obtain ⟨m', hm'⟩ := exits_call.mp hq
    refine .inl (exits_expr.mpr ⟨m', (bind_of_ok hcallee).trans ?_⟩)
    exact (bind_of_ok hargs).trans (locating_of_exit hm')
  | head =>
    obtain ⟨m', hm'⟩ := exits_expr.mp hq
    exact .inl (exits_exprs.mpr ⟨m', bind_of_error hm'⟩)
  | tail hhead =>
    obtain ⟨m', hm'⟩ := exits_exprs.mp hq
    exact .inl (exits_exprs.mpr ⟨m', (bind_of_ok hhead).trans (bind_of_error hm')⟩)
  | test =>
    obtain ⟨m', hm'⟩ := exits_expr.mp hq
    exact .inl (exits_turns.mpr ⟨m', bind_of_error hm'⟩)
  | turn htest htruthy =>
    obtain ⟨m', hm'⟩ := exits_expr.mp hq
    refine .inl (exits_turns.mpr ⟨m', (bind_of_ok htest).trans ?_⟩)
    exact (bind_of_ok (truthy_of_eq htruthy)).trans (bind_of_error (discard_of_error hm'))
  | again htest htruthy hturn =>
    obtain ⟨m', hm'⟩ := exits_turns.mp hq
    refine .inl (exits_turns.mpr ⟨m', (bind_of_ok htest).trans ?_⟩)
    exact (bind_of_ok (truthy_of_eq htruthy)).trans ((bind_of_ok (discard_of_ok hturn)).trans hm')
  | body hclosure hlength =>
    obtain ⟨m', hm'⟩ := exits_expr.mp hq
    refine .inl (exits_call.mpr ⟨m', ?_⟩)
    rw [applyValue_closure hclosure hlength]
    exact hm'

/-! ## 5. Where exits come from -/

/-- The evaluation is left by applying the label `r`, which carries out `v`: it is
this application itself, or some evaluation it has started was left so and the
exit has passed on. -/
inductive LeftBy : Point → LabelRef → Value → Prop
  | apply {r l args n m rs} (hlabel : m.store.label? r = some l) (hactive : l.active = true)
      (hargs : args.length ≤ 1) : LeftBy ⟨.call (.label r) args, n + 1, m, rs⟩ r (args.headD .null)
  | outer {p q : Point} {r id v} (henters : p.Enters q) (hq : LeftBy q r v)
      (hexits : p.Exits id v) : LeftBy p r v

/-- An inner evaluation has ended with the exit. -/
def InnerExits (p : Point) (id : Nat) (v : Value) : Prop :=
  ∃ q, p.Enters q ∧ q.Exits id v

theorem truthy_bind {β : Type} {f : Bool → Eval β} :
    (Eval.truthy v >>= f) m = f (m.store.truthy v) m := rfl

theorem discard_eq_error {x : Eval Value} {m' : Machine} {signal : Signal}
    (h : (discard x : Eval PUnit) m = .error signal m') : x m = .error signal m' := by
  rw [discard_eq_bind] at h
  rcases bind_eq_error h with h | ⟨_, m₁, -, h⟩
  · exact h
  · cases h

theorem discard_eq_ok {x : Eval Value} {m' : Machine} {u : PUnit}
    (h : (discard x : Eval PUnit) m = .ok u m') : ∃ v, x m = .ok v m' := by
  rw [discard_eq_bind] at h
  obtain ⟨v, m₁, hx, h⟩ := bind_eq_ok h
  cases h
  exact ⟨v, hx⟩

theorem locating_eq_exit {x : Eval Value} {pos : Position} {m' : Machine}
    (h : Eval.locating pos x m = .error (.exit id v) m') : x m = .error (.exit id v) m' := by
  unfold Eval.locating at h
  split at h
  · cases h
  · exact h

theorem lookup_ne_exit {name : String} {pos : Position} {scope : ScopeRef} {m' : Machine} :
    Eval.lookup name pos scope m ≠ .error (.exit id v) m' := by
  rw [Eval.lookup, get_bind]
  cases m.store.lookup? scope name with
  | some value => exact fun h => nomatch h
  | none => exact fun h => nomatch h

theorem assign_ne_exit {name : String} {value : Value} {pos : Position} {scope : ScopeRef}
    {m' : Machine} : Eval.assign name value pos scope m ≠ .error (.exit id v) m' := by
  rw [Eval.assign, get_bind]
  cases m.store.resolve? scope name with
  | some owner => exact fun h => nomatch h
  | none => exact fun h => nomatch h

/-- A tree raises no exit of its own: one that leaves it comes from inside. -/
theorem innerExits_expr {e : Expr} {scope : ScopeRef} {m' : Machine}
    (h : eval (n + 1) e scope m = .error (.exit id v) m') :
    InnerExits ⟨.expr e scope, n + 1, m, rs⟩ id v := by
  cases e with
  | literal l => cases h
  | primitive p => cases h
  | array items =>
    rcases bind_eq_error h with h | ⟨vs, m₁, -, h⟩
    · exact ⟨_, .array, exits_exprs.mpr ⟨_, h⟩⟩
    · cases h
  | var name pos => exact absurd h lookup_ne_exit
  | store name value =>
    rcases bind_eq_error h with h | ⟨w, m₁, -, h⟩
    · exact ⟨_, .store, exits_expr.mpr ⟨_, h⟩⟩
    · cases h
  | update name value pos =>
    rcases bind_eq_error h with h | ⟨w, m₁, -, h⟩
    · exact ⟨_, .update, exits_expr.mpr ⟨_, h⟩⟩
    · rcases bind_eq_error h with h | ⟨_, m₂, -, h⟩
      · exact absurd h assign_ne_exit
      · cases h
  | seq first rest =>
    rcases bind_eq_error h with h | ⟨_, m₁, hfirst, h⟩
    · exact ⟨_, .first, exits_expr.mpr ⟨_, discard_eq_error h⟩⟩
    · obtain ⟨w, hfirst⟩ := discard_eq_ok hfirst
      exact ⟨_, .rest hfirst, exits_expr.mpr ⟨_, h⟩⟩
  | and left right =>
    rcases bind_eq_error h with h | ⟨w, m₁, hleft, h⟩
    · exact ⟨_, .andLeft, exits_expr.mpr ⟨_, h⟩⟩
    rw [truthy_bind] at h
    cases htruthy : m₁.store.truthy w with
    | false => rw [htruthy] at h; cases h
    | true =>
      rw [htruthy] at h
      rcases bind_eq_error h with h | ⟨u, m₂, -, h⟩
      · exact ⟨_, .andRight hleft htruthy, exits_expr.mpr ⟨_, h⟩⟩
      · cases h
  | or left right =>
    rcases bind_eq_error h with h | ⟨w, m₁, hleft, h⟩
    · exact ⟨_, .orLeft, exits_expr.mpr ⟨_, h⟩⟩
    rw [truthy_bind] at h
    cases htruthy : m₁.store.truthy w with
    | true => rw [htruthy] at h; cases h
    | false =>
      rw [htruthy] at h
      rcases bind_eq_error h with h | ⟨u, m₂, -, h⟩
      · exact ⟨_, .orRight hleft htruthy, exits_expr.mpr ⟨_, h⟩⟩
      · cases h
  | cond condition consequent alternate =>
    rcases bind_eq_error h with h | ⟨w, m₁, hcondition, h⟩
    · exact ⟨_, .condition, exits_expr.mpr ⟨_, h⟩⟩
    rw [truthy_bind] at h
    cases htruthy : m₁.store.truthy w with
    | true =>
      rw [htruthy] at h
      exact ⟨_, .consequent hcondition htruthy, exits_expr.mpr ⟨_, h⟩⟩
    | false =>
      rw [htruthy] at h
      exact ⟨_, .alternate hcondition htruthy, exits_expr.mpr ⟨_, h⟩⟩
  | loop condition body => exact ⟨_, .loop, exits_turns.mpr ⟨_, h⟩⟩
  | func params body => cases h
  | apply callee args pos =>
    -- three evaluations in a row: the callee, the arguments and the call
    rcases bind_eq_error h with h | ⟨w, m₁, hcallee, h⟩
    · exact ⟨_, .callee, exits_expr.mpr ⟨_, h⟩⟩
    rcases bind_eq_error h with h | ⟨ws, m₂, hargs, h⟩
    · exact ⟨_, .arguments hcallee, exits_exprs.mpr ⟨_, h⟩⟩
    · exact ⟨_, .application hcallee hargs, exits_call.mpr ⟨_, locating_eq_exit h⟩⟩
  | block name body =>
    replace h : inBlock name scope (eval n body) m = .error (.exit id v) m' := h
    rw [inBlock_eq] at h
    split at h
    · cases h
    · next hbody =>
      -- what leaves the block has left its body and has another number
      split at h
      · cases h
      · cases h
        exact ⟨_, .block, exits_expr.mpr ⟨_, hbody⟩⟩
    · next hne _ => cases h; exact absurd rfl (hne _ _)

theorem innerExits_exprs {es : List Expr} {scope : ScopeRef} {m' : Machine}
    (h : evalAll (n + 1) es scope m = .error (.exit id v) m') :
    InnerExits ⟨.exprs es scope, n + 1, m, rs⟩ id v := by
  cases es with
  | nil => cases h
  | cons e es =>
    rcases bind_eq_error h with h | ⟨w, m₁, hhead, h⟩
    · exact ⟨_, .head, exits_expr.mpr ⟨_, h⟩⟩
    rcases bind_eq_error h with h | ⟨ws, m₂, -, h⟩
    · exact ⟨_, .tail hhead, exits_exprs.mpr ⟨_, h⟩⟩
    · cases h

theorem innerExits_turns {condition body : Expr} {scope : ScopeRef} {m' : Machine}
    (h : evalLoop (n + 1) condition body scope m = .error (.exit id v) m') :
    InnerExits ⟨.turns condition body scope, n + 1, m, rs⟩ id v := by
  rcases bind_eq_error h with h | ⟨w, m₁, htest, h⟩
  · exact ⟨_, .test, exits_expr.mpr ⟨_, h⟩⟩
  rw [truthy_bind] at h
  cases htruthy : m₁.store.truthy w with
  | false => rw [htruthy] at h; cases h
  | true =>
    rw [htruthy] at h
    rcases bind_eq_error h with h | ⟨_, m₂, hturn, h⟩
    · exact ⟨_, .turn htest htruthy, exits_expr.mpr ⟨_, discard_eq_error h⟩⟩
    · obtain ⟨u, hturn⟩ := discard_eq_ok hturn
      exact ⟨_, .again htest htruthy hturn, exits_turns.mpr ⟨_, h⟩⟩

/-- An application that ends with an exit either applies an active label or calls a
function whose body ends so. -/
theorem leftBy_or_innerExits_call {callee : Value} {args : List Value} {m' : Machine}
    (h : applyValue (n + 1) callee args m = .error (.exit id v) m') :
    (∃ r, LeftBy ⟨.call callee args, n + 1, m, rs⟩ r v) ∨
    InnerExits ⟨.call callee args, n + 1, m, rs⟩ id v := by
  cases callee with
  | closure r =>
    rw [applyValue, get_bind] at h
    cases hclosure : m.store.closure? r with
    | none => rw [hclosure] at h; cases h
    | some c =>
      rw [hclosure] at h
      by_cases hlength : c.params.length = args.length
      · simp only [hlength, if_true] at h
        exact .inr ⟨_, .body hclosure hlength, exits_expr.mpr ⟨_, h⟩⟩
      · simp only [hlength, if_false] at h
        cases h
  | primitive p =>
    replace h : callPrimitive p args m = .error (.exit id v) m' := h
    unfold callPrimitive at h
    split at h <;> cases h
  | label r =>
    -- the one place where exits begin
    replace h : exitTo r args m = .error (.exit id v) m' := h
    rw [Settled.exitTo_eq] at h
    split at h
    · next l hl =>
      split at h
      · next hactive =>
        split at h
        · next hargs =>
          cases h
          exact .inl ⟨r, .apply hl hactive hargs⟩
        · cases h
      · cases h
    · cases h
  | number x => cases h
  | bool b => cases h
  | null => cases h
  | str s => cases h
  | array r => cases h

/-- **Every exit comes from an application of a label**, somewhere inside. The
induction is on the depth of evaluation. -/
theorem exists_leftBy (hp : p.Exits id v) : ∃ r, p.LeftBy r v := by
  obtain ⟨task, depth, m, rs⟩ := p
  induction depth generalizing task m rs with
  | zero =>
    obtain ⟨m', hm'⟩ := hp
    cases task <;> cases hm'
  | succ n ih =>
    have hinner : (∃ r, LeftBy ⟨task, n + 1, m, rs⟩ r v) ∨
        InnerExits ⟨task, n + 1, m, rs⟩ id v := by
      cases task with
      | expr e scope =>
        obtain ⟨m', hm'⟩ := exits_expr.mp hp
        exact .inr (innerExits_expr hm')
      | exprs es scope =>
        obtain ⟨m', hm'⟩ := exits_exprs.mp hp
        exact .inr (innerExits_exprs hm')
      | turns condition body scope =>
        obtain ⟨m', hm'⟩ := exits_turns.mp hp
        exact .inr (innerExits_turns hm')
      | call callee args =>
        obtain ⟨m', hm'⟩ := exits_call.mp hp
        exact leftBy_or_innerExits_call hm'
    rcases hinner with h | ⟨⟨task', depth', m', rs'⟩, henters, hexits⟩
    · exact h
    · -- what is started has one less of depth, so the hypothesis is about it
      have hdepth : depth' = n := by cases henters <;> rfl
      subst hdepth
      obtain ⟨r, hr⟩ := ih task' m' rs' hexits
      exact ⟨r, .outer henters hr hp⟩

/-- Runs in progress stay so, with the labels they have. -/
theorem Enters.label?_of_mem (h : p.Enters q) (hp : p.Tracked) {r : LabelRef} {l : Label}
    (hr : r ∈ p.running) (hl : p.machine.store.label? r = some l) :
    r ∈ q.running ∧ q.machine.store.label? r = some l := by
  rcases h.running_cases with ⟨hrunning, hsettles⟩ | ⟨name, body, scope, n, -, -, rfl⟩
  · rw [hrunning]
    exact ⟨hr, hsettles.label? hl⟩
  · refine ⟨List.mem_cons_of_mem _ hr, ?_⟩
    have hne : r ≠ p.machine.store.nextRef := fun heq => hp.nextRef_notMem (heq ▸ hr)
    rw [p.machine.enterBlock_label?, if_neg hne, hl]

/-- A run that has joined those in progress is the run of the block that starts its
body here, with a label made just now. -/
theorem Enters.label?_own (h : p.Enters q) {r : LabelRef} (hown : q.running = r :: p.running) :
    ∃ name, q.machine.store.label? r = some ⟨p.machine.store.nextLabel, name, true⟩ := by
  rcases h.running_cases with ⟨hrunning, -⟩ | ⟨name, body, scope, n, -, -, rfl⟩
  · have hlength := congrArg List.length (hown.symm.trans hrunning)
    simp at hlength
  · have hr : p.machine.store.nextRef = r := (List.cons.inj hown).1
    exact ⟨name, by rw [p.machine.enterBlock_label?, if_pos hr.symm]⟩

/-- A label through which an evaluation is left belongs to a run that was in progress
when it started, and the exit carries the number of that label. -/
theorem LeftBy.mem_running {r : LabelRef} (h : p.LeftBy r v) (hp : p.Tracked) :
    r ∈ p.running ∧ ∃ l, p.machine.store.label? r = some l ∧ p.Exits l.id v := by
  induction h with
  | @apply r l args n m rs hlabel hactive hargs =>
    refine ⟨(hp.active_iff r).mp ⟨l, hlabel, hactive⟩, l, hlabel, exits_call.mpr ⟨m, ?_⟩⟩
    show exitTo r args m = _
    rw [Settled.exitTo_eq]
    simp only [hlabel, hactive, hargs, if_true]
  | @outer p q r id v henters hq hexits ih =>
    obtain ⟨hr, l, hl, hqexits⟩ := ih (henters.tracked hp)
    have hpexits : p.Exits l.id v := by
      rcases henters.exits_or_caught hqexits with h | ⟨-, -, m₁, hok⟩
      · exact h
      · obtain ⟨m₂, herror⟩ := hexits
        rw [hok] at herror
        cases herror
    -- the run that the exit goes to was in progress, and no two have one number
    obtain ⟨r', hr', l', hl', hid⟩ := hp.exists_of_exits hpexits
    obtain ⟨hmem, hlabel⟩ := henters.label?_of_mem hp hr' hl'
    have heq : r' = r := (henters.tracked hp).eq_of_id_eq hmem hr hlabel hl hid
    subst heq
    have hll : l' = l := Option.some.inj (hlabel.symm.trans hl)
    exact ⟨hr', l, hll ▸ hl', hpexits⟩

/-- **An exit is caught by the block run that made its label.** -/
theorem Enters.ok_of_leftBy {r : LabelRef} (h : p.Enters q) (hp : p.Tracked) (hq : q.LeftBy r v)
    (hown : q.running = r :: p.running) : ∃ m, p.result = .ok [v] m := by
  obtain ⟨-, l, hl, hexits⟩ := hq.mem_running (h.tracked hp)
  obtain ⟨name, hlabel⟩ := h.label?_own hown
  have hid : l.id = p.machine.store.nextLabel := by
    rw [hlabel] at hl
    cases hl
    rfl
  rcases h.exits_or_caught hexits with hpexits | ⟨-, -, hok⟩
  · -- an exit that passed would go to an older run, whose number is smaller
    obtain ⟨r', hr', l', hl', hid'⟩ := hp.exists_of_exits hpexits
    have hlt := hp.below r' hr' l' hl'
    omega
  · exact hok

/-- **No other evaluation catches it**, whatever block that is the run of. -/
theorem Enters.leftBy_of_leftBy {r : LabelRef} (h : p.Enters q) (hp : p.Tracked)
    (hq : q.LeftBy r v) (hother : q.running ≠ r :: p.running) : p.LeftBy r v := by
  obtain ⟨hr, l, hl, hexits⟩ := hq.mem_running (h.tracked hp)
  rcases h.exits_or_caught hexits with hpexits | ⟨hrunning, hid, -⟩
  · exact .outer h hq hpexits
  · -- were it caught, its label would have the number of the one made here
    exfalso
    obtain ⟨name, hlabel⟩ := h.label?_own hrunning
    have hmem : p.machine.store.nextRef ∈ q.running := by rw [hrunning]; exact List.mem_cons_self
    have heq := (h.tracked hp).eq_of_id_eq hmem hr hlabel hl hid.symm
    rw [heq] at hrunning
    exact hother hrunning

end Point

end CalcScript

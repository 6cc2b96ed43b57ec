/-
`Proofs/SessionStore.lean` -- the store over a whole session.

A session begins with a well-formed store, the global scope and nothing else. What happens to it
afterwards (`Session.Moves`) keeps the store well formed and takes nothing out of it, whatever the
programs do and however they end. In between, at every moment of every evaluation
(`Point.Moment`), the store lies between the one before and the one behind: the links between scopes
are those of the end, and what waits for an evaluation to be over is still there.
-/
import CalcScript.Proofs.Exits
import CalcScript.Proofs.WellFormedStore

set_option autoImplicit false

namespace CalcScript

/-! ## 1. Sessions -/

namespace Session

/-- What can happen to a session: a program or a tree is evaluated, a value is applied or bound to a
global name, or the host changes the store by itself. All that comes from outside refers to entries
that the store has. -/
inductive Moves : Session → Session → Prop
  | evaluate (s : Session) (source : String) : Moves s (s.evaluate source).2
  | evaluateExpr (s : Session) (e : Expr) : Moves s (s.evaluateExpr e).2
  | call {s : Session} {callee : Value} {args : List Value} (hcallee : s.machine.store.Has callee)
    (hargs : s.machine.store.HasAll args) : Moves s (s.call callee args).2
  | define {s : Session} (name : String) {value : Value} (hvalue : s.machine.store.Has value) :
    Moves s (s.define name value)
  | host {s s' : Session} (h : s.machine.store.Change s'.machine.store) : Moves s s'

/-- A session that has come about so. -/
def Arises (s : Session) : Prop := ∃ sink, Relation.ReflTransGen Moves (new sink) s

variable {s s' : Session} {start p : Point}

theorem has_of_mem_builtins {store : Store} {name : String} {v : Value}
    (h : (name, v) ∈ builtins) : store.Has v := by
  rcases List.mem_append.mp h with h | h
  · rcases List.mem_cons.mp h with h | h
    · cases h
      trivial
    · cases List.mem_singleton.mp h
      trivial
  · obtain ⟨p, -, hp⟩ := List.mem_map.mp h
    cases hp
    trivial

/-- A new session has the global scope, where values stand that refer to nothing. -/
theorem wellFormed_new (sink : Sink) : (new sink).machine.store.WellFormed where
  globals := Nat.zero_lt_one
  outermost := rfl
  inner {r} hr hne := by
    have hzero : r.index = 0 := Nat.lt_one_iff.mp hr
    exact absurd (ScopeRef.ext hzero) hne
  held {v} hv := by
    rcases hv with ⟨hscope, hbinding⟩ | ⟨hitems, -⟩
    · obtain rfl := Array.mem_singleton.mp hscope
      exact has_of_mem_builtins hbinding
    · cases Array.not_mem_empty _ hitems
  captured hc := by cases hc

theorem store_finish {x : Eval Value} {m : Machine} (h : Eval.Leaves x s.machine m) :
    (s.finish x).2.machine.store = m.store := by
  rcases h with ⟨v, h⟩ | ⟨signal, h⟩
  · rw [finish_of_ok h]
  · rw [finish_of_error h]

/-- Behind the evaluation of a tree the session has the store at the end of the run. -/
theorem store_evaluateExpr (s : Session) (e : Expr) : (s.evaluateExpr e).2.machine.store
    = (Point.final ⟨.expr e globals, depth, s.machine, []⟩).store :=
  store_finish (Point.leaves_expr e globals)

theorem store_call (s : Session) (callee : Value) (args : List Value) :
    (s.call callee args).2.machine.store
      = (Point.final ⟨.call callee args, depth, s.machine, []⟩).store :=
  store_finish (Point.leaves_call callee args)

/-- **Whatever happens to a session takes nothing out of the store and keeps it well formed.** -/
theorem Moves.keeps (h : s.Moves s') (hs : s.machine.store.WellFormed) :
    s.machine.store.Grows s'.machine.store ∧ s'.machine.store.WellFormed := by
  have hexpr : ∀ e, s.machine.store.Grows (s.evaluateExpr e).2.machine.store ∧
      (s.evaluateExpr e).2.machine.store.WellFormed := fun e => by
    rw [store_evaluateExpr]
    have hp : Point.WellFormed ⟨.expr e globals, depth, s.machine, []⟩ := ⟨hs, hs.globals⟩
    exact ⟨Point.grows_final ⟨.expr e globals, depth, s.machine, []⟩, hp.final⟩
  cases h with
  | evaluate source =>
    unfold Session.evaluate
    split
    · exact hexpr _
    · exact ⟨.refl _, hs⟩
  | evaluateExpr e => exact hexpr e
  | @call callee args hcallee hargs =>
    rw [store_call]
    have hp : Point.WellFormed ⟨.call callee args, depth, s.machine, []⟩ := ⟨hs, hcallee, hargs⟩
    exact ⟨Point.grows_final ⟨.call callee args, depth, s.machine, []⟩, hp.final⟩
  | define name hvalue =>
    have hchange := Store.Change.define globals name hvalue
    exact ⟨hchange.grows, hs.change hchange⟩
  | host hchange => exact ⟨hchange.grows, hs.change hchange⟩

theorem keeps_of_moves (h : Relation.ReflTransGen Moves s s') (hs : s.machine.store.WellFormed) :
    s.machine.store.Grows s'.machine.store ∧ s'.machine.store.WellFormed := by
  induction h with
  | refl => exact ⟨.refl _, hs⟩
  | tail _ hmove ih =>
    obtain ⟨hgrows, hstore⟩ := hmove.keeps ih.2
    exact ⟨ih.1.trans hgrows, hstore⟩

theorem Arises.wellFormed (h : s.Arises) : s.machine.store.WellFormed := by
  obtain ⟨sink, hmoves⟩ := h
  exact (keeps_of_moves hmoves (wellFormed_new sink)).2

theorem Starts.machine_eq (h : s.Starts start) : start.machine = s.machine := by
  cases h <;> rfl

theorem Starts.wellFormed (h : s.Starts start) (hs : s.machine.store.WellFormed)
    (htask : s.machine.store.HasTask start.task) : start.WellFormed := by
  rw [← h.machine_eq] at hs htask
  exact ⟨hs, htask⟩

end Session

/-! ## 2. Moments -/

namespace Point

variable {start p q : Point} {m : Machine}

/-- In the run from `start` the evaluation at `p` begins or ends with the machine. -/
inductive Moment (start p : Point) : Machine → Prop
  | begins (h : Relation.ReflTransGen Enters start p) : Moment start p p.machine
  | ends (h : Relation.ReflTransGen Enters start p) : Moment start p p.final

namespace Moment

theorem runs (h : start.Moment p m) : Relation.ReflTransGen Enters start p := by
  cases h with
  | begins h | ends h => exact h

theorem grows (h : start.Moment p m) : p.machine.store.Grows m.store := by
  cases h with
  | begins => exact .refl _
  | ends => exact p.grows_final

/-- Every moment lies between the start and the end of the run. -/
theorem between (h : start.Moment p m) :
    start.machine.store.Grows m.store ∧ m.store.Grows start.final.store := by
  obtain ⟨hbefore, hbehind⟩ := grows_of_runs h.runs
  refine ⟨hbefore.trans h.grows, ?_⟩
  cases h with
  | begins => exact p.grows_final.trans hbehind
  | ends => exact hbehind

theorem wellFormed (h : start.Moment p m) (hstart : start.WellFormed) : m.store.WellFormed := by
  have hp := hstart.of_runs h.runs
  cases h with
  | begins => exact hp.store
  | ends => exact hp.final

theorem hasTask (h : start.Moment p m) (hstart : start.WellFormed) : m.store.HasTask p.task := by
  have htask := (hstart.of_runs h.runs).task
  exact h.grows.hasTask htask

end Moment

/-- The function that an expression makes captures the scope that the expression is evaluated in. -/
theorem result_func {params : List String} {body : Expr} {scope : ScopeRef} {n : Nat}
    (htask : p.task = .expr (.func params body) scope) (hdepth : p.depth = n + 1) :
    ∃ r, p.result = .ok [.closure r] p.final ∧
      p.final.store.closure? r = some ⟨params, body, scope⟩ := by
  obtain ⟨task, depth, m, rs⟩ := p
  subst htask hdepth
  refine ⟨⟨m.store.closures.size⟩, rfl, ?_⟩
  show (m.store.closures.push _)[m.store.closures.size]? = _
  rw [Array.getElem?_push_size]

end Point

/-! ## 3. The store stays well formed -/

namespace Session

/-- **The store of a session stays well formed.** After any history:

* The store is well formed, and nothing that happens from then on takes anything out of it or puts a
  scope into another scope than the one it was made in; what an evaluation leaves behind, whatever
  its outcome, is the store at the end of the run.
* At every moment of every run the store is well formed, it lies between the store before and the
  one behind the run, and from each of its scopes the walk outwards ends at the global scope. What
  the evaluation works with is there, and so is every value that waits for it to be over, its
  results and what an exit carries.
* The scope of a block run or of a call is new and was put into the scope that the block is
  evaluated in or that the function has captured, and that is the link it has for good; the function
  has captured the scope that it was made in. No other scope is made. -/
theorem store_stays_wellFormed {s : Session} (hs : s.Arises) :
    (s.machine.store.WellFormed ∧
      (∀ s', Relation.ReflTransGen Moves s s' →
        s.machine.store.Grows s'.machine.store ∧ s'.machine.store.WellFormed) ∧
      (∀ e, (s.evaluateExpr e).2.machine.store
        = (Point.final ⟨.expr e globals, depth, s.machine, []⟩).store) ∧
      (∀ callee args, (s.call callee args).2.machine.store
        = (Point.final ⟨.call callee args, depth, s.machine, []⟩).store)) ∧
    ∀ start, s.Starts start → s.machine.store.HasTask start.task →
      (∀ p m, start.Moment p m →
        m.store.WellFormed ∧ s.machine.store.Grows m.store ∧ m.store.Grows start.final.store ∧
        (∀ r, m.store.HasScope r → ∃ chain, m.store.Walk r chain) ∧
        m.store.HasTask p.task ∧
        (∀ v, start.Pending p v → m.store.Has v) ∧
        (∀ vs m', p.result = .ok vs m' → m'.store.HasAll vs) ∧
        (∀ id v m', p.result = .error (.exit id v) m' → m'.store.Has v)) ∧
      (∀ p q inner outer, Relation.ReflTransGen Point.Enters start p → p.Opens q inner outer →
        ¬ p.machine.store.HasScope inner ∧ p.machine.store.HasScope outer ∧
        q.machine.store.parent? inner = some outer ∧
        start.final.store.parent? inner = some outer) ∧
      (∀ p params body scope n, Relation.ReflTransGen Point.Enters start p →
        p.task = .expr (.func params body) scope → p.depth = n + 1 →
        ∃ r, p.result = .ok [.closure r] p.final ∧
          start.final.store.closure? r = some ⟨params, body, scope⟩) ∧
      (∀ inner, ¬ s.machine.store.HasScope inner → start.final.store.HasScope inner →
        ∃ p q outer, Relation.ReflTransGen Point.Enters start p ∧ p.Opens q inner outer) := by
  have hstore := hs.wellFormed
  refine ⟨⟨hstore, fun s' hmoves => keeps_of_moves hmoves hstore, store_evaluateExpr s,
    store_call s⟩, fun start hstarts htask => ?_⟩
  have hstart := hstarts.wellFormed hstore htask
  have hmachine := hstarts.machine_eq
  refine ⟨fun p m hmoment => ?_, fun p q inner outer hruns hopens => ?_,
    fun p params body scope n hruns hfunc hdepth => ?_, fun inner hnew hthere => ?_⟩
  · -- a moment: what is pending there was in some store on the way, and stores only grow
    have hwell := hmoment.wellFormed hstart
    obtain ⟨hbefore, hbehind⟩ := hmoment.between
    have hends := (hstart.of_runs hmoment.runs).ends
    refine ⟨hwell, hmachine ▸ hbefore, hbehind, fun r hr => hwell.exists_walk hr,
      hmoment.hasTask hstart, fun v hv => hmoment.grows.has (hv.has hstart), ?_, ?_⟩
    · intro vs m' hresult
      rw [hresult] at hends
      exact hends.2.2
    · intro id v m' hresult
      rw [hresult] at hends
      exact hends.2.2
  · -- a link is there from the step on that opens the scope, and it is never changed
    have hlink := hopens.parent?_eq
    have hthere := hopens.hasScope (hstart.of_runs hruns)
    have hbehind := (Point.Moment.begins (hruns.tail hopens.enters)).between.2
    refine ⟨hopens.not_hasScope, hthere.1, hlink, ?_⟩
    rw [hbehind.parent?_eq hthere.2, hlink]
  · -- a function literal makes its function at once
    obtain ⟨r, hresult, hclosure⟩ := Point.result_func hfunc hdepth
    exact ⟨r, hresult, (Point.grows_of_runs hruns).2.closure? hclosure⟩
  · -- a scope that was not there at the start was opened on the way
    rw [← hmachine] at hnew
    exact start.exists_opens (Nat.le_of_not_lt hnew) hthere

/-- A function that stands in the very scope it has captured, that of a block, and is called there:
the scope of the call lies in that of the block, and this one in the global scope. -/
theorem store_stays_wellFormed_around_cycle :
    let s := Session.new .unlimited
    let f : Expr := .store "f" (.func [] (.var "f" .start))
    let after := (s.evaluateExpr (.block none (.seq f (.apply (.var "f" .start) [] .start)))).2
    s.Arises ∧ after.machine.store.WellFormed ∧ after.machine.store.scopes.size = 3 ∧
      after.machine.store.parent? ⟨2⟩ = some ⟨1⟩ ∧
      after.machine.store.parent? ⟨1⟩ = some globals := by
  intro s f after
  have hs : s.Arises := ⟨.unlimited, .refl⟩
  have hwell := (store_stays_wellFormed hs).1.2.1 after (.single (.evaluateExpr s _))
  exact ⟨hs, hwell.2, by decide +kernel, by decide +kernel, by decide +kernel⟩

end Session

end CalcScript

/-
`Proofs/Truncation.lean` -- output into a sink that fills up.

Run a program twice, once with a sink that takes everything and once with a sink that has
room for so many bytes only. As long as the output fits, both runs do the same
(`Eval.Outcome.ok`, `Eval.Outcome.error`). The first text that does not fit is cut where the
room ends and raises an error, and nothing in the language handles errors: from there on the
second run is over, while the first may go on (`Eval.Outcome.full`). What it writes then
comes behind the cut, so the second sink has the first bytes of all that the first one gets.

The relation between the two runs is kept by evaluation in the sense of
`Proofs/Lockstep.lean`. Only one step of the language sees the sink at all, and for the
others it is enough to say that they do not (`Eval.Silent`).
-/
import CalcScript.Proofs.Composition
import CalcScript.Proofs.Lockstep

set_option autoImplicit false

namespace CalcScript

open Eval

/-! ## 1. Sinks with room for so many bytes -/

namespace Sink

/-- The sink with room until it holds so many bytes in all. -/
def limit (total : Nat) (s : Sink) : Sink := { s with room := some (total - s.written.size) }

/-- The sink that has got so many bytes of what another one has, and is full. -/
def cut (total : Nat) (s : Sink) : Sink :=
  { s with written := s.written.extract 0 total, room := some 0 }

/-- The second sink is the first one with more bytes in it. -/
def Extends (s s' : Sink) : Prop := ∃ bytes, s' = { s with written := s.written ++ bytes }

variable {s s' s'' : Sink} {total : Nat}

theorem Extends.refl (s : Sink) : s.Extends s := ⟨.empty, by rw [ByteArray.append_empty]⟩

theorem Extends.trans (h : s.Extends s') (h' : s'.Extends s'') : s.Extends s'' := by
  obtain ⟨bytes, rfl⟩ := h
  obtain ⟨bytes', rfl⟩ := h'
  exact ⟨bytes ++ bytes', by rw [ByteArray.append_assoc]⟩

theorem Extends.room_eq (h : s.Extends s') : s'.room = s.room := by
  obtain ⟨bytes, rfl⟩ := h
  rfl

theorem Extends.writeError_eq (h : s.Extends s') : s'.writeError = s.writeError := by
  obtain ⟨bytes, rfl⟩ := h
  rfl

theorem Extends.size_le (h : s.Extends s') : s.written.size ≤ s'.written.size := by
  obtain ⟨bytes, rfl⟩ := h
  rw [ByteArray.size_append]
  omega

/-- What comes behind the cut does not matter to it. -/
theorem Extends.cut_eq (h : s.Extends s') (hfull : total ≤ s.written.size) :
    s'.cut total = s.cut total := by
  obtain ⟨bytes, rfl⟩ := h
  have hbehind : bytes.extract 0 (total - s.written.size) = .empty := by
    rw [ByteArray.extract_eq_empty_iff]
    omega
  simp only [cut, ByteArray.extract_append, Nat.zero_sub, hbehind, ByteArray.append_empty]

theorem write_of_room_eq_none (h : s.room = none) (text : String) :
    s.write text = (.ok (), { s with written := s.written ++ text.toUTF8 }) := by
  rw [write, h]

theorem extends_write (h : s.room = none) (text : String) : s.Extends (s.write text).2 := by
  rw [write_of_room_eq_none h]
  exact ⟨text.toUTF8, rfl⟩

/-- A text that fits is taken whole. -/
theorem write_limit_of_fits (hroom : s.room = none) {text : String}
    (hfits : (s.write text).2.written.size ≤ total) :
    (s.limit total).write text = (.ok (), (s.write text).2.limit total) := by
  rw [write_of_room_eq_none hroom] at hfits ⊢
  rw [ByteArray.size_append] at hfits
  have htaken : text.toUTF8.size ≤ total - s.written.size := by omega
  have hrest : total - s.written.size - text.toUTF8.size =
      total - (s.written.size + text.toUTF8.size) := by omega
  simp only [write, limit, htaken, if_true, Nat.min_eq_right, ByteArray.extract_zero_size,
    ByteArray.size_append, hrest]

/-- One that does not fit is cut, and the sink says so. -/
theorem write_limit_of_full (hroom : s.room = none) {text : String}
    (hbefore : s.written.size ≤ total) (hfull : total < (s.write text).2.written.size) :
    (s.limit total).write text = (.error s.writeError, (s.write text).2.cut total) := by
  rw [write_of_room_eq_none hroom] at hfull ⊢
  rw [ByteArray.size_append] at hfull
  have hcut : ¬ text.toUTF8.size ≤ total - s.written.size := by omega
  have hrest : total - s.written.size - text.toUTF8.size = 0 := by omega
  have hall : s.written.extract 0 total = s.written := by
    rw [← Nat.max_eq_left hbefore, ByteArray.extract_zero_max_size]
  have hmin : min (total - s.written.size) text.toUTF8.size = total - s.written.size := by omega
  simp only [write, limit, cut, hcut, if_false, hrest, hmin, ByteArray.extract_append, hall,
    Nat.zero_sub]

end Sink

def Machine.limit (total : Nat) (m : Machine) : Machine := ⟨m.store, m.sink.limit total⟩

/-! ## 2. Outcomes -/

namespace Eval

variable {α β : Type} {total : Nat}

/-- The machine behind an evaluation. -/
def machineOf : EStateM.Result Signal Machine α → Machine
  | .ok _ m => m
  | .error _ m => m

/-- How a run ends with limited room, by how it ends without a limit. Once the room is spent it is
over, with the error of the sink. -/
inductive Outcome (total : Nat) :
    EStateM.Result Signal Machine α → EStateM.Result Signal Machine α → Prop
  | ok {a : α} {m : Machine} (hfits : m.sink.written.size ≤ total) :
    Outcome total (.ok a m) (.ok a (m.limit total))
  | error {signal : Signal} {m : Machine} (hfits : m.sink.written.size ≤ total) :
    Outcome total (.error signal m) (.error signal (m.limit total))
  | full {r : EStateM.Result Signal Machine α} {store : Store} {pos : Option Position}
      (hfull : total < (machineOf r).sink.written.size) :
    Outcome total r (.error (.error ⟨.sinkFull (machineOf r).sink.writeError, pos⟩)
      ⟨store, (machineOf r).sink.cut total⟩)

/-- The first evaluation only adds to a sink without a limit, and the second one is the
first one with a limit. -/
structure Truncates (total : Nat) (x x' : Eval α) : Prop where
  extends_sink (m : Machine) : m.sink.room = none → m.sink.Extends (machineOf (x m)).sink
  outcome (m : Machine) : m.sink.room = none → m.sink.written.size ≤ total →
    Outcome total (x m) (x' (m.limit total))

theorem Outcome.flushes_eq {r r' : EStateM.Result Signal Machine α} (h : Outcome total r r') :
    (machineOf r).sink.flushes = (machineOf r').sink.flushes := by
  cases h <;> rfl

/-- A full sink stays as it is while the other run goes on. -/
theorem Outcome.full_of_extends {r : EStateM.Result Signal Machine α}
    {r' : EStateM.Result Signal Machine β} (hfull : total < (machineOf r).sink.written.size)
    (hextends : (machineOf r).sink.Extends (machineOf r').sink) (store : Store)
    (pos : Option Position) : Outcome total r'
      (.error (.error ⟨.sinkFull (machineOf r).sink.writeError, pos⟩)
        ⟨store, (machineOf r).sink.cut total⟩) := by
  rw [← hextends.cut_eq (Nat.le_of_lt hfull), ← hextends.writeError_eq]
  exact .full (Nat.lt_of_lt_of_le hfull hextends.size_le)

/-! ## 3. Steps that do not see the sink -/

/-- The step does the same with every sink and leaves it alone. -/
def Silent (x : Eval α) : Prop := ∀ store,
  (∃ a store', ∀ sink, x ⟨store, sink⟩ = .ok a ⟨store', sink⟩) ∨
    ∃ signal store', ∀ sink, x ⟨store, sink⟩ = .error signal ⟨store', sink⟩

namespace Silent

theorem truncates {x : Eval α} (h : Silent x) : Truncates total x x where
  extends_sink m _ := by
    rcases h m.store with ⟨a, store, hx⟩ | ⟨signal, store, hx⟩
    · have hm : x m = .ok a ⟨store, m.sink⟩ := hx m.sink
      rw [hm]
      exact .refl m.sink
    · have hm : x m = .error signal ⟨store, m.sink⟩ := hx m.sink
      rw [hm]
      exact .refl m.sink
  outcome m _ hfits := by
    rcases h m.store with ⟨a, store, hx⟩ | ⟨signal, store, hx⟩
    · have hm : x m = .ok a ⟨store, m.sink⟩ := hx m.sink
      have hlimit : x (m.limit total) = .ok a (Machine.limit total ⟨store, m.sink⟩) :=
        hx (m.sink.limit total)
      rw [hm, hlimit]
      exact .ok hfits
    · have hm : x m = .error signal ⟨store, m.sink⟩ := hx m.sink
      have hlimit : x (m.limit total) = .error signal (Machine.limit total ⟨store, m.sink⟩) :=
        hx (m.sink.limit total)
      rw [hm, hlimit]
      exact .error hfits

theorem pure (a : α) : Silent (Pure.pure a) := fun store => .inl ⟨a, store, fun _ => rfl⟩

theorem throw (signal : Signal) : Silent (throw signal : Eval α) :=
  fun store => .inr ⟨signal, store, fun _ => rfl⟩

theorem truthy (v : Value) : Silent (Eval.truthy v) :=
  fun store => .inl ⟨store.truthy v, store, fun _ => rfl⟩

theorem modifyStore (f : Store → Store) : Silent (Eval.modifyStore f) :=
  fun store => .inl ⟨⟨⟩, f store, fun _ => rfl⟩

theorem allocate (f : Store → α × Store) : Silent (Eval.allocate f) :=
  fun store => .inl ⟨(f store).1, (f store).2, fun _ => rfl⟩

theorem lookup (name : String) (pos : Position) (scope : ScopeRef) :
    Silent (Eval.lookup name pos scope) := by
  intro store
  cases h : store.lookup? scope name with
  | some v => exact .inl ⟨v, store, fun sink => by rw [Eval.lookup, get_bind, h]; rfl⟩
  | none =>
    exact .inr ⟨.error ⟨.undefinedVariable name, some pos⟩, store, fun sink => by
      rw [Eval.lookup, get_bind, h]; rfl⟩

theorem assign (name : String) (value : Value) (pos : Position) (scope : ScopeRef) :
    Silent (Eval.assign name value pos scope) := by
  intro store
  cases h : store.resolve? scope name with
  | some found =>
    exact .inl ⟨⟨⟩, store.define found.1 name value, fun sink => by
      rw [Eval.assign, get_bind, h]; rfl⟩
  | none =>
    exact .inr ⟨.error ⟨.undefinedVariable name, some pos⟩, store, fun sink => by
      rw [Eval.assign, get_bind, h]; rfl⟩

theorem exitTo (r : LabelRef) (args : List Value) : Silent (Eval.exitTo r args) := by
  intro store
  simp only [Settled.exitTo_eq]
  refine .inr ?_
  split
  · split
    · split <;> exact ⟨_, store, fun _ => rfl⟩
    · exact ⟨_, store, fun _ => rfl⟩
  · exact ⟨_, store, fun _ => rfl⟩

end Silent

end Eval

/-! ## 4. Built-in operations -/

/-- An operation that prints nothing does the same with every sink and leaves it alone. -/
theorem Primitive.call_of_not_prints {p : Primitive} (hprint : p ≠ .print)
    (hprintLine : p ≠ .printLine) (args : List Value) (store : Store) (sink sink' : Sink) :
    p.call args ⟨store, sink'⟩ =
      ((p.call args ⟨store, sink⟩).1, ⟨(p.call args ⟨store, sink⟩).2.store, sink'⟩) := by
  unfold call
  split
  case h_17 => exact absurd rfl hprint
  case h_18 => exact absurd rfl hprintLine
  -- these branch on their arguments or on what the store has
  case h_20 n | h_21 n _ => cases toLength n <;> rfl
  case h_23 v index value => dsimp only; cases store.slot v index <;> rfl
  case h_24 v item => cases v <;> rfl
  case h_25 v =>
    cases v with
    | array r => dsimp only; cases (store.items r).back? <;> rfl
    | _ => rfl
  case h_26 v w => cases v <;> cases w <;> rfl
  all_goals rfl

namespace Eval

variable {α β : Type} {total : Nat}

theorem callPrimitive_of_ok {p : Primitive} {args : List Value} {m m' : Machine} {v : Value}
    (h : p.call args m = (.ok v, m')) : Eval.callPrimitive p args m = .ok v m' := by
  rw [Eval.callPrimitive, h]

theorem callPrimitive_of_error {p : Primitive} {args : List Value} {m m' : Machine} {fault : Fault}
    (h : p.call args m = (.error fault, m')) :
    Eval.callPrimitive p args m = .error (.error ⟨fault, none⟩) m' := by
  rw [Eval.callPrimitive, h]

namespace Truncates

/-- Printing is the one step that a limit can be felt at. What is printed depends on the store
only. -/
theorem print {p : Primitive} {args : List Value} (text : Store → String)
    (h : ∀ m, p.call args m = Primitive.output m (text m.store)) :
    Truncates total (Eval.callPrimitive p args) (Eval.callPrimitive p args) := by
  have hx : ∀ m, m.sink.room = none →
      Eval.callPrimitive p args m = .ok .null ⟨m.store, (m.sink.write (text m.store)).2⟩ := by
    intro m hroom
    have htaken : (m.sink.write (text m.store)).1 = .ok () := by
      rw [Sink.write_of_room_eq_none hroom]
    exact callPrimitive_of_ok ((h m).trans (Primitive.output_of_ok htaken))
  constructor
  · intro m hroom
    rw [hx m hroom]
    exact Sink.extends_write hroom _
  · intro m hroom hbefore
    rw [hx m hroom]
    -- either the whole text fits, or the sink is full within it
    by_cases hfits : (m.sink.write (text m.store)).2.written.size ≤ total
    · have hwrite : (m.limit total).sink.write (text (m.limit total).store) = _ :=
        Sink.write_limit_of_fits hroom hfits
      have hcall := (h (m.limit total)).trans (Primitive.output_of_ok (congrArg Prod.fst hwrite))
      rw [callPrimitive_of_ok hcall, hwrite]
      exact .ok hfits
    · have hfull := Nat.lt_of_not_le hfits
      have hwrite : (m.limit total).sink.write (text (m.limit total).store) = _ :=
        Sink.write_limit_of_full hroom hbefore hfull
      have hcall :=
        (h (m.limit total)).trans (Primitive.output_of_error (congrArg Prod.fst hwrite))
      rw [callPrimitive_of_error hcall, hwrite,
        ← (Sink.extends_write hroom (text m.store)).writeError_eq]
      exact .full hfull

theorem callPrimitive (p : Primitive) (args : List Value) :
    Truncates total (Eval.callPrimitive p args) (Eval.callPrimitive p args) := by
  by_cases hprint : p = .print
  · subst hprint
    exact print (fun store => Primitive.printed store args) fun _ => rfl
  by_cases hprintLine : p = .printLine
  · subst hprintLine
    exact print (fun store => Primitive.printed store args ++ "\n") fun _ => rfl
  refine Silent.truncates fun store => ?_
  have hcall := Primitive.call_of_not_prints hprint hprintLine args store .unlimited
  generalize p.call args ⟨store, .unlimited⟩ = called at hcall
  obtain ⟨answer, m⟩ := called
  cases answer with
  | ok v => exact .inl ⟨v, m.store, fun sink => callPrimitive_of_ok (hcall sink)⟩
  | error fault =>
    exact .inr ⟨.error ⟨fault, none⟩, m.store, fun sink => callPrimitive_of_error (hcall sink)⟩

/-! ## 5. Evaluations put together -/

theorem bind {x x' : Eval α} {k k' : α → Eval β} (hx : Truncates total x x')
    (hk : ∀ a, Truncates total (k a) (k' a)) : Truncates total (x >>= k) (x' >>= k') := by
  -- what the second half adds, it adds to what the first half has left
  have hextends : ∀ m, m.sink.room = none →
      (machineOf (x m)).sink.Extends (machineOf ((x >>= k) m)).sink := by
    intro m hroom
    have hfirst := hx.extends_sink m hroom
    cases h : x m with
    | ok a m₁ =>
      rw [h] at hfirst
      rw [bind_of_ok h]
      exact (hk a).extends_sink m₁ (hfirst.room_eq.trans hroom)
    | error signal m₁ =>
      rw [bind_of_error h]
      exact .refl m₁.sink
  constructor
  · intro m hroom
    exact (hx.extends_sink m hroom).trans (hextends m hroom)
  · intro m hroom hbefore
    have hfirst := hx.extends_sink m hroom
    have hout := hx.outcome m hroom hbefore
    have hbehind := hextends m hroom
    generalize h : x m = r at hout hfirst hbehind
    generalize h' : x' (m.limit total) = r' at hout
    cases hout with
    | ok hfits =>
      rw [bind_of_ok h, bind_of_ok h']
      exact (hk _).outcome _ (hfirst.room_eq.trans hroom) hfits
    | error hfits =>
      rw [bind_of_error h, bind_of_error h']
      exact .error hfits
    | full hfull =>
      rw [bind_of_error h']
      exact .full_of_extends hfull hbehind _ _

theorem machineOf_locating (pos : Position) (x : Eval Value) (m : Machine) :
    machineOf (Eval.locating pos x m) = machineOf (x m) := by
  unfold Eval.locating
  cases x m with
  | ok v m₁ => rfl
  | error signal m₁ => cases signal <;> rfl

theorem locating (pos : Position) {x x' : Eval Value} (hx : Truncates total x x') :
    Truncates total (Eval.locating pos x) (Eval.locating pos x') where
  extends_sink m hroom := by
    rw [machineOf_locating]
    exact hx.extends_sink m hroom
  outcome m hroom hbefore := by
    have hout := hx.outcome m hroom hbefore
    have hmachine := machineOf_locating pos x m
    unfold Eval.locating at hmachine ⊢
    generalize x m = r at hout hmachine
    generalize x' (m.limit total) = r' at hout
    cases hout with
    | ok hfits => exact .ok hfits
    | @error signal m₁ hfits => cases signal <;> exact .error hfits
    | full hfull =>
      dsimp only [RuntimeError.locate]
      rw [← hmachine] at hfull ⊢
      exact .full hfull

theorem machineOf_inBlock (name : Option String) (scope : ScopeRef) (body : ScopeRef → Eval Value)
    (m : Machine) : (machineOf (Eval.inBlock name scope body m)).sink =
      (machineOf (body (m.enterBlock name scope).1 (m.enterBlock name scope).2)).sink := by
  rw [inBlock_eq]
  cases body (m.enterBlock name scope).1 (m.enterBlock name scope).2 with
  | ok v m₁ => rfl
  | error signal m₁ =>
    cases signal with
    | exit target value => dsimp only; split <;> rfl
    | _ => rfl

/-- No block takes an error for an exit. -/
theorem inBlock (name : Option String) (scope : ScopeRef) {body body' : ScopeRef → Eval Value}
    (hbody : ∀ inner, Truncates total (body inner) (body' inner)) :
    Truncates total (Eval.inBlock name scope body) (Eval.inBlock name scope body') where
  extends_sink m hroom := by
    rw [machineOf_inBlock]
    exact (hbody _).extends_sink (m.enterBlock name scope).2 hroom
  outcome m hroom hbefore := by
    have hinner : (m.limit total).enterBlock name scope =
        ((m.enterBlock name scope).1, (m.enterBlock name scope).2.limit total) := rfl
    have hout := (hbody (m.enterBlock name scope).1).outcome (m.enterBlock name scope).2
      hroom hbefore
    have hmachine := machineOf_inBlock name scope body m
    rw [inBlock_eq] at hmachine
    rw [inBlock_eq, inBlock_eq, hinner]
    dsimp only
    generalize body (m.enterBlock name scope).1 (m.enterBlock name scope).2 = r
      at hout hmachine
    generalize body' (m.enterBlock name scope).1 ((m.enterBlock name scope).2.limit total) = r'
      at hout
    cases hout with
    | ok hfits => exact .ok hfits
    | @error signal m₁ hfits =>
      cases signal with
      | error e => exact .error hfits
      | exhausted => exact .error hfits
      -- both sides have opened the same label, so both catch the exit or neither does
      | exit target value =>
        have hnext : (m.limit total).store.nextLabel = m.store.nextLabel := rfl
        dsimp only
        rw [hnext]
        split
        · exact .ok hfits
        · exact .error hfits
    | full hfull =>
      -- the sink was full inside, and the block does not write
      rw [← hmachine] at hfull
      dsimp only [Machine.leaveBlock]
      rw [← hmachine]
      exact .full hfull

theorem inCall (r : ClosureRef) (args : List Value) {run run' : Expr → ScopeRef → Eval Value}
    (hrun : ∀ e scope, Truncates total (run e scope) (run' e scope)) :
    Truncates total (Eval.inCall r args run) (Eval.inCall r args run') := by
  constructor
  · intro m hroom
    rw [inCall_eq]
    split
    · exact .refl m.sink
    · split
      · exact (hrun _ _).extends_sink _ hroom
      · exact .refl m.sink
  · intro m hroom hbefore
    have hclosure : (m.limit total).store.closure? r = m.store.closure? r := rfl
    rw [inCall_eq, inCall_eq, hclosure]
    cases m.store.closure? r with
    | none => exact .error hbefore
    | some c =>
      dsimp only
      split
      · exact (hrun c.body _).outcome (m.enterCall c args).2 hroom hbefore
      · exact .error hbefore

end Truncates

/-- **Evaluation with a limit is evaluation without one, up to the byte at which the limit
is reached.** -/
theorem lockstep_truncates (total : Nat) : Lockstep id (Truncates total) where
  pure a := (Silent.pure a).truncates
  bind := .bind
  exhausted := (Silent.throw _).truncates
  notCallable _ := (Silent.throw _).truncates
  truthy v := (Silent.truthy v).truncates
  lookup name pos scope := (Silent.lookup name pos scope).truncates
  define _ _ _ := (Silent.modifyStore _).truncates
  assign name value pos scope := (Silent.assign name value pos scope).truncates
  newArray _ := (Silent.allocate _).truncates
  newClosure c := by
    rw [c.body.relocate_id]
    exact (Silent.allocate _).truncates
  callPrimitive := .callPrimitive
  exitTo r args := (Silent.exitTo r args).truncates
  locating := .locating
  inBlock := .inBlock
  inCall r args _ _ hrun := by
    refine .inCall r args fun e scope => ?_
    have h := hrun e scope
    rwa [e.relocate_id] at h

end Eval

/-! ## 6. Sessions -/

/-- What a host can ask a session for. -/
inductive Request where
  | program (source : String)
  | tree (e : Expr)
  | call (callee : Value) (args : List Value)

namespace Session

def perform (s : Session) : Request → Except Error Value × Session
  | .program source => s.evaluate source
  | .tree e => s.evaluateExpr e
  | .call callee args => s.call callee args

/-- The session with room for so many more bytes in its sink, or without a limit. -/
def withRoom (room : Option Nat) (s : Session) : Session :=
  ⟨s.machine.store, { s.machine.sink with room := room }⟩

/-- How the session `s` answers with room for `n` more bytes, by how it answers without a
limit, when it has written the given bytes. -/
structure Truncated (n : Nat) (bytes : ByteArray) (s : Session)
    (unlimited limited : Except Error Value × Session) : Prop where
  written : unlimited.2.machine.sink.written = s.machine.sink.written ++ bytes
  of_fits : bytes.size ≤ n →
    limited = (unlimited.1, unlimited.2.withRoom (some (n - bytes.size)))
  of_full : n < bytes.size →
    (∃ e, limited.1 = .error (.runtime e) ∧ e.fault.kind = .output ∧
      e.fault.message = s.machine.sink.writeError) ∧
    limited.2.machine.sink.written = s.machine.sink.written ++ bytes.extract 0 n

theorem finish_eq_answer {s : Session} {x : Eval Value}
    (h : (machineOf (x s.machine)).sink.CanFlush 1) : s.finish x = answer (x s.machine) := by
  have hflush := Sink.flush_fst h
  cases hx : x s.machine with
  | ok v m =>
    rw [hx, machineOf] at hflush
    rw [finish_of_ok hx, hflush]
    rfl
  | error signal m =>
    rw [hx, machineOf] at hflush
    rw [finish_of_error hx, hflush]
    rfl

theorem written_answer (r : EStateM.Result Signal Machine Value) :
    (answer r).2.machine.sink.written = (machineOf r).sink.written := by
  cases r <;> simp only [answer, machineOf, Sink.flush_snd]

theorem flushed_limit (total : Nat) (m : Machine) :
    (⟨m.store, (m.sink.limit total).flush.2⟩ : Session) =
      withRoom (some (total - m.sink.written.size)) ⟨m.store, m.sink.flush.2⟩ := by
  simp only [Sink.flush_snd, withRoom, Sink.limit]

/-- The answer to a run with limited room, by the outcome without a limit. The sink holds
some bytes before, and the run without a limit adds others to them. -/
theorem truncated_answer {s : Session} {n : Nat} {bytes : ByteArray}
    {r r' : EStateM.Result Signal Machine Value}
    (hout : Outcome (s.machine.sink.written.size + n) r r')
    (hwritten : (machineOf r).sink.written = s.machine.sink.written ++ bytes)
    (herror : (machineOf r).sink.writeError = s.machine.sink.writeError) :
    Truncated n bytes s (answer r) (answer r') := by
  have hsize : (machineOf r).sink.written.size = s.machine.sink.written.size + bytes.size := by
    rw [hwritten, ByteArray.size_append]
  refine ⟨(written_answer r).trans hwritten, ?_, ?_⟩
  · -- everything fitted: the outcomes are the same, and the flush comes behind both
    intro hbytes
    have hrest : s.machine.sink.written.size + n - (machineOf r).sink.written.size =
        n - bytes.size := by omega
    rw [← hrest]
    cases hout with
    | @ok _ m hfits => exact Prod.ext rfl (flushed_limit (s.machine.sink.written.size + n) m)
    | @error _ m hfits => exact Prod.ext rfl (flushed_limit (s.machine.sink.written.size + n) m)
    | full hfull => omega
  · intro hbytes
    cases hout with
    | ok hfits => rw [machineOf] at hsize; omega
    | error hfits => rw [machineOf] at hsize; omega
    | full hfull =>
      -- something did not fit: the error is the sink's, and the bytes are those that fitted
      refine ⟨⟨_, rfl, rfl, herror⟩, ?_⟩
      rw [written_answer, machineOf, Sink.cut, hwritten]
      have hbefore : s.machine.sink.written.extract 0 (s.machine.sink.written.size + n) =
          s.machine.sink.written := by
        rw [← Nat.max_eq_left (Nat.le_add_right _ n), ByteArray.extract_zero_max_size]
      rw [ByteArray.extract_append, hbefore, Nat.zero_sub, Nat.add_sub_cancel_left]

/-- An evaluation that a limit truncates has a truncated answer. -/
theorem finish_truncated {s : Session} (hflush : s.machine.sink.CanFlush 1) {n : Nat}
    {x : Eval Value} (hx : Truncates (s.machine.sink.written.size + n) x x) :
    ∃ bytes, Truncated n bytes s ((s.withRoom none).finish x) ((s.withRoom (some n)).finish x) := by
  have hlimit : (s.withRoom none).machine.limit (s.machine.sink.written.size + n) =
      (s.withRoom (some n)).machine := by
    simp only [Machine.limit, Sink.limit, withRoom, Nat.add_sub_cancel_left]
  have hout := hx.outcome (s.withRoom none).machine rfl (Nat.le_add_right _ n)
  obtain ⟨bytes, hbytes⟩ := hx.extends_sink (s.withRoom none).machine rfl
  rw [hlimit] at hout
  have hcan : (machineOf (x (s.withRoom none).machine)).sink.CanFlush 1 := by
    rw [hbytes]
    exact hflush
  have hcan' : (machineOf (x (s.withRoom (some n)).machine)).sink.CanFlush 1 := by
    rw [Sink.CanFlush, ← hout.flushes_eq]
    exact hcan
  refine ⟨bytes, ?_⟩
  rw [finish_eq_answer hcan, finish_eq_answer hcan']
  have herror := congrArg Sink.writeError hbytes
  exact truncated_answer hout (congrArg Sink.written hbytes) herror

/-- **A sink that fills up cuts the output at the exact byte, and that comes to light.** Let a
session answer a program, a tree or a call with a sink without a limit, and let it write
some bytes. With room for as many bytes it has the same answer, writes the same and is
left in the same state. With room for fewer it writes the first ones, as many as there is
room for, and answers with the error of the sink in the sink's own words, wherever in the program
that was. -/
theorem output_cut_at_exact_byte (s : Session) (hflush : s.machine.sink.CanFlush 1)
    (request : Request) (n : Nat) :
    ∃ bytes, Truncated n bytes s ((s.withRoom none).perform request)
      ((s.withRoom (some n)).perform request) := by
  have hwithin := (lockstep_truncates (s.machine.sink.written.size + n)).within depth
  have htree : ∀ e, ∃ bytes, Truncated n bytes s ((s.withRoom none).evaluateExpr e)
      ((s.withRoom (some n)).evaluateExpr e) := by
    intro e
    have hx := hwithin.eval e globals
    rw [e.relocate_id] at hx
    exact finish_truncated hflush hx
  cases request with
  | tree e => exact htree e
  | call callee args => exact finish_truncated hflush (hwithin.apply callee args)
  | program source =>
    rw [perform, perform, evaluate, evaluate]
    cases Expr.parse source with
    | ok e => exact htree e
    | error e =>
      -- a program that cannot be read writes nothing
      refine ⟨.empty, ByteArray.append_empty.symm, fun _ => rfl, fun h => ?_⟩
      exact absurd h (Nat.not_lt_zero n)

/-- Two texts printed in a block, of which the second does not fit any more: the cut is
inside its last letter, which has two bytes, and the sink calls that a full disk. -/
theorem output_cut_in_letter :
    let s := Session.new { Sink.unlimited with writeError := "disk full" }
    let source := "block b do print(\"ab\"); print(\"cé\") end"
    let limited := (s.withRoom (some 4)).evaluate source
    (∃ e, limited.1 = .error (.runtime e) ∧ e.fault.kind = .output ∧
      e.fault.message = "disk full") ∧
    limited.2.machine.sink.written = "abcé".toUTF8.extract 0 4 := by
  intro s source limited
  have hflush : s.machine.sink.CanFlush 1 := by
    intro left hleft
    cases hleft
  obtain ⟨bytes, hwritten, -, hfull⟩ := output_cut_at_exact_byte s hflush (.program source) 4
  have hempty : s.machine.sink.written = .empty := rfl
  have hall : ((s.withRoom none).perform (.program source)).2.machine.sink.written =
      "abcé".toUTF8 := by decide +kernel
  rw [hall, hempty, ByteArray.empty_append] at hwritten
  rw [← hwritten, hempty, ByteArray.empty_append] at hfull
  exact hfull (by decide +kernel)

end Session

end CalcScript

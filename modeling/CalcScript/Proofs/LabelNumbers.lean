/-
`Proofs/LabelNumbers.lean` -- the numbers of labels do not matter.

Give the labels of a machine other numbers, one to one, and let the counter start elsewhere,
above them: a run is the same run, with the labels that it makes and the exit that it may end
with under other numbers (`Renumbering.eval_carries`). The new numbers of future labels are fixed
beforehand, because both runs count upwards by one. Only two steps look at a number. A label
that is applied passes its own on, and the run of a block compares one with its own; since no two
numbers in use become one, both runs of the block decide alike.

A session has no exit left over, so its answer shows no number (`Session.evaluateExpr_renumbered`).
-/
import CalcScript.Proofs.Equivariance
import CalcScript.Proofs.Exits

set_option autoImplicit false

namespace CalcScript

open Eval

/-! ## 1. Other numbers -/

/-- Other numbers for labels. The numbers in use, all below `next`, get one each below `next'`;
those that will come into use are counted from `next'` on. -/
structure Renumbering where
  inUse : Nat → Prop
  old : Nat → Nat
  next : Nat
  next' : Nat
  lt_next {i : Nat} : inUse i → i < next
  old_lt {i : Nat} : inUse i → old i < next'
  old_inj {i j : Nat} : inUse i → inUse j → old i = old j → i = j

namespace Renumbering

variable (N : Renumbering) {α β : Type} {i j n : Nat}

/-- The numbers that occur: those in use, and those of the labels to come. -/
def Occurs (i : Nat) : Prop := N.inUse i ∨ N.next ≤ i

/-- The number in the place of another. -/
def number (i : Nat) : Nat := if i < N.next then N.old i else N.next' + (i - N.next)

variable {N}

theorem number_of_inUse (h : N.inUse i) : N.number i = N.old i := if_pos (N.lt_next h)

theorem number_of_le (h : N.next ≤ i) : N.number i = N.next' + (i - N.next) :=
  if_neg (Nat.not_lt.mpr h)

theorem number_succ (h : N.next ≤ i) : N.number (i + 1) = N.number i + 1 := by
  rw [number_of_le h, number_of_le (by omega)]
  omega

theorem number_lt (hi : N.Occurs i) (hn : N.next ≤ n) (hlt : i < n) : N.number i < N.number n := by
  rw [number_of_le hn]
  rcases hi with hi | hi
  · have hold := N.old_lt hi
    rw [number_of_inUse hi]
    omega
  · rw [number_of_le hi]
    omega

/-- No two numbers that occur become one. -/
theorem number_inj (hi : N.Occurs i) (hj : N.Occurs j) : N.number i = N.number j ↔ i = j := by
  refine ⟨fun heq => ?_, congrArg N.number⟩
  rcases hi with hi | hi <;> rcases hj with hj | hj
  · rw [number_of_inUse hi, number_of_inUse hj] at heq
    exact N.old_inj hi hj heq
  · have hlt := number_lt (.inl hi) hj (Nat.lt_of_lt_of_le (N.lt_next hi) hj)
    omega
  · have hlt := number_lt (.inl hj) hi (Nat.lt_of_lt_of_le (N.lt_next hj) hi)
    omega
  · rw [number_of_le hi, number_of_le hj] at heq
    omega

/-! ## 2. Machines and outcomes under other numbers -/

end Renumbering

/-- The label under another number. -/
def Label.renumber (f : Nat → Nat) (l : Label) : Label := { l with id := f l.id }

namespace Renumbering

variable (N : Renumbering) {α β : Type}

def machine (m : Machine) : Machine :=
  m.redress m.store.closures (m.store.labels.map (Label.renumber N.number))
    (N.number m.store.nextLabel) m.sink.flushes

def signal : Signal → Signal
  | .exit id value => .exit (N.number id) value
  | signal => signal

def outcome : EStateM.Result Signal Machine α → EStateM.Result Signal Machine α
  | .ok a m => .ok a (N.machine m)
  | .error signal m => .error (N.signal signal) (N.machine m)

/-- All numbers of labels occur and have been given out. -/
structure Covers (m : Machine) : Prop where
  next_le : N.next ≤ m.store.nextLabel
  label (r : LabelRef) (l : Label) :
    m.store.label? r = some l → N.Occurs l.id ∧ l.id < m.store.nextLabel

/-- An exit goes to a number that occurs. -/
def Known : Signal → Prop
  | .exit id _ => N.Occurs id
  | _ => True

def Yields : EStateM.Result Signal Machine α → Prop
  | .ok _ m => N.Covers m
  | .error signal m => N.Covers m ∧ N.Known signal

/-- The second evaluation is the first one under other numbers. -/
def Carries (x x' : Eval α) : Prop :=
  ∀ m, N.Covers m → x' (N.machine m) = N.outcome (x m) ∧ N.Yields (x m)

variable {N}

theorem label?_machine (m : Machine) (r : LabelRef) :
    (N.machine m).store.label? r = (m.store.label? r).map (Label.renumber N.number) :=
  Array.getElem?_map ..

/-- A change that leaves the labels alone. -/
theorem Covers.of_sameLabels {m m' : Machine} (h : N.Covers m)
    (hsame : m.store.SameLabels m'.store) : N.Covers m' := by
  obtain ⟨hlabels, hnext⟩ := hsame
  refine ⟨hnext ▸ h.next_le, fun r l hl => ?_⟩
  rw [Store.label?, hlabels] at hl
  rw [hnext]
  exact h.label r l hl

theorem Covers.enterBlock {m : Machine} (h : N.Covers m) (name : Option String)
    (scope : ScopeRef) : N.Covers (m.enterBlock name scope).2 := by
  refine ⟨Nat.le_succ_of_le h.next_le, fun r l hl => ?_⟩
  rw [m.enterBlock_label?] at hl
  rw [m.enterBlock_nextLabel]
  split at hl
  · cases hl
    exact ⟨.inr h.next_le, Nat.lt_succ_self _⟩
  · obtain ⟨hoccurs, hlt⟩ := h.label r l hl
    exact ⟨hoccurs, Nat.lt_succ_of_lt hlt⟩

theorem Covers.leaveBlock {m : Machine} (h : N.Covers m) (r : LabelRef) :
    N.Covers (m.leaveBlock r) := by
  refine ⟨h.next_le, fun r' l hl => ?_⟩
  rw [Store.label?, Machine.leaveBlock, Store.closeLabel, Array.getElem?_modify] at hl
  split at hl
  · -- the label that is closed keeps its number
    obtain ⟨old, hold, rfl⟩ := Option.map_eq_some_iff.mp hl
    exact h.label r' old hold
  · exact h.label r' l hl

/-- A block is entered alike, since both counters go up by one. -/
theorem machine_enterBlock {m : Machine} (h : N.Covers m) (name : Option String)
    (scope : ScopeRef) : (N.machine m).enterBlock name scope =
      ((m.enterBlock name scope).1, N.machine (m.enterBlock name scope).2) := by
  have hsize : (N.machine m).store.labels.size = m.store.labels.size := Array.size_map ..
  have hnext := number_succ h.next_le
  have hpush : (m.store.labels.map (Label.renumber N.number)).push
      ⟨N.number m.store.nextLabel, name, true⟩ =
        (m.store.labels.push ⟨m.store.nextLabel, name, true⟩).map (Label.renumber N.number) := by
    rw [Array.map_push]
    rfl
  simp only [Machine.enterBlock, Store.openLabel, Store.newLabel, Store.newScope, hsize]
  simp only [machine, Machine.redress, Store.redress, hpush, hnext]

theorem machine_leaveBlock (m : Machine) (r : LabelRef) :
    (N.machine m).leaveBlock r = N.machine (m.leaveBlock r) := by
  have hlabels : (m.store.labels.map (Label.renumber N.number)).modify r.index
      (fun l => { l with active := false }) =
        (m.store.labels.modify r.index fun l => { l with active := false }).map
          (Label.renumber N.number) := by
    apply Array.ext_getElem?
    intro i
    simp only [Array.getElem?_modify, Array.getElem?_map]
    split
    · cases m.store.labels[i]? <;> rfl
    · rfl
  simp only [Machine.leaveBlock, Store.closeLabel, machine, Machine.redress, Store.redress, hlabels]

/-! ## 3. Steps -/

namespace Carries

theorem pure (a : α) : N.Carries (Pure.pure a) (Pure.pure a) := fun _ hm => ⟨rfl, hm⟩

/-- An evaluation that leaves the machine alone and raises no exit. -/
theorem throw {signal : Signal} (h : ∀ id v, signal ≠ .exit id v) :
    N.Carries (MonadExcept.throw signal : Eval α) (MonadExcept.throw signal) := by
  intro m hm
  cases signal with
  | exit id v => exact absurd rfl (h id v)
  | error e => exact ⟨rfl, hm, trivial⟩
  | exhausted => exact ⟨rfl, hm, trivial⟩

theorem bind {x x' : Eval α} {k k' : α → Eval β} (hx : N.Carries x x')
    (hk : ∀ a, N.Carries (k a) (k' a)) : N.Carries (x >>= k) (x' >>= k') := by
  intro m hm
  obtain ⟨hrun, hyields⟩ := hx m hm
  cases h : x m with
  | ok a m₁ =>
    rw [h] at hrun hyields
    rw [bind_of_ok h, bind_of_ok hrun]
    exact hk a m₁ hyields
  | error signal m₁ =>
    rw [h] at hrun hyields
    rw [bind_of_error h, bind_of_error hrun]
    exact ⟨rfl, hyields⟩

theorem truthy (v : Value) : N.Carries (Eval.truthy v) (Eval.truthy v) := by
  intro m hm
  have htruthy : (N.machine m).store.truthy v = m.store.truthy v :=
    m.store.truthy_redress _ _ _ v
  refine ⟨?_, hm⟩
  show EStateM.Result.ok ((N.machine m).store.truthy v) (N.machine m) = _
  rw [htruthy]
  rfl

theorem lookup (name : String) (pos : Position) (scope : ScopeRef) :
    N.Carries (Eval.lookup name pos scope) (Eval.lookup name pos scope) := by
  intro m hm
  have hresolve : (N.machine m).store.resolve? scope name = m.store.resolve? scope name :=
    m.store.resolve?_redress _ _ _ scope name
  rw [Eval.lookup, get_bind, get_bind, Store.lookup?, Store.lookup?, hresolve]
  cases m.store.resolve? scope name with
  | some found => exact ⟨rfl, hm⟩
  | none => exact ⟨rfl, hm, trivial⟩

theorem assign (name : String) (value : Value) (pos : Position) (scope : ScopeRef) :
    N.Carries (Eval.assign name value pos scope) (Eval.assign name value pos scope) := by
  intro m hm
  have hresolve : (N.machine m).store.resolve? scope name = m.store.resolve? scope name :=
    m.store.resolve?_redress _ _ _ scope name
  cases h : m.store.resolve? scope name with
  | some found =>
    rw [assign_of_resolve? h, assign_of_resolve? (hresolve.trans h)]
    exact ⟨rfl, hm.of_sameLabels ⟨rfl, rfl⟩⟩
  | none =>
    rw [assign_of_unresolved h, assign_of_unresolved (hresolve.trans h)]
    exact ⟨rfl, hm, trivial⟩

/-- A built-in operation sees of a label its name only. -/
theorem callPrimitive (p : Primitive) (args : List Value) :
    N.Carries (Eval.callPrimitive p args) (Eval.callPrimitive p args) := by
  intro m hm
  have hshows : m.store.Shows m.store.closures := fun _ => rfl
  have hlabels : m.store.ShowsLabels (m.store.labels.map (Label.renumber N.number)) := by
    intro i
    rw [Array.getElem?_map]
    cases m.store.labels[i]? <;> rfl
  have hsame := p.call_sameLabels args m
  obtain ⟨hclosures, hflushes⟩ := p.call_frame args m
  have hcall : p.call args (N.machine m) = ((p.call args m).1, N.machine (p.call args m).2) := by
    rw [machine, p.call_redress hshows hlabels, machine, hclosures, hflushes, hsame.1, hsame.2]
  have hcovers := hm.of_sameLabels hsame
  rw [Eval.callPrimitive, Eval.callPrimitive, hcall]
  generalize p.call args m = called at hcovers
  obtain ⟨fault | value, m₁⟩ := called
  · exact ⟨rfl, hcovers, trivial⟩
  · exact ⟨rfl, hcovers⟩

/-- A label that is applied passes its number on. -/
theorem exitTo (r : LabelRef) (args : List Value) :
    N.Carries (Eval.exitTo r args) (Eval.exitTo r args) := by
  intro m hm
  rw [Settled.exitTo_eq, Settled.exitTo_eq, label?_machine]
  cases hl : m.store.label? r with
  | none => exact ⟨rfl, hm, trivial⟩
  | some l =>
    have hactive : (l.renumber N.number).active = l.active := rfl
    dsimp only [Option.map_some]
    rw [hactive]
    split
    · split
      · exact ⟨rfl, hm, (hm.label r l hl).1⟩
      · exact ⟨rfl, hm, trivial⟩
    · exact ⟨rfl, hm, trivial⟩

theorem locating (pos : Position) {x x' : Eval Value} (hx : N.Carries x x') :
    N.Carries (Eval.locating pos x) (Eval.locating pos x') := by
  intro m hm
  obtain ⟨hrun, hyields⟩ := hx m hm
  rw [Eval.locating, Eval.locating, hrun]
  generalize x m = result at hyields
  cases result with
  | ok v m₁ => exact ⟨rfl, hyields⟩
  | error signal m₁ => cases signal <;> exact ⟨rfl, hyields⟩

/-- The run of a block takes the same exits: numbers that differ still do. -/
theorem inBlock (name : Option String) (scope : ScopeRef) {body body' : ScopeRef → Eval Value}
    (hbody : ∀ inner, N.Carries (body inner) (body' inner)) :
    N.Carries (Eval.inBlock name scope body) (Eval.inBlock name scope body') := by
  intro m hm
  have href : (N.machine m).store.nextRef = m.store.nextRef :=
    congrArg LabelRef.mk (Array.size_map ..)
  have hnext : (N.machine m).store.nextLabel = N.number m.store.nextLabel := rfl
  obtain ⟨hrun, hyields⟩ := hbody (m.enterBlock name scope).1 _ (hm.enterBlock name scope)
  rw [inBlock_eq, inBlock_eq, machine_enterBlock hm, href, hnext]
  dsimp only
  rw [hrun]
  generalize body (m.enterBlock name scope).1 (m.enterBlock name scope).2 = result at hyields
  cases result with
  | ok v m₁ =>
    have hleave : N.Covers (m₁.leaveBlock m.store.nextRef) := hyields.leaveBlock _
    simp only [outcome, machine_leaveBlock]
    exact ⟨trivial, hleave⟩
  | error signal m₁ =>
    have hleave := hyields.1.leaveBlock m.store.nextRef
    cases signal with
    | error e =>
      simp only [outcome, signal, machine_leaveBlock]
      exact ⟨trivial, hleave, trivial⟩
    | exhausted =>
      simp only [outcome, signal, machine_leaveBlock]
      exact ⟨trivial, hleave, trivial⟩
    | exit target value =>
      -- the exit ends here or goes on, in both runs alike
      have hinj := number_inj hyields.2 (.inr hm.next_le : N.Occurs m.store.nextLabel)
      simp only [outcome, signal, machine_leaveBlock, hinj]
      split
      · exact ⟨rfl, hleave⟩
      · exact ⟨rfl, hleave, hyields.2⟩

theorem inCall (r : ClosureRef) (args : List Value) {run run' : Expr → ScopeRef → Eval Value}
    (hrun : ∀ e scope, N.Carries (run e scope) (run' (e.relocate id) scope)) :
    N.Carries (Eval.inCall r args run) (Eval.inCall r args run') := by
  intro m hm
  have hclosure : (N.machine m).store.closure? r = m.store.closure? r := rfl
  rw [inCall_eq, inCall_eq, hclosure]
  cases m.store.closure? r with
  | none => exact ⟨rfl, hm, trivial⟩
  | some c =>
    have hinner : (N.machine m).enterCall c args =
        ((m.enterCall c args).1, N.machine (m.enterCall c args).2) := rfl
    have hcovers : N.Covers (m.enterCall c args).2 := hm.of_sameLabels ⟨rfl, rfl⟩
    have hbody := hrun c.body (m.enterCall c args).1 _ hcovers
    rw [Expr.relocate_id] at hbody
    dsimp only
    rw [hinner]
    split
    · exact hbody
    · exact ⟨rfl, hm, trivial⟩

end Carries

/-! ## 4. All evaluations -/

theorem lockstep (N : Renumbering) : Lockstep id N.Carries where
  pure := .pure
  bind := .bind
  exhausted := .throw (by simp)
  notCallable _ := .throw (by simp)
  truthy := .truthy
  lookup := .lookup
  define _ _ _ := fun _ hm => ⟨rfl, hm.of_sameLabels ⟨rfl, rfl⟩⟩
  assign := .assign
  newArray _ := fun _ hm => ⟨rfl, hm.of_sameLabels ⟨rfl, rfl⟩⟩
  newClosure c := by
    rw [Expr.relocate_id]
    exact fun _ hm => ⟨rfl, hm.of_sameLabels ⟨rfl, rfl⟩⟩
  callPrimitive := .callPrimitive
  exitTo := .exitTo
  locating := .locating
  inBlock := .inBlock
  inCall := .inCall

/-- **A run under other numbers is the run with its numbers changed.** -/
theorem eval_carries (N : Renumbering) (n : Nat) (e : Expr) (scope : ScopeRef) :
    N.Carries (eval n e scope) (eval n e scope) := by
  have heval := (N.lockstep.within n).eval e scope
  rwa [Expr.relocate_id] at heval

end Renumbering

/-! ## 5. Sessions -/

namespace Session

/-- The second session is the first one with other numbers for the labels, one to one. The
counters are above all numbers in use. -/
structure Renumbered (f : Nat → Nat) (s s' : Session) : Prop where
  arrays_eq : s'.machine.store.arrays = s.machine.store.arrays
  closures_eq : s'.machine.store.closures = s.machine.store.closures
  scopes_eq : s'.machine.store.scopes = s.machine.store.scopes
  sink_eq : s'.machine.sink = s.machine.sink
  labels_eq : s'.machine.store.labels = s.machine.store.labels.map (Label.renumber f)
  injective : ∀ l ∈ s.machine.store.labels, ∀ k ∈ s.machine.store.labels,
    f l.id = f k.id → l.id = k.id
  below : ∀ l ∈ s.machine.store.labels,
    l.id < s.machine.store.nextLabel ∧ f l.id < s'.machine.store.nextLabel

variable {s s' : Session} {f : Nat → Nat}

/-- The numbers of all labels, those to come included. -/
def Renumbered.renumbering (h : Renumbered f s s') : Renumbering where
  inUse i := ∃ l ∈ s.machine.store.labels, l.id = i
  old := f
  next := s.machine.store.nextLabel
  next' := s'.machine.store.nextLabel
  lt_next := by
    rintro _ ⟨l, hl, rfl⟩
    exact (h.below l hl).1
  old_lt := by
    rintro _ ⟨l, hl, rfl⟩
    exact (h.below l hl).2
  old_inj := by
    rintro _ _ ⟨l, hl, rfl⟩ ⟨k, hk, rfl⟩
    exact h.injective l hl k hk

theorem Renumbered.covers (h : Renumbered f s s') : h.renumbering.Covers s.machine := by
  refine ⟨Nat.le_refl _, fun r l hl => ?_⟩
  have hmem : l ∈ s.machine.store.labels := Array.mem_of_getElem? hl
  exact ⟨.inl ⟨l, hmem, rfl⟩, (h.below l hmem).1⟩

theorem Renumbered.number_eq (h : Renumbered f s s') :
    ∀ l ∈ s.machine.store.labels, h.renumbering.number l.id = f l.id :=
  fun l hl => Renumbering.number_of_inUse ⟨l, hl, rfl⟩

theorem Renumbered.machine_eq (h : Renumbered f s s') :
    s'.machine = h.renumbering.machine s.machine := by
  have hlabels : s.machine.store.labels.map (Label.renumber f) =
      s.machine.store.labels.map (Label.renumber h.renumbering.number) := by
    refine Array.map_congr_left fun l hl => ?_
    rw [Label.renumber, Label.renumber, h.number_eq l hl]
  have hnext : h.renumbering.number s.machine.store.nextLabel = s'.machine.store.nextLabel := by
    have hle : h.renumbering.next ≤ s.machine.store.nextLabel := Nat.le_refl _
    rw [Renumbering.number_of_le hle]
    exact congrArg (s'.machine.store.nextLabel + ·) (Nat.sub_self _)
  obtain ⟨⟨⟨arrays, closures, labels, scopes, next⟩, sink⟩⟩ := s'
  have harrays := h.arrays_eq
  have hclosures := h.closures_eq
  have hscopes := h.scopes_eq
  have hsink := h.sink_eq
  have htable := h.labels_eq
  dsimp only at harrays hclosures hscopes hsink htable hnext
  rw [Renumbering.machine, Machine.redress, Store.redress, ← hlabels, hnext, harrays, hclosures,
    hscopes, hsink, htable]

/-- Machines of sessions under other numbers, read as such. -/
theorem renumbered_of_covers {N : Renumbering} {m : Machine} (h : N.Covers m) :
    Renumbered N.number ⟨m⟩ ⟨N.machine m⟩ where
  arrays_eq := rfl
  closures_eq := rfl
  scopes_eq := rfl
  sink_eq := rfl
  labels_eq := rfl
  injective l hl k hk heq := by
    obtain ⟨i, hi⟩ := Array.mem_iff_getElem?.mp hl
    obtain ⟨j, hj⟩ := Array.mem_iff_getElem?.mp hk
    exact (Renumbering.number_inj (h.label ⟨i⟩ l hi).1 (h.label ⟨j⟩ k hj).1).mp heq
  below l hl := by
    obtain ⟨i, hi⟩ := Array.mem_iff_getElem?.mp hl
    obtain ⟨hoccurs, hlt⟩ := h.label ⟨i⟩ l hi
    exact ⟨hlt, Renumbering.number_lt hoccurs h.next_le hlt⟩

/-- Sessions that differ in the numbers of labels answer a tree alike, and differ in numbers
again. -/
theorem evaluateExpr_renumbered (h : Renumbered f s s') (hs : s.machine.store.Tracks [])
    (e : Expr) : (s'.evaluateExpr e).1 = (s.evaluateExpr e).1 ∧
      Renumbered h.renumbering.number (s.evaluateExpr e).2 (s'.evaluateExpr e).2 := by
  obtain ⟨hrun, hyields⟩ := h.renumbering.eval_carries depth e globals s.machine h.covers
  rw [← h.machine_eq] at hrun
  -- both sinks are flushed, and they are the same
  have hsink : ∀ m, (h.renumbering.machine m).sink = m.sink := fun _ => rfl
  have hflushed : ∀ m : Machine, h.renumbering.Covers m → Renumbered h.renumbering.number
      ⟨m.store, m.sink.flush.2⟩ ⟨(h.renumbering.machine m).store, m.sink.flush.2⟩ := by
    intro m hm
    have hcovers : h.renumbering.Covers ⟨m.store, m.sink.flush.2⟩ := ⟨hm.next_le, hm.label⟩
    exact renumbered_of_covers hcovers
  rw [evaluateExpr, evaluateExpr]
  cases hx : eval depth e globals s.machine with
  | ok value m =>
    rw [hx] at hrun hyields
    rw [finish_of_ok hx, finish_of_ok hrun, hsink]
    exact ⟨rfl, hflushed m hyields⟩
  | error signal m =>
    rw [hx] at hrun hyields
    rw [finish_of_error hx, finish_of_error hrun, hsink]
    refine ⟨?_, hflushed m hyields.1⟩
    cases signal with
    | error e => rfl
    | exhausted => rfl
    | exit id value => exact absurd hx ((eval_settled depth e globals).ne_exit hs id value m)

theorem evaluate_renumbered (h : Renumbered f s s')
    (hs : ∀ l ∈ s.machine.store.labels, l.active = false) (source : String) :
    (s'.evaluate source).1 = (s.evaluate source).1 ∧
      ∃ g : Nat → Nat, (∀ l ∈ s.machine.store.labels, g l.id = f l.id) ∧
        Renumbered g (s.evaluate source).2 (s'.evaluate source).2 := by
  unfold evaluate
  split
  · next e _ =>
    obtain ⟨hanswer, hafter⟩ := evaluateExpr_renumbered h (Store.Tracks.nil_iff.mpr hs) e
    exact ⟨hanswer, _, h.number_eq, hafter⟩
  · exact ⟨rfl, f, fun _ _ => rfl, h⟩

end Session

end CalcScript

/-
`Proofs/Similarity.lean` -- runs that differ in places only.

Nothing that a program does depends on the places in its tree: they are carried
along and show up in errors. So a tree and the same tree further down, started on
machines that differ in nothing but the places inside their functions and in the
flushes their sinks have left, do the same things and end alike
(`Drift.within`). The second run may have more depth than the first one. With
nothing moved it is the first run again, only deeper, so the depth does not
matter as soon as it suffices (`eval_of_le`).

The relation is between evaluations, with one rule for each kind of step. That
the rules cover every tree is one induction on the depth.
-/
import CalcScript.Proofs.Relocation
import CalcScript.Proofs.Scopes

set_option autoImplicit false

namespace CalcScript

open Eval

/-! ## 1. Places in errors -/

/-- The error at another place. One without a place stays without. -/
def RuntimeError.relocate (f : Position → Position) (e : RuntimeError) : RuntimeError :=
  { e with pos := e.pos.map f }

/-- Only errors carry places. -/
def Signal.relocate (f : Position → Position) : Signal → Signal
  | .error e => .error (e.relocate f)
  | signal => signal

theorem RuntimeError.relocate_id (e : RuntimeError) : e.relocate id = e := by
  rw [relocate, Option.map_id_fun, id]

theorem Signal.relocate_id (signal : Signal) : signal.relocate id = signal := by
  cases signal with
  | error e => rw [relocate, e.relocate_id]
  | exit label value => rfl
  | exhausted => rfl

theorem Signal.relocate_ne_exhausted {signal : Signal} (f : Position → Position)
    (h : signal ≠ .exhausted) : signal.relocate f ≠ .exhausted := by
  cases signal with
  | error e => simp [relocate]
  | exit label value => simp [relocate]
  | exhausted => exact absurd rfl h

/-! ## 2. Machines that differ in functions and flushes -/

/-- The machine with other functions and another number of flushes left. -/
def Machine.patch (m : Machine) (functions : Array Closure) (flushes : Option Nat) : Machine :=
  ⟨{ m.store with closures := functions }, { m.sink with flushes := flushes }⟩

theorem Machine.patch_self (m : Machine) : m.patch m.store.closures m.sink.flushes = m := rfl

namespace Store

/-- The store with other functions and labels. -/
def redress (s : Store) (functions : Array Closure) (labels : Array Label) (next : Nat) : Store :=
  { s with closures := functions, labels := labels, nextLabel := next }

section Redress

variable (s : Store) (functions : Array Closure) (labels : Array Label) (next : Nat)

/-- Names are looked up in scopes, which are the same. The induction is on the length of the chain.
-/
theorem resolveWithin_redress (name : String) (n : Nat) (r : ScopeRef) :
    (s.redress functions labels next).resolveWithin name n r = s.resolveWithin name n r := by
  induction n generalizing r with
  | zero => rfl
  | succ n ih =>
    have hscope : (s.redress functions labels next).scope? r = s.scope? r := rfl
    simp only [resolveWithin, hscope, ih]

theorem resolve?_redress (r : ScopeRef) (name : String) :
    (s.redress functions labels next).resolve? r name = s.resolve? r name :=
  s.resolveWithin_redress functions labels next name _ r

/-- Functions and labels are compared by reference, never by what they hold. -/
theorem compareWithin_redress {ε : Type} (leaf : Value → Value → Except ε Bool) (n : Nat) :
    (s.redress functions labels next).compareWithin leaf n = s.compareWithin leaf n := by
  induction n with
  | zero => rfl
  | succ n ih =>
    funext x y seen
    unfold compareWithin
    rw [ih]
    rfl

theorem equal_redress (x y : Value) :
    (s.redress functions labels next).equal x y = s.equal x y := by
  rw [equal, equal, compare, compare, compareWithin_redress]
  rfl

theorem truthy_redress (v : Value) : (s.redress functions labels next).truthy v = s.truthy v := by
  cases v <;> rfl

end Redress

/-- The functions of a store read the same as others, one by one. -/
def Shows (s : Store) (functions : Array Closure) : Prop :=
  ∀ i : Nat, functions[i]?.elim "" Closure.text = s.closures[i]?.elim "" Closure.text

/-- The labels of a store read the same as others, one by one. -/
def ShowsLabels (s : Store) (labels : Array Label) : Prop :=
  ∀ i : Nat, labels[i]?.elim "" Label.text = s.labels[i]?.elim "" Label.text

variable {s : Store} {functions : Array Closure} {labels : Array Label}

/-- Only the texts of functions and labels are shown, so they may differ in all else. The induction
is on the depth. -/
theorem textWithin_redress (h : s.Shows functions) (hlabels : s.ShowsLabels labels) (next n : Nat)
    (opened : List ArrayRef) (v : Value) :
    (s.redress functions labels next).textWithin n opened v = s.textWithin n opened v := by
  induction n generalizing opened v with
  | zero =>
    cases v with
    | closure r => exact h r.index
    | label r => exact hlabels r.index
    | bool b => cases b <;> rfl
    | _ => rfl
  | succ n ih =>
    cases v with
    | closure r => exact h r.index
    | label r => exact hlabels r.index
    | bool b => cases b <;> rfl
    | array r =>
      have hitems : (s.redress functions labels next).items r = s.items r := rfl
      have htexts : (s.redress functions labels next).textWithin n (r :: opened) =
          s.textWithin n (r :: opened) := funext (ih (r :: opened))
      simp only [textWithin, hitems, htexts]
    | _ => rfl

theorem printed_redress (h : s.Shows functions) (hlabels : s.ShowsLabels labels) (next : Nat)
    (values : List Value) :
    Primitive.printed (s.redress functions labels next) values = Primitive.printed s values := by
  have htext : (s.redress functions labels next).text = s.text :=
    funext fun v => textWithin_redress h hlabels next _ [] v
  rw [Primitive.printed, Primitive.printed, htext]

end Store

/-- The machine with other functions and labels and another number of flushes left. -/
def Machine.redress (m : Machine) (functions : Array Closure) (labels : Array Label) (next : Nat)
    (flushes : Option Nat) : Machine :=
  ⟨m.store.redress functions labels next, { m.sink with flushes := flushes }⟩

/-- Writing and flushing do not look at each other. -/
theorem Sink.write_flushes (s : Sink) (flushes : Option Nat) (text : String) :
    ({ s with flushes := flushes } : Sink).write text =
      ((s.write text).1, { (s.write text).2 with flushes := flushes }) := by
  cases hroom : s.room <;> simp only [write, hroom]

theorem Primitive.output_redress (m : Machine) (functions : Array Closure) (labels : Array Label)
    (next : Nat) (flushes : Option Nat) (text : String) :
    output (m.redress functions labels next flushes) text =
      ((output m text).1, (output m text).2.redress functions labels next flushes) := by
  simp only [output, Machine.redress, Sink.write_flushes]

/-- A built-in operation looks at nothing of the functions and labels but their texts, and
at nothing of the flushes. -/
theorem Primitive.call_redress {m : Machine} {functions : Array Closure} {labels : Array Label}
    (h : m.store.Shows functions) (hlabels : m.store.ShowsLabels labels) (next : Nat)
    (flushes : Option Nat) (p : Primitive) (args : List Value) :
    p.call args (m.redress functions labels next flushes) =
      ((p.call args m).1, (p.call args m).2.redress functions labels next flushes) := by
  have hprinted : ∀ values, printed (m.redress functions labels next flushes).store values =
      printed m.store values := Store.printed_redress h hlabels next
  have hequal : ∀ x y, (m.redress functions labels next flushes).store.equal x y =
      m.store.equal x y := m.store.equal_redress functions labels next
  unfold call
  split
  -- equality and output go through the whole store
  case h_15 | h_16 => rw [hequal]; rfl
  case h_17 | h_18 => rw [hprinted, output_redress]
  -- these branch on what they find, which is the same on both sides
  case h_20 n | h_21 n _ => cases toLength n <;> rfl
  case h_23 v index value =>
    have hslot : (m.redress functions labels next flushes).store.slot v index =
        m.store.slot v index := rfl
    rw [hslot]
    cases m.store.slot v index <;> rfl
  case h_24 v item => cases v <;> rfl
  case h_25 v =>
    cases v with
    | array r =>
      have hitems : (m.redress functions labels next flushes).store.items r =
          m.store.items r := rfl
      dsimp only
      rw [hitems]
      cases (m.store.items r).back? <;> rfl
    | _ => rfl
  case h_26 v w => cases v <;> cases w <;> rfl
  -- the others leave the machine alone, but for a new array
  all_goals rfl

/-- It changes neither the functions nor the flushes. -/
theorem Primitive.call_frame (p : Primitive) (args : List Value) (m : Machine) :
    (p.call args m).2.store.closures = m.store.closures ∧
      (p.call args m).2.sink.flushes = m.sink.flushes := by
  -- the machine is the one dressed in its own functions, labels and flushes
  have hshows : m.store.Shows m.store.closures := fun _ => rfl
  have hlabels : m.store.ShowsLabels m.store.labels := fun _ => rfl
  have hself : p.call args m = ((p.call args m).1, (p.call args m).2.redress m.store.closures
      m.store.labels m.store.nextLabel m.sink.flushes) :=
    p.call_redress hshows hlabels m.store.nextLabel m.sink.flushes args
  have hmachine := congrArg Prod.snd hself
  exact ⟨congrArg (·.store.closures) hmachine, congrArg (·.sink.flushes) hmachine⟩

/-- The labels may stay as they are. -/
theorem Primitive.call_patch {m : Machine} {functions : Array Closure}
    (h : m.store.Shows functions) (flushes : Option Nat) (p : Primitive) (args : List Value) :
    p.call args (m.patch functions flushes) =
      ((p.call args m).1, (p.call args m).2.patch functions flushes) := by
  have hlabels : m.store.ShowsLabels m.store.labels := fun _ => rfl
  obtain ⟨hsame, hnext⟩ := p.call_sameLabels args m
  have hpatch : (p.call args m).2.patch functions flushes =
      (p.call args m).2.redress functions m.store.labels m.store.nextLabel flushes := by
    rw [← hsame, ← hnext]
    rfl
  rw [hpatch]
  exact p.call_redress h hlabels m.store.nextLabel flushes args

/-! ## 3. Machines alike -/

/-- What a second run may have otherwise than the first one. -/
structure Drift where
  /-- places may be so many lines further down -/
  lines : Nat
  /-- but not in the functions that were there before, so many -/
  shared : Nat
  /-- the flushes left in the first run -/
  flushes : Option Nat
  /-- and in the second one -/
  flushes' : Option Nat

namespace Drift

variable {d : Drift} {α β : Type}

/-- How places move: all of a tree alike, or not at all. -/
def Moves (d : Drift) (f : Position → Position) : Prop := f = id ∨ f = Position.down d.lines

theorem moves_id (d : Drift) : d.Moves id := .inl rfl

theorem moves_down (d : Drift) : d.Moves (Position.down d.lines) := .inr rfl

/-- The functions of the second run are those of the first with places moved. -/
structure Functions (d : Drift) (functions functions' : Array Closure) : Prop where
  size_eq : functions'.size = functions.size
  shared_le : d.shared ≤ functions.size
  moved : ∀ i c, functions[i]? = some c → ∃ f, d.Moves f ∧ (i < d.shared → f = id) ∧
    functions'[i]? = some { c with body := c.body.relocate f }

/-- Both runs make a function at once, and under the same number. -/
theorem Functions.push {functions functions' : Array Closure} (h : d.Functions functions functions')
    {f : Position → Position} (hf : d.Moves f) (c : Closure) :
    d.Functions (functions.push c) (functions'.push { c with body := c.body.relocate f }) where
  size_eq := by rw [Array.size_push, Array.size_push, h.size_eq]
  shared_le := by
    have hle := h.shared_le
    rw [Array.size_push]
    omega
  moved i c' hi := by
    rw [Array.getElem?_push] at hi
    by_cases hlast : i = functions.size
    · -- a new function is not one of those that were there before
      have hle := h.shared_le
      rw [if_pos hlast] at hi
      cases hi
      refine ⟨f, hf, fun hshared => by omega, ?_⟩
      rw [hlast, ← h.size_eq, Array.getElem?_push_size]
    · rw [if_neg hlast] at hi
      obtain ⟨g, hg, hshared, hget⟩ := h.moved i c' hi
      refine ⟨g, hg, hshared, ?_⟩
      rw [Array.getElem?_push, if_neg (by rw [h.size_eq]; exact hlast), hget]

/-- A function that the first run does not have, the second one does not have either. -/
theorem Functions.getElem?_eq_none {functions functions' : Array Closure}
    (h : d.Functions functions functions') {i : Nat} (hi : functions[i]? = none) :
    functions'[i]? = none := by
  rw [Array.getElem?_eq_none_iff, h.size_eq]
  exact Array.getElem?_eq_none_iff.mp hi

theorem Functions.shows {s : Store} {functions : Array Closure}
    (h : d.Functions s.closures functions) : s.Shows functions := by
  intro i
  cases hi : s.closures[i]? with
  | some c =>
    obtain ⟨f, -, -, hget⟩ := h.moved i c hi
    rw [hget]
    rfl
  | none => rw [h.getElem?_eq_none hi]

/-- The machine of the second run is that of the first but for places in functions and
for the flushes. -/
def Alike (d : Drift) (m m' : Machine) : Prop :=
  m.sink.flushes = d.flushes ∧
    ∃ functions, d.Functions m.store.closures functions ∧ m' = m.patch functions d.flushes'

/-- A change that looks at neither the functions nor the flushes and leaves them alone. -/
theorem Alike.change {m m' : Machine} (h : d.Alike m m') {g : Machine → Machine}
    (hclosures : (g m).store.closures = m.store.closures)
    (hflushes : (g m).sink.flushes = m.sink.flushes)
    (hpatch : ∀ functions flushes, g (m.patch functions flushes) = (g m).patch functions flushes) :
    d.Alike (g m) (g m') := by
  obtain ⟨hm, functions, hfunctions, rfl⟩ := h
  refine ⟨hflushes.trans hm, functions, ?_, hpatch functions d.flushes'⟩
  rw [hclosures]
  exact hfunctions

/-! ## 4. Evaluations alike -/

/-- The second outcome is the first one, with the place of an error moved at most. Where
the first run was out of depth, the second one may go on. -/
inductive Outcome (d : Drift) {α : Type} :
    EStateM.Result Signal Machine α → EStateM.Result Signal Machine α → Prop
  | ok {a m m'} (hm : d.Alike m m') : Outcome d (.ok a m) (.ok a m')
  | error (signal : Signal) {f m m'} (hf : d.Moves f) (hm : d.Alike m m') :
    Outcome d (.error signal m) (.error (signal.relocate f) m')
  | exhausted {m r} (hflushes : m.sink.flushes = d.flushes) : Outcome d (.error .exhausted m) r

/-- The second evaluation does on like machines what the first one does. -/
def Follows (d : Drift) (x x' : Eval α) : Prop :=
  ∀ m m', d.Alike m m' → d.Outcome (x m) (x' m')

/-- A fault that nobody has given a place yet. -/
theorem Outcome.fault {m m' : Machine} (hm : d.Alike m m') (fault : Fault) :
    d.Outcome (.error (.error ⟨fault, none⟩) m : EStateM.Result Signal Machine α)
      (.error (.error ⟨fault, none⟩) m') :=
  .error (.error ⟨fault, none⟩) d.moves_id hm

namespace Follows

/-- Where the first run is out of depth, nothing is asked of the second one. -/
theorem exhausted {x : Eval α} : d.Follows (throw .exhausted) x :=
  fun _ _ hm => .exhausted hm.1

theorem pure (a : α) : d.Follows (Pure.pure a) (Pure.pure a) :=
  fun _ _ hm => .ok hm

theorem fail (fault : Fault) : d.Follows (Eval.fail fault : Eval α) (Eval.fail fault) :=
  fun _ _ hm => .fault hm fault

/-- A failing node reports its own place, which has moved with the tree. -/
theorem failAt {f : Position → Position} (hf : d.Moves f) (fault : Fault) (pos : Position) :
    d.Follows (Eval.failAt fault pos : Eval α) (Eval.failAt fault (f pos)) :=
  fun _ _ hm => .error (.error ⟨fault, some pos⟩) hf hm

/-- Both go on from results that are equal and machines that are alike. -/
theorem bind {x x' : Eval α} {k k' : α → Eval β} (hx : d.Follows x x')
    (hk : ∀ a, d.Follows (k a) (k' a)) : d.Follows (x >>= k) (x' >>= k') := by
  intro m m' hm
  show d.Outcome (EStateM.bind x k m) (EStateM.bind x' k' m')
  have hout := hx m m' hm
  rw [EStateM.bind, EStateM.bind]
  generalize x m = r, x' m' = r' at hout
  cases hout with
  | ok hm₁ => exact hk _ _ _ hm₁
  | error signal hf hm₁ => exact .error signal hf hm₁
  | exhausted hflushes => exact .exhausted hflushes

theorem discard {x x' : Eval α} (hx : d.Follows x x') : d.Follows (discard x) (discard x') := by
  rw [discard_eq_bind, discard_eq_bind]
  exact hx.bind fun _ => pure _

/-! ## 5. Single steps -/

theorem truthy (v : Value) : d.Follows (Eval.truthy v) (Eval.truthy v) := by
  rintro m m' hm
  have htruthy : m'.store.truthy v = m.store.truthy v := by
    obtain ⟨-, functions, -, rfl⟩ := hm
    exact m.store.truthy_redress functions _ _ v
  show d.Outcome (.ok (m.store.truthy v) m) (.ok (m'.store.truthy v) m')
  rw [htruthy]
  exact .ok hm

/-- Scopes are the same in both runs. -/
theorem resolve?_eq {m m' : Machine} (hm : d.Alike m m') (scope : ScopeRef) (name : String) :
    m'.store.resolve? scope name = m.store.resolve? scope name := by
  obtain ⟨-, functions, -, rfl⟩ := hm
  exact m.store.resolve?_redress functions _ _ scope name

/-- A name that is unbound is so in both runs, at the place where it stands. -/
theorem lookup {f : Position → Position} (hf : d.Moves f) (name : String) (pos : Position)
    (scope : ScopeRef) :
    d.Follows (Eval.lookup name pos scope) (Eval.lookup name (f pos) scope) := by
  intro m m' hm
  rw [Eval.lookup, Eval.lookup, get_bind, get_bind, Store.lookup?, Store.lookup?, resolve?_eq hm]
  cases m.store.resolve? scope name with
  | some found => exact .ok hm
  | none => exact failAt hf _ pos m m' hm

theorem define (scope : ScopeRef) (name : String) (value : Value) :
    d.Follows (modifyStore (·.define scope name value)) (modifyStore (·.define scope name value)) :=
  fun _ _ hm => .ok (hm.change (g := fun m => ⟨m.store.define scope name value, m.sink⟩)
    rfl rfl fun _ _ => rfl)

theorem assign {f : Position → Position} (hf : d.Moves f) (name : String) (value : Value)
    (pos : Position) (scope : ScopeRef) :
    d.Follows (Eval.assign name value pos scope) (Eval.assign name value (f pos) scope) := by
  intro m m' hm
  have hresolve := resolve?_eq hm scope name
  cases h : m.store.resolve? scope name with
  | some found =>
    rw [assign_of_resolve? h, assign_of_resolve? (hresolve.trans h)]
    exact define found.1 name value m m' hm
  | none =>
    rw [assign_of_unresolved h, assign_of_unresolved (hresolve.trans h)]
    exact failAt hf _ pos m m' hm

theorem newArray (items : Array Value) :
    d.Follows (allocate (·.newArray items)) (allocate (·.newArray items)) := by
  intro m m' hm
  have hm₁ := hm.change (g := fun m => ⟨(m.store.newArray items).2, m.sink⟩) rfl rfl fun _ _ => rfl
  obtain ⟨-, functions, -, rfl⟩ := hm
  exact .ok hm₁

theorem newScope (parent : Option ScopeRef) (bindings : Bindings) :
    d.Follows (allocate (·.newScope parent bindings)) (allocate (·.newScope parent bindings)) := by
  intro m m' hm
  have hm₁ := hm.change (g := fun m => ⟨(m.store.newScope parent bindings).2, m.sink⟩) rfl rfl
    fun _ _ => rfl
  obtain ⟨-, functions, -, rfl⟩ := hm
  exact .ok hm₁

/-- A function that the second run makes has its places where the literal has them. -/
theorem newClosure {f : Position → Position} (hf : d.Moves f) (c : Closure) :
    d.Follows (allocate (·.newClosure c))
      (allocate (·.newClosure { c with body := c.body.relocate f })) := by
  rintro m m' ⟨hflushes, functions, hfunctions, rfl⟩
  have hsize : (m.patch functions d.flushes').store.closures.size = m.store.closures.size :=
    hfunctions.size_eq
  show d.Outcome (.ok (ClosureRef.mk m.store.closures.size) _)
    (.ok (ClosureRef.mk (m.patch functions d.flushes').store.closures.size) _)
  rw [hsize]
  exact .ok ⟨hflushes, _, hfunctions.push hf c, rfl⟩

/-- Operations show functions but do not look into them. -/
theorem callPrimitive (p : Primitive) (args : List Value) :
    d.Follows (Eval.callPrimitive p args) (Eval.callPrimitive p args) := by
  rintro m m' ⟨hflushes, functions, hfunctions, rfl⟩
  obtain ⟨hclosures, hflushes₁⟩ := p.call_frame args m
  have hm₁ : d.Alike (p.call args m).2 ((p.call args m).2.patch functions d.flushes') := by
    refine ⟨hflushes₁.trans hflushes, functions, ?_, rfl⟩
    rw [hclosures]
    exact hfunctions
  rw [Eval.callPrimitive, Eval.callPrimitive, p.call_patch hfunctions.shows]
  generalize p.call args m = called at hm₁
  obtain ⟨fault | value, m₁⟩ := called
  · exact .fault hm₁ fault
  · exact .ok hm₁

/-- Labels are the same in both runs, so both exits fail or both leave with the same number. -/
theorem exitTo (r : LabelRef) (args : List Value) :
    d.Follows (Eval.exitTo r args) (Eval.exitTo r args) := by
  intro m m' hm
  have hlabel : m'.store.label? r = m.store.label? r := by
    obtain ⟨-, functions, -, rfl⟩ := hm
    rfl
  rw [Settled.exitTo_eq, Settled.exitTo_eq, hlabel]
  cases m.store.label? r with
  | none => exact .fault hm _
  | some label =>
    dsimp only
    split
    · split
      · exact .error (.exit label.id (args.headD .null)) d.moves_id hm
      · exact .fault hm _
    · exact .fault hm _

/-! ## 6. Steps around evaluations -/

/-- An error without a place gets one here, and it has moved with the tree. -/
theorem locating {f : Position → Position} (hf : d.Moves f) (pos : Position) {x x' : Eval Value}
    (hx : d.Follows x x') : d.Follows (Eval.locating pos x) (Eval.locating (f pos) x') := by
  intro m m' hm
  have hout := hx m m' hm
  rw [Eval.locating, Eval.locating]
  generalize x m = r, x' m' = r' at hout
  cases hout with
  | ok hm₁ => exact .ok hm₁
  | exhausted hflushes => exact .exhausted hflushes
  | error signal hg hm₁ =>
    -- `hg` moves a place that the error has already, `hf` the one it gets here
    cases signal with
    | exit label value => exact .error (.exit label value) hg hm₁
    | exhausted => exact .exhausted hm₁.1
    | error e =>
      obtain ⟨fault, place⟩ := e
      cases place with
      | none => exact .error (.error ⟨fault, some pos⟩) hf hm₁
      | some p => exact .error (.error ⟨fault, some p⟩) hg hm₁

/-- Both runs open the same label and the same scope, and close them alike. -/
theorem inBlock (name : Option String) (scope : ScopeRef) {body body' : ScopeRef → Eval Value}
    (hbody : ∀ inner, d.Follows (body inner) (body' inner)) :
    d.Follows (Eval.inBlock name scope body) (Eval.inBlock name scope body') := by
  intro m m' hm
  have hinner := hm.change (g := fun m => (m.enterBlock name scope).2) rfl rfl fun _ _ => rfl
  have hsame : (m'.enterBlock name scope).1 = (m.enterBlock name scope).1 ∧
      m'.store.nextRef = m.store.nextRef ∧ m'.store.nextLabel = m.store.nextLabel := by
    obtain ⟨-, functions, -, rfl⟩ := hm
    exact ⟨rfl, rfl, rfl⟩
  obtain ⟨hscope, href, hlabel⟩ := hsame
  have hclosed : ∀ {m₁ m₁'}, d.Alike m₁ m₁' →
      d.Alike (m₁.leaveBlock m.store.nextRef) (m₁'.leaveBlock m.store.nextRef) :=
    fun hm₁ => hm₁.change (g := fun m₁ => m₁.leaveBlock m.store.nextRef) rfl rfl fun _ _ => rfl
  have hout := hbody (m.enterBlock name scope).1 _ _ hinner
  rw [inBlock_eq, inBlock_eq, hscope, href, hlabel]
  generalize body _ _ = r, body' _ _ = r' at hout
  cases hout with
  | ok hm₁ => exact .ok (hclosed hm₁)
  | exhausted hflushes => exact .exhausted hflushes
  | error signal hg hm₁ =>
    cases signal with
    | error e => exact .error (.error e) hg (hclosed hm₁)
    | exhausted => exact .exhausted hm₁.1
    | exit target value =>
      -- both runs have the same number for this block run
      simp only [Signal.relocate]
      split
      · exact .ok (hclosed hm₁)
      · exact .error (.exit target value) hg (hclosed hm₁)

end Follows

/-! ## 7. All evaluations -/

/-- Evaluations within the second depth follow those within the first one. -/
structure Within (d : Drift) (n n' : Nat) : Prop where
  eval {f : Position → Position} (hf : d.Moves f) (e : Expr) (scope : ScopeRef) :
    d.Follows (CalcScript.eval n e scope) (CalcScript.eval n' (e.relocate f) scope)
  all {f : Position → Position} (hf : d.Moves f) (es : List Expr) (scope : ScopeRef) :
    d.Follows (evalAll n es scope) (evalAll n' (Expr.relocateAll f es) scope)
  loop {f : Position → Position} (hf : d.Moves f) (condition body : Expr) (scope : ScopeRef) :
    d.Follows (evalLoop n condition body scope)
      (evalLoop n' (condition.relocate f) (body.relocate f) scope)
  apply (callee : Value) (args : List Value) :
    d.Follows (applyValue n callee args) (applyValue n' callee args)

namespace Within

variable {n n' : Nat} {f : Position → Position}

theorem eval_succ (ih : d.Within n n') (hf : d.Moves f) (e : Expr) (scope : ScopeRef) :
    d.Follows (CalcScript.eval (n + 1) e scope)
      (CalcScript.eval (n' + 1) (e.relocate f) scope) := by
  cases e with
  | literal l => exact .pure _
  | primitive p => exact .pure _
  | array items =>
    exact (ih.all hf items scope).bind fun _ => (Follows.newArray _).bind fun _ => .pure _
  | var name pos => exact .lookup hf name pos scope
  | store name value =>
    exact (ih.eval hf value scope).bind fun _ => (Follows.define scope name _).bind fun _ => .pure _
  | update name value pos =>
    exact (ih.eval hf value scope).bind fun _ =>
      (Follows.assign hf name _ pos scope).bind fun _ => .pure _
  | seq first rest => exact (ih.eval hf first scope).discard.bind fun _ => ih.eval hf rest scope
  | and left right =>
    refine (ih.eval hf left scope).bind fun v => (Follows.truthy v).bind fun b => ?_
    cases b with
    | true =>
      exact (ih.eval hf right scope).bind fun w => (Follows.truthy w).bind fun _ => .pure _
    | false => exact .pure _
  | or left right =>
    refine (ih.eval hf left scope).bind fun v => (Follows.truthy v).bind fun b => ?_
    cases b with
    | true => exact .pure _
    | false =>
      exact (ih.eval hf right scope).bind fun w => (Follows.truthy w).bind fun _ => .pure _
  | cond condition consequent alternate =>
    refine (ih.eval hf condition scope).bind fun v => (Follows.truthy v).bind fun b => ?_
    cases b with
    | true => exact ih.eval hf consequent scope
    | false => exact ih.eval hf alternate scope
  | loop condition body => exact ih.loop hf condition body scope
  | func params body => exact (Follows.newClosure hf ⟨params, body, scope⟩).bind fun _ => .pure _
  | apply callee args pos =>
    exact (ih.eval hf callee scope).bind fun v => (ih.all hf args scope).bind fun vs =>
      .locating hf pos (ih.apply v vs)
  | block name body => exact .inBlock name scope fun inner => ih.eval hf body inner

theorem all_succ (ih : d.Within n n') (hf : d.Moves f) (es : List Expr) (scope : ScopeRef) :
    d.Follows (evalAll (n + 1) es scope) (evalAll (n' + 1) (Expr.relocateAll f es) scope) := by
  cases es with
  | nil => exact .pure _
  | cons e es =>
    exact (ih.eval hf e scope).bind fun _ => (ih.all hf es scope).bind fun _ => .pure _

theorem loop_succ (ih : d.Within n n') (hf : d.Moves f) (condition body : Expr) (scope : ScopeRef) :
    d.Follows (evalLoop (n + 1) condition body scope)
      (evalLoop (n' + 1) (condition.relocate f) (body.relocate f) scope) := by
  refine (ih.eval hf condition scope).bind fun v => (Follows.truthy v).bind fun b => ?_
  cases b with
  | true => exact (ih.eval hf body scope).discard.bind fun _ => ih.loop hf condition body scope
  | false => exact .pure _

/-- A called function brings its own places: those of the program that made it. -/
theorem call_succ (ih : d.Within n n') (r : ClosureRef) (args : List Value) :
    d.Follows (applyValue (n + 1) (.closure r) args) (applyValue (n' + 1) (.closure r) args) := by
  intro m m' hm
  obtain ⟨-, functions, hfunctions, hpatch⟩ := id hm
  have hfind : m'.store.closure? r = functions[r.index]? := by rw [hpatch]; rfl
  rw [applyValue, applyValue, get_bind, get_bind, hfind]
  cases hc : m.store.closure? r with
  | none =>
    rw [hfunctions.getElem?_eq_none hc]
    exact .fault hm _
  | some c =>
    -- the body has moved in its own way, which need not be that of the call
    obtain ⟨f, hf, -, hc'⟩ := hfunctions.moved r.index c hc
    rw [hc']
    dsimp only
    split
    · exact (Follows.newScope _ _).bind (fun inner => ih.eval hf c.body inner) m m' hm
    · exact .fault hm _

/-- Only functions bring places with them; the other values are applied as they are. -/
theorem apply_succ (ih : d.Within n n') (callee : Value) (args : List Value) :
    d.Follows (applyValue (n + 1) callee args) (applyValue (n' + 1) callee args) := by
  cases callee with
  | closure r => exact ih.call_succ r args
  | primitive p => exact .callPrimitive p args
  | label r => exact .exitTo r args
  | number _ | bool _ | null | str _ | array _ => exact .fail _

end Within

/-- **A tree further down does what the tree does**, on machines alike and at any depth
from that of the first run on. The induction is on the depth of the first run. -/
theorem within (d : Drift) {n n' : Nat} (h : n ≤ n') : d.Within n n' := by
  induction n generalizing n' with
  | zero =>
    exact ⟨fun _ _ _ => .exhausted, fun _ _ _ => .exhausted, fun _ _ _ _ => .exhausted,
      fun _ _ => .exhausted⟩
  | succ n ih =>
    cases n' with
    | zero => omega
    | succ n' =>
      have ih := ih (Nat.le_of_succ_le_succ h)
      exact ⟨ih.eval_succ, ih.all_succ, ih.loop_succ, ih.apply_succ⟩

/-! ## 8. Runs in which nothing has moved -/

/-- A machine and what becomes of it when only the number of flushes is another one. -/
theorem alike_patch {m : Machine} (hshared : d.shared ≤ m.store.closures.size)
    (hflushes : m.sink.flushes = d.flushes) :
    d.Alike m (m.patch m.store.closures d.flushes') := by
  refine ⟨hflushes, m.store.closures, ⟨rfl, hshared, fun i c hi => ?_⟩, rfl⟩
  exact ⟨id, d.moves_id, fun _ => rfl, by rw [c.body.relocate_id]; exact hi⟩

/-- Nothing of the machine is otherwise in the second run. -/
def still (m : Machine) : Drift := ⟨0, m.store.closures.size, m.sink.flushes, m.sink.flushes⟩

variable {m : Machine}

theorem alike_still (m : Machine) : (still m).Alike m m :=
  alike_patch (d := still m) (Nat.le_refl _) rfl

/-- A drift by no lines moves nothing. -/
theorem eq_id_of_still {f : Position → Position} (h : (still m).Moves f) : f = id := by
  rcases h with h | h
  · exact h
  · rw [h]
    rfl

theorem Alike.eq_of_still {m₁ m₁' : Machine} (h : (still m).Alike m₁ m₁') : m₁' = m₁ := by
  obtain ⟨hflushes, functions, hfunctions, rfl⟩ := h
  have hsame : functions = m₁.store.closures := by
    refine Array.ext_getElem? fun i => ?_
    cases hi : m₁.store.closures[i]? with
    | none => exact hfunctions.getElem?_eq_none hi
    | some c =>
      obtain ⟨f, hf, -, hget⟩ := hfunctions.moved i c hi
      rw [hget, eq_id_of_still hf, c.body.relocate_id]
  -- both runs have the flushes left that they began with
  have hflushes' : (still m).flushes' = m₁.sink.flushes := hflushes.symm
  rw [hsame, hflushes', m₁.patch_self]

/-- With nothing moved the second outcome is the first one, unless the first run was out of depth.
-/
theorem Outcome.eq_of_still {r r' : EStateM.Result Signal Machine α} (h : (still m).Outcome r r')
    (hdone : ∀ m₁, r ≠ .error .exhausted m₁) : r' = r := by
  cases h with
  | ok hm => rw [hm.eq_of_still]
  | error signal hf hm => rw [hm.eq_of_still, eq_id_of_still hf, signal.relocate_id]
  | exhausted => exact absurd rfl (hdone _)

end Drift

/-- Evaluation flushes nothing. -/
theorem eval_flushes {n : Nat} {e : Expr} {scope : ScopeRef} {m m₁ : Machine}
    (h : Leaves (eval n e scope) m m₁) : m₁.sink.flushes = m.sink.flushes := by
  have hout := ((Drift.still m).within (Nat.le_refl n)).eval (.inl rfl) e scope m m
    (Drift.alike_still m)
  rcases h with ⟨v, h⟩ | ⟨signal, h⟩
  · rw [h] at hout
    generalize eval n (e.relocate id) scope m = r at hout
    cases hout with
    | ok hm => exact hm.1
  · rw [h] at hout
    generalize eval n (e.relocate id) scope m = r at hout
    cases hout with
    | error _ _ hm => exact hm.1
    | exhausted hflushes => exact hflushes

/-- More depth than enough changes nothing. -/
theorem eval_of_le {n n' : Nat} (h : n ≤ n') {e : Expr} {scope : ScopeRef} {m : Machine}
    (hdone : ∀ m₁, eval n e scope m ≠ .error .exhausted m₁) :
    eval n' e scope m = eval n e scope m := by
  have hout := ((Drift.still m).within h).eval (.inl rfl) e scope m m (Drift.alike_still m)
  rw [e.relocate_id] at hout
  exact hout.eq_of_still hdone

theorem eval_of_ok {n n' : Nat} (h : n ≤ n') {e : Expr} {scope : ScopeRef} {m m₁ : Machine}
    {v : Value} (hx : eval n e scope m = .ok v m₁) : eval n' e scope m = .ok v m₁ := by
  rw [eval_of_le h (by simp [hx]), hx]

theorem eval_of_error {n n' : Nat} (h : n ≤ n') {e : Expr} {scope : ScopeRef} {m m₁ : Machine}
    {signal : Signal} (hsignal : signal ≠ .exhausted) (hx : eval n e scope m = .error signal m₁) :
    eval n' e scope m = .error signal m₁ := by
  rw [eval_of_le h (by simp [hx, hsignal]), hx]

end CalcScript

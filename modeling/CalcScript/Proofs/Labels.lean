/-
`Proofs/Labels.lean` -- what an evaluation leaves behind in the table of labels.

Each run of a block adds one label to the table, active while the body runs and
ended afterwards. So from the start of any evaluation to its end the table grows
at its far end, by ended labels only, and what was there before is as it was
(`Store.Settles`). An evaluation that ends with an exit was left through a label
that was already active when it started (`Eval.Settled`): the block runs opened
in between have taken the exits meant for them.

Both are said of single steps and carried to all evaluations by
`Eval.Closed.within`.
-/
import CalcScript.Session
import CalcScript.Proofs.Evaluation

set_option autoImplicit false

namespace CalcScript

open Eval

/-! ## 1. The table of labels -/

namespace Store

/-- The label numbered `id` works: a block run with this number has not ended. -/
def HasActive (s : Store) (id : Nat) : Prop :=
  ∃ r l, s.label? r = some l ∧ l.active = true ∧ l.id = id

/-- From `s` to `s'` the table of labels has grown by ended labels only. -/
def Settles (s s' : Store) : Prop :=
  s.nextLabel ≤ s'.nextLabel ∧
  ∃ ended : Array Label, s'.labels = s.labels ++ ended ∧ ∀ l ∈ ended, l.active = false

theorem Settles.of_labels_eq {s s' : Store} (hlabels : s'.labels = s.labels)
    (hnext : s'.nextLabel = s.nextLabel) : s.Settles s' :=
  ⟨Nat.le_of_eq hnext.symm, #[], by simp [hlabels], by simp⟩

theorem Settles.refl (s : Store) : s.Settles s := .of_labels_eq rfl rfl

theorem Settles.trans {s₁ s₂ s₃ : Store} (h₁ : s₁.Settles s₂) (h₂ : s₂.Settles s₃) :
    s₁.Settles s₃ := by
  obtain ⟨hnext₁, ended₁, hlabels₁, hended₁⟩ := h₁
  obtain ⟨hnext₂, ended₂, hlabels₂, hended₂⟩ := h₂
  refine ⟨Nat.le_trans hnext₁ hnext₂, ended₁ ++ ended₂, ?_, ?_⟩
  · rw [hlabels₂, hlabels₁, Array.append_assoc]
  · intro l hl
    rcases Array.mem_append.mp hl with h | h
    · exact hended₁ l h
    · exact hended₂ l h

/-- Old labels stay as they are. -/
theorem Settles.label?_of_lt {s s' : Store} (h : s.Settles s') {r : LabelRef}
    (hr : r.index < s.labels.size) : s'.label? r = s.label? r := by
  obtain ⟨-, ended, hlabels, -⟩ := h
  rw [label?, label?, hlabels, Array.getElem?_append_left hr]

theorem label?_lt {s : Store} {r : LabelRef} {l : Label} (h : s.label? r = some l) :
    r.index < s.labels.size :=
  (Array.getElem?_eq_some_iff.mp h).1

theorem Settles.label? {s s' : Store} (h : s.Settles s') {r : LabelRef} {l : Label}
    (hl : s.label? r = some l) : s'.label? r = some l := by
  rw [h.label?_of_lt (label?_lt hl), hl]

/-- A label that is active afterwards was there and active before. -/
theorem Settles.label?_of_active {s s' : Store} (h : s.Settles s') {r : LabelRef} {l : Label}
    (hl : s'.label? r = some l) (hactive : l.active = true) : s.label? r = some l := by
  by_cases hr : r.index < s.labels.size
  · rwa [h.label?_of_lt hr] at hl
  · -- whatever has been added since has ended
    obtain ⟨-, ended, hlabels, hended⟩ := h
    rw [Store.label?, hlabels, Array.getElem?_append_right (by omega)] at hl
    have hfalse := hended l (Array.mem_of_getElem? hl)
    rw [hactive] at hfalse
    cases hfalse

theorem Settles.size_le {s s' : Store} (h : s.Settles s') : s.labels.size ≤ s'.labels.size := by
  obtain ⟨-, ended, hlabels, -⟩ := h
  rw [hlabels, Array.size_append]
  omega

theorem Settles.hasActive {s s' : Store} (h : s.Settles s') {id : Nat} (hid : s'.HasActive id) :
    s.HasActive id := by
  obtain ⟨r, l, hl, hactive, hlid⟩ := hid
  exact ⟨r, l, h.label?_of_active hl hactive, hactive, hlid⟩

/-! ## 2. Opening and closing -/

/-- The label that a block run opened in `s` gets. -/
def nextRef (s : Store) : LabelRef := ⟨s.labels.size⟩

theorem label?_push (s : Store) (label : Label) (r : LabelRef) :
    ({ s with labels := s.labels.push label } : Store).label? r
      = if r = s.nextRef then some label else s.label? r := by
  obtain ⟨i⟩ := r
  by_cases hi : i = s.labels.size
  · simp [label?, nextRef, hi]
  · have hne : (⟨i⟩ : LabelRef) ≠ s.nextRef := by
      intro h
      exact hi (LabelRef.mk.inj h)
    rw [if_neg hne]
    simp [label?, Array.getElem?_push, hi]

/-- A block run that is over has added its own label, closed, and those of the runs
inside it. -/
theorem Settles.closeLabel {s opened inner : Store} {label : Label}
    (hlabels : opened.labels = s.labels.push label) (hnext : s.nextLabel ≤ opened.nextLabel)
    (h : opened.Settles inner) : s.Settles (inner.closeLabel s.nextRef) := by
  obtain ⟨hle, ended, heq, hended⟩ := h
  refine ⟨Nat.le_trans hnext hle, #[{ label with active := false }] ++ ended, ?_, ?_⟩
  · simp only [Store.closeLabel, nextRef, heq, hlabels]
    -- only the entry of the label itself has changed
    apply Array.ext_getElem?
    intro i
    rw [Array.getElem?_modify, ← Array.append_assoc, Array.push_eq_append]
    by_cases hi : s.labels.size = i
    · subst hi
      simp [Array.getElem?_append]
    · simp only [hi, if_false, Array.getElem?_append]
      grind
  · intro l hl
    rcases Array.mem_append.mp hl with h | h
    · rw [List.mem_toArray.mp h |> List.mem_singleton.mp]
    · exact hended l h

end Store

/-! ## 3. Built-in operations -/

/-- Two stores with the same labels and the same number for the next one. -/
def Store.SameLabels (s s' : Store) : Prop :=
  s'.labels = s.labels ∧ s'.nextLabel = s.nextLabel

/-- A built-in operation changes nothing of the store but the arrays. -/
theorem Primitive.call_store (p : Primitive) (args : List Value) (m : Machine) :
    ∃ arrays, (p.call args m).2.store = { m.store with arrays := arrays } := by
  unfold call
  split
  -- these make or change an array if they are given what they need
  case h_20 n | h_21 n _ => cases toLength n <;> exact ⟨_, rfl⟩
  case h_23 v index value => cases m.store.slot v index <;> exact ⟨_, rfl⟩
  case h_24 v item => cases v <;> exact ⟨_, rfl⟩
  case h_25 v =>
    cases v with
    | array r =>
      dsimp only
      cases (m.store.items r).back? <;> exact ⟨_, rfl⟩
    | _ => exact ⟨_, rfl⟩
  case h_26 v w => cases v <;> cases w <;> exact ⟨_, rfl⟩
  all_goals exact ⟨_, rfl⟩

/-- No built-in operation makes, ends or counts a label. -/
theorem Primitive.call_sameLabels (p : Primitive) (args : List Value) (m : Machine) :
    m.store.SameLabels (p.call args m).2.store := by
  obtain ⟨arrays, hstore⟩ := p.call_store args m
  rw [hstore]
  exact ⟨rfl, rfl⟩

/-! ## 4. Evaluations -/

/-- However the evaluation `x` ends, the labels have settled by then, and if it
ends with an exit, this goes to a label that was active at the start. -/
structure Eval.Settled {α : Type} (x : Eval α) : Prop where
  ok {m m' : Machine} {a : α} : x m = .ok a m' → m.store.Settles m'.store
  error {m m' : Machine} {signal : Signal} : x m = .error signal m' → m.store.Settles m'.store
  exit {m m' : Machine} {id : Nat} {v : Value} :
    x m = .error (.exit id v) m' → m.store.HasActive id

namespace Eval.Settled

variable {α β : Type}

theorem pure (a : α) : Settled (Pure.pure a : Eval α) where
  ok h := by cases h; exact .refl _
  error h := by cases h
  exit h := by cases h

/-- An evaluation that leaves the machine alone and raises no exit. -/
theorem throw {signal : Signal} (h : ∀ id v, signal ≠ .exit id v) :
    Settled (MonadExcept.throw signal : Eval α) where
  ok h := by cases h
  error h := by cases h; exact .refl _
  exit hexit := by cases hexit; exact absurd rfl (h _ _)

theorem bind {x : Eval α} {f : α → Eval β} (hx : Settled x) (hf : ∀ a, Settled (f a)) :
    Settled (x >>= f) where
  ok h := by
    obtain ⟨a, m₁, h₁, h₂⟩ := bind_eq_ok h
    exact (hx.ok h₁).trans ((hf a).ok h₂)
  error h := by
    rcases bind_eq_error h with h | ⟨a, m₁, h₁, h₂⟩
    · exact hx.error h
    · exact (hx.ok h₁).trans ((hf a).error h₂)
  exit h := by
    rcases bind_eq_error h with h | ⟨a, m₁, h₁, h₂⟩
    · exact hx.exit h
    · exact (hx.ok h₁).hasActive ((hf a).exit h₂)

theorem get : Settled (MonadState.get : Eval Machine) where
  ok h := by cases h; exact .refl _
  error h := by cases h
  exit h := by cases h

/-- Adding something that is no label. -/
theorem allocate {f : Store → α × Store} (hf : ∀ s : Store, s.SameLabels (f s).2) :
    Settled (Eval.allocate f) where
  ok h := by cases h; exact .of_labels_eq (hf _).1 (hf _).2
  error h := by cases h
  exit h := by cases h

theorem modifyStore {f : Store → Store} (hf : ∀ s : Store, s.SameLabels (f s)) :
    Settled (Eval.modifyStore f) where
  ok h := by cases h; exact .of_labels_eq (hf _).1 (hf _).2
  error h := by cases h
  exit h := by cases h

theorem lookup (name : String) (pos : Position) (scope : ScopeRef) :
    Settled (Eval.lookup name pos scope) := by
  refine get.bind fun m => ?_
  cases m.store.lookup? scope name with
  | some value => exact pure value
  | none => exact throw (by intro _ _ h; cases h)

theorem assign (name : String) (value : Value) (pos : Position) (scope : ScopeRef) :
    Settled (Eval.assign name value pos scope) := by
  refine get.bind fun m => ?_
  cases m.store.resolve? scope name with
  | some owner => exact modifyStore fun _ => ⟨rfl, rfl⟩
  | none => exact throw (by intro _ _ h; cases h)

theorem callPrimitive (p : Primitive) (args : List Value) :
    Settled (Eval.callPrimitive p args) where
  ok {m m' a} h := by
    have hsame := p.call_sameLabels args m
    unfold Eval.callPrimitive at h
    split at h <;> cases h
    next hcall => rw [hcall] at hsame; exact .of_labels_eq hsame.1 hsame.2
  error {m m' signal} h := by
    have hsame := p.call_sameLabels args m
    unfold Eval.callPrimitive at h
    split at h <;> cases h
    next hcall => rw [hcall] at hsame; exact .of_labels_eq hsame.1 hsame.2
  exit h := by
    unfold Eval.callPrimitive at h
    split at h <;> cases h

/-- Applying a label raises an exit only if the label is active. -/
theorem exitTo_eq (r : LabelRef) (args : List Value) (m : Machine) :
    Eval.exitTo r args m =
      match m.store.label? r with
      | some l =>
        if l.active then
          if args.length ≤ 1 then .error (.exit l.id (args.headD .null)) m
          else .error (.error ⟨.labelArity args.length, none⟩) m
        else .error (.error ⟨.deadLabel, none⟩) m
      | none => .error (.error ⟨.deadLabel, none⟩) m := by
  have hget : (MonadState.get : Eval Machine) m = .ok m m := rfl
  rw [Eval.exitTo, bind_of_ok hget]
  cases m.store.label? r with
  | none => rfl
  | some l =>
    cases hactive : l.active with
    | false => simp only [hactive]; rfl
    | true =>
      rcases args with _ | ⟨a, _ | ⟨b, rest⟩⟩
      · simp only [hactive]; rfl
      · simp only [hactive]; rfl
      · simp only [hactive]; rfl

theorem exitTo (r : LabelRef) (args : List Value) : Settled (Eval.exitTo r args) where
  ok h := by
    rw [exitTo_eq] at h
    split at h
    · split at h
      · split at h <;> cases h
      · cases h
    · cases h
  error h := by
    rw [exitTo_eq] at h
    split at h
    · split at h
      · split at h <;> cases h <;> exact .refl _
      · cases h; exact .refl _
    · cases h; exact .refl _
  exit h := by
    rw [exitTo_eq] at h
    split at h
    · next l hl =>
      split at h
      · next hactive =>
        split at h <;> cases h
        exact ⟨r, l, hl, hactive, rfl⟩
      · cases h
    · cases h

theorem locating (pos : Position) {x : Eval Value} (hx : Settled x) :
    Settled (Eval.locating pos x) where
  ok h := by
    unfold Eval.locating at h
    split at h
    · cases h
    · exact hx.ok h
  error h := by
    unfold Eval.locating at h
    split at h
    · next hm => cases h; exact hx.error hm
    · exact hx.error h
  exit h := by
    unfold Eval.locating at h
    split at h
    · cases h
    · exact hx.exit h

end Eval.Settled

/-! ## 5. Runs of blocks -/

/-- The scope and the machine that the body of a block starts with. -/
def Machine.enterBlock (m : Machine) (name : Option String) (scope : ScopeRef) :
    ScopeRef × Machine :=
  let (label, store) := m.store.openLabel name
  let (inner, store) :=
    store.newScope (some scope) (name.elim [] fun name => [(name, .label label)])
  (inner, ⟨store, m.sink⟩)

/-- The machine behind a run of a block. -/
def Machine.leaveBlock (m : Machine) (label : LabelRef) : Machine :=
  ⟨m.store.closeLabel label, m.sink⟩

theorem Machine.enterBlock_labels (m : Machine) (name : Option String) (scope : ScopeRef) :
    (m.enterBlock name scope).2.store.labels
      = m.store.labels.push ⟨m.store.nextLabel, name, true⟩ := rfl

theorem Machine.enterBlock_nextLabel (m : Machine) (name : Option String) (scope : ScopeRef) :
    (m.enterBlock name scope).2.store.nextLabel = m.store.nextLabel + 1 := rfl

/-- The labels that a block's body can reach: those from outside and its own. -/
theorem Machine.enterBlock_label? (m : Machine) (name : Option String) (scope : ScopeRef)
    (r : LabelRef) : (m.enterBlock name scope).2.store.label? r
      = if r = m.store.nextRef then some ⟨m.store.nextLabel, name, true⟩
        else m.store.label? r :=
  m.store.label?_push ⟨m.store.nextLabel, name, true⟩ r

/-- How a run of a block ends, by how its body does: its label is closed whatever
happens, and an exit with its own number is its value. -/
theorem Eval.inBlock_eq (name : Option String) (scope : ScopeRef) (body : ScopeRef → Eval Value)
    (m : Machine) : Eval.inBlock name scope body m =
      match body (m.enterBlock name scope).1 (m.enterBlock name scope).2 with
      | .ok value m' => .ok value (m'.leaveBlock m.store.nextRef)
      | .error (.exit target value) m' =>
        if target = m.store.nextLabel then .ok value (m'.leaveBlock m.store.nextRef)
        else .error (.exit target value) (m'.leaveBlock m.store.nextRef)
      | .error signal m' => .error signal (m'.leaveBlock m.store.nextRef) := rfl

/-- A block run that is over has settled, whatever its body did. -/
theorem Store.Settles.leaveBlock {m m' : Machine} {name : Option String} {scope : ScopeRef}
    (h : (m.enterBlock name scope).2.store.Settles m'.store) :
    m.store.Settles (m'.leaveBlock m.store.nextRef).store :=
  h.closeLabel (m.enterBlock_labels name scope) (Nat.le_succ _)

theorem Eval.Settled.inBlock (name : Option String) (scope : ScopeRef)
    {body : ScopeRef → Eval Value} (hbody : ∀ inner, Settled (body inner)) :
    Settled (Eval.inBlock name scope body) where
  ok h := by
    rw [inBlock_eq] at h
    split at h
    · next hm => cases h; exact ((hbody _).ok hm).leaveBlock
    · next hm =>
      -- an exit that ends here is a value of the block
      split at h
      · cases h; exact ((hbody _).error hm).leaveBlock
      · cases h
    · cases h
  error h := by
    rw [inBlock_eq] at h
    split at h
    · cases h
    · next hm =>
      split at h
      · cases h
      · cases h; exact ((hbody _).error hm).leaveBlock
    · next hm => cases h; exact ((hbody _).error hm).leaveBlock
  exit {m m' id v} h := by
    rw [inBlock_eq] at h
    split at h
    · cases h
    · next hm =>
      split at h
      · cases h
      · next hne =>
        cases h
        obtain ⟨r, l, hl, hactive, hid⟩ := (hbody _).exit hm
        rw [m.enterBlock_label?] at hl
        by_cases hr : r = m.store.nextRef
        · -- the block's own label has the number that is caught here
          rw [if_pos hr] at hl
          cases hl
          exact absurd hid.symm hne
        · rw [if_neg hr] at hl
          exact ⟨r, l, hl, hactive, hid⟩
    · next hsignal _ => cases h; exact absurd rfl (hsignal _ _)

/-- Settling is closed under evaluation. -/
theorem Eval.closed_settled : Eval.Closed @Eval.Settled where
  pure := .pure
  bind := .bind
  exhausted := .throw (by intro _ _ h; cases h)
  notCallable _ := .throw (by intro _ _ h; cases h)
  arity _ _ := .throw (by intro _ _ h; cases h)
  get := .get
  lookup := .lookup
  define _ _ _ := .modifyStore fun _ => ⟨rfl, rfl⟩
  assign := .assign
  newArray _ := .allocate fun _ => ⟨rfl, rfl⟩
  newClosure _ := .allocate fun _ => ⟨rfl, rfl⟩
  newScope _ _ := .allocate fun _ => ⟨rfl, rfl⟩
  callPrimitive := .callPrimitive
  exitTo := .exitTo
  locating := .locating
  inBlock := .inBlock

theorem eval_settled (n : Nat) (e : Expr) (scope : ScopeRef) : Settled (eval n e scope) :=
  (closed_settled.within n).1 e scope

theorem evalAll_settled (n : Nat) (es : List Expr) (scope : ScopeRef) :
    Settled (evalAll n es scope) :=
  (closed_settled.within n).2.1 es scope

theorem evalLoop_settled (n : Nat) (condition body : Expr) (scope : ScopeRef) :
    Settled (evalLoop n condition body scope) :=
  (closed_settled.within n).2.2.1 condition body scope

theorem applyValue_settled (n : Nat) (callee : Value) (args : List Value) :
    Settled (applyValue n callee args) :=
  (closed_settled.within n).2.2.2 callee args

end CalcScript

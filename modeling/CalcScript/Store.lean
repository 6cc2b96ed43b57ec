/-
`Store.lean` -- everything that values refer to.

The store holds four tables: arrays, closures, labels and scopes. A reference is
an index into one of them. Entries are added and changed but never removed, so a
reference stays good, and every entry refers to entries that were there before
it or were put into it later.

A scope has its own bindings and the scope around it. Looking a name up walks
outwards; since a scope is always younger than the one around it, the walk takes
at most as many steps as its index allows.
-/
import CalcScript.Expr
import CalcScript.Value

set_option autoImplicit false

namespace CalcScript

/-! ## 1. Entries -/

/-- A function with the scope that it was made in. -/
structure Closure where
  params : List String
  body : Expr
  scope : ScopeRef
deriving Repr

/-- The way out of one run of a block. It works as long as the run lasts. -/
structure Label where
  id : Nat
  name : Option String
  active : Bool
deriving DecidableEq, Repr

/-- Names with their values, each name once. -/
abbrev Bindings := List (String × Value)

/-- Gives a name a value, in the place of an older one if there is one. -/
def Bindings.insert (name : String) (value : Value) : Bindings → Bindings
  | [] => [(name, value)]
  | (n, v) :: bs => if n = name then (name, value) :: bs else (n, v) :: insert name value bs

/-- Insertion changes the value of one name. -/
theorem Bindings.lookup_insert (name other : String) (value : Value) (bs : Bindings) :
    (Bindings.insert name value bs).lookup other
      = if other = name then some value else bs.lookup other := by
  induction bs with
  | nil =>
    by_cases h : other = name
    · simp [Bindings.insert, h]
    · have hb : (other == name) = false := by simpa using h
      simp [Bindings.insert, List.lookup_cons, h, hb]
  | cons b bs ih =>
    obtain ⟨n, v⟩ := b
    by_cases ho : other = n
    · subst ho
      by_cases hn : other = name <;> simp [Bindings.insert, hn]
    · have hb : (other == n) = false := by simpa using ho
      by_cases hn : n = name
      · subst hn
        simp [Bindings.insert, List.lookup_cons, ho, hb]
      · simp [Bindings.insert, List.lookup_cons, hn, hb, ih]

structure Scope where
  parent : Option ScopeRef
  bindings : Bindings
deriving DecidableEq, Repr

structure Store where
  arrays : Array (Array Value)
  closures : Array Closure
  labels : Array Label
  scopes : Array Scope
  /-- the number of the next block run -/
  nextLabel : Nat

namespace Store

def empty : Store := ⟨#[], #[], #[], #[], 0⟩

/-! ## 2. Arrays -/

/-- The elements of an array. -/
def items (s : Store) (r : ArrayRef) : Array Value :=
  s.arrays.getD r.index #[]

/-- Adds an array. -/
def newArray (s : Store) (items : Array Value) : ArrayRef × Store :=
  (⟨s.arrays.size⟩, { s with arrays := s.arrays.push items })

/-- Changes the elements of an array. -/
def modifyArray (s : Store) (r : ArrayRef) (f : Array Value → Array Value) : Store :=
  { s with arrays := s.arrays.modify r.index f }

/-! ## 3. Closures and labels -/

def closure? (s : Store) (r : ClosureRef) : Option Closure :=
  s.closures[r.index]?

def newClosure (s : Store) (c : Closure) : ClosureRef × Store :=
  (⟨s.closures.size⟩, { s with closures := s.closures.push c })

def label? (s : Store) (r : LabelRef) : Option Label :=
  s.labels[r.index]?

def newLabel (s : Store) (l : Label) : LabelRef × Store :=
  (⟨s.labels.size⟩, { s with labels := s.labels.push l })

/-- A label with a fresh number, for a run of a block that begins. -/
def openLabel (s : Store) (name : Option String) : LabelRef × Store :=
  newLabel { s with nextLabel := s.nextLabel + 1 } ⟨s.nextLabel, name, true⟩

/-- Ends a label for good. -/
def closeLabel (s : Store) (r : LabelRef) : Store :=
  { s with labels := s.labels.modify r.index fun l => { l with active := false } }

/-! ## 4. Scopes -/

def scope? (s : Store) (r : ScopeRef) : Option Scope :=
  s.scopes[r.index]?

/-- The scope around a scope. -/
def parent? (s : Store) (r : ScopeRef) : Option ScopeRef :=
  (s.scope? r).bind (·.parent)

/-- The value of a name in one scope, leaving out those around it. -/
def local? (s : Store) (r : ScopeRef) (name : String) : Option Value :=
  (s.scope? r).bind (·.bindings.lookup name)

/-- Adds a scope. -/
def newScope (s : Store) (parent : Option ScopeRef) (bindings : Bindings) : ScopeRef × Store :=
  (⟨s.scopes.size⟩, { s with scopes := s.scopes.push ⟨parent, bindings⟩ })

/-- Binds a name in the given scope. -/
def define (s : Store) (r : ScopeRef) (name : String) (value : Value) : Store :=
  let bind (scope : Scope) : Scope :=
    { scope with bindings := Bindings.insert name value scope.bindings }
  { s with scopes := s.scopes.modify r.index bind }

/-- The nearest scope that binds a name, with its value there, within the given
number of steps outwards. -/
def resolveWithin (s : Store) (name : String) : Nat → ScopeRef → Option (ScopeRef × Value)
  | 0, _ => none
  | n + 1, r =>
    match s.scope? r with
    | none => none
    | some scope =>
      match scope.bindings.lookup name with
      | some value => some (r, value)
      | none =>
        match scope.parent with
        | some parent => resolveWithin s name n parent
        | none => none

/-- The nearest scope that binds a name, with its value there. -/
def resolve? (s : Store) (r : ScopeRef) (name : String) : Option (ScopeRef × Value) :=
  s.resolveWithin name (r.index + 1) r

/-- The value of a name as seen from a scope. -/
def lookup? (s : Store) (r : ScopeRef) (name : String) : Option Value :=
  (s.resolve? r name).map (·.2)

/-- Gives the nearest binding of a name another value; fails if there is none. -/
def assign? (s : Store) (r : ScopeRef) (name : String) (value : Value) : Option Store :=
  (s.resolve? r name).map fun (owner, _) => s.define owner name value

end Store

end CalcScript

import Lox.Token

/-!
# Scopes

A store holds every scope that was ever opened. Each scope has names with values, and a parent that
encloses it; only the first scope, the global one, has none. A parent is always older than its
children, so that the way outwards ends after at most as many steps as a scope's number says.

A name is found by searching outwards, or directly when it is known how many parents lie between.
-/
namespace Lox

abbrev ScopeId := Nat

/-- Names with values, each name once, in the order of their first definition. -/
abbrev Values (α : Type) := List (String × α)

/-- Gives a name a value, in its old place if it has one. -/
def Values.put {α : Type} (name : String) (value : α) : Values α → Values α
  | [] => [(name, value)]
  | entry :: rest =>
    if entry.1 = name then (name, value) :: rest else entry :: Values.put name value rest

@[simp] theorem Values.lookup_put_self {α : Type} (name : String) (value : α) (vs : Values α) :
    List.lookup name (vs.put name value) = some value := by
  induction vs with
  | nil => simp [put]
  | cons entry rest ih =>
    obtain ⟨key, old⟩ := entry
    by_cases h : key = name
    · simp [put, h]
    · simp [put, h, List.lookup_cons, beq_false_of_ne (Ne.symm h), ih]

theorem Values.lookup_put_of_ne {α : Type} {name other : String} (h : other ≠ name) (value : α)
    (vs : Values α) : List.lookup other (vs.put name value) = List.lookup other vs := by
  induction vs with
  | nil => simp [put, List.lookup_cons, beq_false_of_ne h]
  | cons entry rest ih =>
    obtain ⟨key, old⟩ := entry
    by_cases hk : key = name
    · simp [put, hk, List.lookup_cons, beq_false_of_ne h]
    · simp [put, hk, List.lookup_cons, ih]

structure Scope (α : Type) where
  parent : Option ScopeId
  values : Values α
  deriving Repr

structure Store (α : Type) where
  scopes : Array (Scope α)
  deriving Repr

/-- Why a variable cannot be read or assigned. -/
inductive AccessFault where
  | undefined
  /-- The way outwards ends before the scope that was asked for. -/
  | pastGlobal
  deriving Repr, DecidableEq

namespace Store

variable {α : Type}

/-- The number of the global scope. -/
def global : ScopeId := 0

/-- The store that holds only an empty global scope. -/
def initial : Store α := ⟨#[⟨none, []⟩]⟩

/-- The number of scopes, and the number that the next scope gets. -/
def size (s : Store α) : Nat := s.scopes.size

def scope? (s : Store α) (id : ScopeId) : Option (Scope α) := s.scopes[id]?

/-- The value of a name in one scope, its parents left out. -/
def valueIn? (s : Store α) (id : ScopeId) (name : String) : Option α :=
  (s.scope? id).bind fun scope => scope.values.lookup name

def parent? (s : Store α) (id : ScopeId) : Option ScopeId := (s.scope? id).bind (·.parent)

/-- Opens a scope inside another one. -/
def fork (s : Store α) (parent : ScopeId) : Store α := ⟨s.scopes.push ⟨some parent, []⟩⟩

/-- Gives a name a value in one scope, whatever its parents hold. -/
def define (s : Store α) (id : ScopeId) (name : String) (value : α) : Store α :=
  ⟨s.scopes.modify id fun scope => { scope with values := scope.values.put name value }⟩

/-- The scope a number of parents outwards, if the way is that long. -/
def ancestor? (s : Store α) : (hops : Nat) → ScopeId → Option ScopeId
  | 0, id => some id
  | hops + 1, id => (s.parent? id).bind (ancestor? s hops)

/-- The first scope outwards that holds a name, in at most the given number of steps. -/
def ownerWithin? (s : Store α) (name : String) : (steps : Nat) → ScopeId → Option ScopeId
  | 0, _ => none
  | steps + 1, id =>
    if (s.valueIn? id name).isSome then some id
    else (s.parent? id).bind (ownerWithin? s name steps)

/-- The first scope outwards that holds a name. -/
def owner? (s : Store α) (name : String) (id : ScopeId) : Option ScopeId :=
  s.ownerWithin? name (id + 1) id

/-- The scope that a search for a name ends in. -/
def holder (s : Store α) (id : ScopeId) (name : String) : Except AccessFault ScopeId :=
  match s.owner? name id with
  | some holder => .ok holder
  | none => .error .undefined

/-- The scope a number of parents outwards, which has to hold the name. -/
def holderAt (s : Store α) (hops : Nat) (id : ScopeId) (name : String) :
    Except AccessFault ScopeId :=
  match s.ancestor? hops id with
  | none => .error .pastGlobal
  | some holder => if (s.valueIn? holder name).isSome then .ok holder else .error .undefined

/-- The value of a name in one scope. -/
def getIn (s : Store α) (id : ScopeId) (name : String) : Except AccessFault α :=
  match s.valueIn? id name with
  | some value => .ok value
  | none => .error .undefined

/-- The value of a name, searched outwards. -/
def get (s : Store α) (id : ScopeId) (name : String) : Except AccessFault α := do
  s.getIn (← s.holder id name) name

/-- Changes the value of a name in the first scope outwards that holds it. -/
def assign (s : Store α) (id : ScopeId) (name : String) (value : α) :
    Except AccessFault (Store α) := do
  pure (s.define (← s.holder id name) name value)

/-- The value of a name in the scope a number of parents outwards. -/
def getAt (s : Store α) (hops : Nat) (id : ScopeId) (name : String) : Except AccessFault α := do
  s.getIn (← s.holderAt hops id name) name

/-- Changes the value of a name in the scope a number of parents outwards. -/
def assignAt (s : Store α) (hops : Nat) (id : ScopeId) (name : String) (value : α) :
    Except AccessFault (Store α) := do
  pure (s.define (← s.holderAt hops id name) name value)

@[simp] theorem size_fork (s : Store α) (parent : ScopeId) : (s.fork parent).size = s.size + 1 := by
  simp [fork, size]

@[simp] theorem size_define (s : Store α) (id : ScopeId) (name : String) (value : α) :
    (s.define id name value).size = s.size := by
  simp [define, size]

theorem scope?_fork (s : Store α) (parent id : ScopeId) :
    (s.fork parent).scope? id = if id = s.size then some ⟨some parent, []⟩ else s.scope? id := by
  simp only [fork, scope?, size, Array.getElem?_push]
  rfl

theorem scope?_define (s : Store α) (id other : ScopeId) (name : String) (value : α) :
    (s.define id name value).scope? other =
      if id = other then (s.scope? other).map fun scope =>
        { scope with values := scope.values.put name value }
      else s.scope? other := by
  simp [define, scope?, Array.getElem?_modify]

@[simp] theorem parent?_define (s : Store α) (id other : ScopeId) (name : String) (value : α) :
    (s.define id name value).parent? other = s.parent? other := by
  unfold parent?
  rw [scope?_define]
  split
  · cases s.scope? other <;> rfl
  · rfl

end Store
end Lox

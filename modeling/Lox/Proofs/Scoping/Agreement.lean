import Lox.Proofs.Evaluation.Keeping
import Lox.Proofs.Scoping.Bound
import Lox.Proofs.Scoping.Lexical

/-!
# Scopes and environments side by side

A machine keeps the variables of a program in chains of scopes, static scoping keeps them in cells.
The two agree if every name that a scope declares is linked to a cell of its own, with the same
value in both. A place in the program is seen from a scope of the one and from an environment of the
other; these are linked if each name of the place leads, as many scopes outwards as the table says,
to a scope whose cell for the name is the one that the environment has.

A name may be linked before the scope has it, while the initializer of its declaration is evaluated.
These names are `pending`.
-/
namespace Lox.Scoping

open Binding (Names Table hops? readable marked declaring declaredIn withParameters FunctionBound)
open Lexical (Cell Env State)

/-- The cells of the names that a scope declares. -/
abbrev Links := ScopeId → String → Option Cell

/-- A scope gets a cell for another name. -/
def Links.add (links : Links) (id : ScopeId) (name : String) (cell : Cell) : Links :=
  fun id' name' =>
    if id = id' ∧ name = name' then some cell else links id' name'

/-- What the meaning of a function depends on. -/
structure World where
  pending : List (ScopeId × String)
  links : Links
  store : Store Value
  captured : Array Env

namespace World

/-- A name is in a scope, or is on its way there and not ready to be read. -/
def Holds (w : World) (id : ScopeId) (name : String) (ready : Bool) : Prop :=
  (w.store.valueIn? id name).isSome ∨ ((id, name) ∈ w.pending ∧ ready = false)

/-- Nothing is lost on the way from one world to another. What was pending may have become a name of
its scope. -/
structure Later (w w' : World) : Prop where
  pending : ∀ q ∈ w.pending, (w'.store.valueIn? q.1 q.2).isSome ∨ q ∈ w'.pending
  links : ∀ id name cell, w.links id name = some cell → w'.links id name = some cell
  size : w.store.size ≤ w'.store.size
  parents : ∀ id p, w.store.parent? id = some p → w'.store.parent? id = some p
  present : ∀ id name, (w.store.valueIn? id name).isSome → (w'.store.valueIn? id name).isSome
  captured : ∀ (n : Nat) env, w.captured[n]? = some env → w'.captured[n]? = some env

variable {w w₁ w₂ : World}

theorem Later.refl (w : World) : w.Later w where
  pending _ h := .inr h
  links _ _ _ h := h
  size := Nat.le_refl _
  parents _ _ h := h
  present _ _ h := h
  captured _ _ h := h

theorem Later.trans (h : w.Later w₁) (h' : w₁.Later w₂) : w.Later w₂ where
  pending q hq := (h.pending q hq).elim (fun hp => .inl (h'.present _ _ hp)) (h'.pending q)
  links id name cell hc := h'.links id name cell (h.links id name cell hc)
  size := Nat.le_trans h.size h'.size
  parents id p hp := h'.parents id p (h.parents id p hp)
  present id name hp := h'.present id name (h.present id name hp)
  captured n env he := h'.captured n env (h.captured n env he)

theorem Holds.mono {id : Nat} {name : String} {ready : Bool} (h : w.Holds id name ready)
    (hl : w.Later w₁) : w₁.Holds id name ready := by
  rcases h with h | ⟨h, hready⟩
  · exact .inl (hl.present id name h)
  · exact (hl.pending _ h).imp_right fun h => ⟨h, hready⟩

theorem later_pending {q : ScopeId × String} : w.Later { w with pending := q :: w.pending } :=
  { Later.refl w with pending := fun _ h => .inr (List.mem_cons_of_mem q h) }

/-- A declaration is no longer pending when its name is there. -/
theorem later_settled {id : Nat} {name : String} {pending : List (ScopeId × String)}
    (hp : w.pending = (id, name) :: pending) (h : (w.store.valueIn? id name).isSome) :
    w.Later { w with pending := pending } := by
  refine { Later.refl w with pending := fun q hq => ?_ }
  rw [hp] at hq
  rcases List.mem_cons.1 hq with rfl | hq
  · exact .inl h
  · exact .inr hq

theorem later_fork (parent : Nat) : w.Later { w with store := w.store.fork parent } where
  pending _ h := .inr h
  links _ _ _ h := h
  size := by simp
  parents id p h := by rwa [w.store.parent?_fork_of_lt parent (w.store.lt_size_of_parent? h)]
  present id name h := by simpa using h
  captured _ _ h := h

theorem later_define (id : Nat) (name : String) (value : Value) :
    w.Later { w with store := w.store.define id name value } where
  pending _ h := .inr h
  links _ _ _ h := h
  size := by simp
  parents id p h := by simpa using h
  present id name h := w.store.isSome_valueIn?_define value h
  captured _ _ h := h

theorem later_add {id : Nat} {name : String} (cell : Cell) (h : w.links id name = none) :
    w.Later { w with links := w.links.add id name cell } := by
  refine { Later.refl w with links := fun id' name' cell' hc => ?_ }
  have hne : ¬(id = id' ∧ name = name') := by
    rintro ⟨rfl, rfl⟩
    rw [h] at hc
    cases hc
  simp only [Links.add, if_neg hne]
  exact hc

theorem later_capture (env : Env) : w.Later { w with captured := w.captured.push env } := by
  refine { Later.refl w with captured := fun n env' h => ?_ }
  have hlt : n < w.captured.size := (Array.getElem?_eq_some_iff.1 h).1
  rw [Array.getElem?_push_lt hlt, ← Array.getElem?_eq_getElem hlt]
  exact h

end World

/-- A place among some scopes of names is seen from a scope of the store and from an environment. -/
structure Linked (w : World) (Γ : List Names) (env : Env) (sc : ScopeId) : Prop where
  live : sc < w.store.size
  global : Γ = [] ↔ sc = Store.global
  bound : ∀ name hops, hops? name Γ = some hops → ∃ id cell, w.store.ancestor? hops sc = some id ∧
    id ≠ Store.global ∧ w.links id name = some cell ∧ env.cells.lookup name = some cell ∧
    w.Holds id name (readable name Γ)
  free : ∀ name, hops? name Γ = none → env.cells.lookup name = none

namespace Linked

variable {w w' : World} {Γ : List Names} {env : Env} {sc : Nat}

theorem mono (h : Linked w Γ env sc) (hl : w.Later w') : Linked w' Γ env sc where
  live := Nat.lt_of_lt_of_le h.live hl.size
  global := h.global
  bound name hops hhops := by
    obtain ⟨id, cell, hid, hne, hlink, hcell, hholds⟩ := h.bound name hops hhops
    exact ⟨id, cell, Store.ancestor?_mono hl.parents hid, hne, hl.links id name cell hlink, hcell,
      hholds.mono hl⟩
  free := h.free

/-- The place at the beginning of a block. -/
theorem enter (h : Linked w Γ env sc) :
    Linked { w with store := w.store.fork sc } ([] :: Γ) env.enter w.store.size where
  live := by simp
  global := by simp [Store.global, Nat.ne_zero_of_lt h.live]
  bound name hops hhops := by
    rw [Binding.hops?_enter] at hhops
    obtain ⟨k, hk, rfl⟩ := Option.map_eq_some_iff.1 hhops
    obtain ⟨id, cell, hid, hne, hlink, hcell, hholds⟩ :=
      (h.mono (World.later_fork sc)).bound name k hk
    refine ⟨id, cell, ?_, hne, hlink, hcell, by rwa [Binding.readable_enter]⟩
    rw [Store.ancestor?, Store.parent?_fork_self]
    exact hid
  free name hhops := by
    rw [Binding.hops?_enter] at hhops
    exact h.free name (Option.map_eq_none_iff.1 hhops)

/-- The place behind the start of a declaration. -/
theorem extend {name : String} {cell : Cell} (h : Linked w Γ env sc) (hΓ : Γ ≠ [])
    (hlink : w.links sc name = some cell) (hholds : w.Holds sc name false) :
    Linked w (marked name false Γ) (env.extend name cell) sc := by
  obtain ⟨names, outer, rfl⟩ := List.exists_cons_of_ne_nil hΓ
  refine ⟨h.live, by simpa [marked] using h.global, fun other hops hhops => ?_,
    fun other hhops => ?_⟩
  · rw [Binding.hops?_marked] at hhops
    rw [Binding.readable_marked]
    by_cases heq : other = name
    · rw [if_pos heq] at hhops ⊢
      obtain rfl := Option.some.inj hhops
      subst heq
      refine ⟨sc, cell, rfl, fun hg => ?_, hlink, by simp [Env.extend], hholds⟩
      exact absurd (h.global.2 hg) (by simp)
    · rw [if_neg heq] at hhops ⊢
      obtain ⟨id, cell', hid, hne, hlink', hcell, hholds'⟩ := h.bound other hops hhops
      refine ⟨id, cell', hid, hne, hlink', ?_, hholds'⟩
      rw [Env.extend, List.lookup_cons, beq_false_of_ne heq]
      exact hcell
  · rw [Binding.hops?_marked] at hhops
    by_cases heq : other = name
    · simp [heq] at hhops
    · rw [if_neg heq] at hhops
      rw [Env.extend, List.lookup_cons, beq_false_of_ne heq]
      exact h.free other hhops

/-- The place behind a declaration, when its name is there. -/
theorem settle {name : String} (h : Linked w (marked name false Γ) env sc)
    (hp : (w.store.valueIn? sc name).isSome) : Linked w (declaring name Γ) env sc := by
  cases Γ with
  | nil => exact h
  | cons names outer =>
    have hdeclaring : declaring name (names :: outer) =
        marked name true (((name, false) :: names) :: outer) := rfl
    rw [hdeclaring]
    refine ⟨h.live, by simpa [marked] using h.global, fun other hops hhops => ?_,
      fun other hhops => ?_⟩
    · rw [Binding.hops?_marked] at hhops
      rw [Binding.readable_marked]
      by_cases heq : other = name
      · rw [if_pos heq] at hhops
        obtain rfl := Option.some.inj hhops
        subst heq
        have hzero : hops? other (marked other false (names :: outer)) = some 0 := by
          rw [Binding.hops?_marked, if_pos rfl]
        obtain ⟨id, cell, hid, hne, hlink, hcell, -⟩ := h.bound other 0 hzero
        obtain rfl : sc = id := Option.some.inj hid
        exact ⟨sc, cell, rfl, hne, hlink, hcell, .inl hp⟩
      · rw [if_neg heq] at hhops ⊢
        exact h.bound other hops hhops
    · rw [Binding.hops?_marked] at hhops
      by_cases heq : other = name
      · simp [heq] at hhops
      · rw [if_neg heq] at hhops
        exact h.free other hhops

end Linked

/-- What is declared at a place is local on both sides, or global on both. -/
def Placed (Γ : List Names) (env : Env) : Prop := env.inside = !Γ.isEmpty

theorem Placed.marked {Γ : List Names} {env env' : Env} (h : Placed Γ env)
    (hinside : env'.inside = env.inside) (name : String) (ready : Bool) :
    Placed (marked name ready Γ) env' := by
  rw [Placed, hinside, h]
  cases Γ <;> rfl

theorem Placed.scopesAfter {Γ : List Names} {env env' : Env} (h : Placed Γ env)
    (hinside : env'.inside = env.inside) (st : Statement) : Placed (st.scopesAfter Γ) env' := by
  rw [Placed, hinside, h]
  cases st <;> cases Γ <;> rfl

/-- Values that differ at most in where functions keep their variables. A function is alike if its
body is bound at a place that is seen from its scope and from its environment. -/
inductive Alike (t : Table) (w : World) : Value → Value → Prop where
  | plain (v : Value) (h : ∀ c, v ≠ .function (.closure c)) : Alike t w v v
  | closure {identity : Nat} {name : Option String} {parameters : List Token}
      {body : List Statement} {sc n : Nat} {Γ : List Names} {env : Env}
      (captured : w.captured[n]? = some env) (bound : FunctionBound t parameters body Γ)
      (linked : Linked w Γ env sc) :
      Alike t w (.function (.closure ⟨identity, name, parameters, body, sc⟩))
        (.function (.closure ⟨identity, name, parameters, body, n⟩))

variable {t : Table} {w w' : World} {u v u' v' : Value}

theorem Alike.mono (h : Alike t w v v') (hl : w.Later w') : Alike t w' v v' := by
  cases h with
  | plain _ h => exact .plain v h
  | closure hcaptured hbound hlinked =>
    exact .closure (hl.captured _ _ hcaptured) hbound (hlinked.mono hl)

theorem Alike.truthy (h : Alike t w v v') : v.truthy = v'.truthy := by
  cases h <;> rfl

theorem Alike.arity {f f' : Function} (h : Alike t w (.function f) (.function f')) :
    f.arity = f'.arity := by
  cases h <;> rfl

theorem Alike.display (h : Alike t w v v') : v.display = v'.display := by
  cases h <;> rfl

theorem Alike.unaryResult (h : Alike t w v v') (operator : Token) :
    Eval.unaryResult operator v = Eval.unaryResult operator v' := by
  cases h with
  | plain => rfl
  | closure => cases hk : operator.kind <;> simp [Eval.unaryResult, hk, Value.truthy]

theorem Alike.equal (hu : Alike t w u u') (hv : Alike t w v v') : u.equal v = u'.equal v' := by
  cases hu with
  | plain => cases hv with
    | plain => rfl
    | closure => cases u with
      | function f => cases f <;> rfl
      | _ => rfl
  | closure => cases hv with
    | plain => cases v with
      | function f => cases f <;> rfl
      | _ => rfl
    | closure => rfl

theorem Alike.typeName (h : Alike t w v v') : v.typeName = v'.typeName := by
  cases h <;> rfl

theorem Alike.plusResult (hu : Alike t w u u') (hv : Alike t w v v') :
    Eval.plusResult u v = Eval.plusResult u' v' := by
  cases hu with
  | plain => cases hv with
    | plain => rfl
    | closure => cases u <;> rfl
  | closure => rfl

theorem Alike.binaryResult (hu : Alike t w u u') (hv : Alike t w v v') (operator : Token) :
    Eval.binaryResult operator u v = Eval.binaryResult operator u' v' := by
  have hequal := hu.equal hv
  have hplus := hu.plusResult hv
  cases hu with
  | plain => cases hv with
    | plain => rfl
    | closure => cases u <;> simp only [Eval.binaryResult, hequal, hplus, Value.typeName]
  | closure =>
    simp only [Eval.binaryResult, hequal, hplus, hv.typeName]
    rfl

/-- What a variable may hold in a scope and in its cell. -/
abbrev AlikeOption (t : Table) (w : World) : Option Value → Option Value → Prop :=
  Option.Rel (Alike t w)

theorem AlikeOption.mono {x y : Option Value} (h : AlikeOption t w x y) (hl : w.Later w') :
    AlikeOption t w' x y := by
  cases h with
  | some h => exact .some (h.mono hl)
  | none => exact .none

theorem AlikeOption.isSome_eq {x y : Option Value} (h : AlikeOption t w x y) :
    x.isSome = y.isSome := by
  cases h <;> rfl

theorem AlikeOption.exists_of_some {y : Option Value} (h : AlikeOption t w (some v) y) :
    ∃ v', y = some v' ∧ Alike t w v v' := by
  cases h with
  | some h => exact ⟨_, rfl, h⟩

theorem alike_getElem? {vs vs' : List Value} (h : List.Forall₂ (Alike t w) vs vs') (i : Nat) :
    AlikeOption t w vs[i]? vs'[i]? := by
  induction h generalizing i with
  | nil => exact .none
  | cons hv _ ih =>
    cases i with
    | zero => simpa using hv
    | succ i => simpa using ih i

/-- Globals with the same names in the same order and like values. -/
abbrev AlikeGlobals (t : Table) (w : World) : Values Value → Values Value → Prop :=
  List.Forall₂ fun x y => x.1 = y.1 ∧ Alike t w x.2 y.2

theorem AlikeGlobals.mono {xs ys : Values Value} (h : AlikeGlobals t w xs ys)
    (hl : w.Later w') : AlikeGlobals t w' xs ys :=
  h.imp fun _ _ h => ⟨h.1, h.2.mono hl⟩

theorem AlikeGlobals.lookup {xs ys : Values Value} (h : AlikeGlobals t w xs ys) (name : String) :
    AlikeOption t w (xs.lookup name) (ys.lookup name) := by
  induction h with
  | nil => exact .none
  | @cons x y xs ys hxy _ ih =>
    obtain ⟨key, v⟩ := x
    obtain ⟨key', v'⟩ := y
    obtain ⟨hkey, hv⟩ := hxy
    obtain rfl : key = key' := hkey
    by_cases hk : name = key
    · simpa [List.lookup_cons, hk] using hv
    · simpa [List.lookup_cons, beq_false_of_ne hk] using ih

theorem AlikeGlobals.put {xs ys : Values Value} (h : AlikeGlobals t w xs ys) (name : String)
    (hv : Alike t w v v') : AlikeGlobals t w (xs.put name v) (ys.put name v') := by
  induction h with
  | nil => exact .cons ⟨rfl, hv⟩ .nil
  | @cons x y xs ys hxy hrest ih =>
    by_cases hk : x.1 = name
    · simp only [Values.put, hk, ← hxy.1, if_true]
      exact .cons ⟨rfl, hv⟩ hrest
    · simp only [Values.put, hk, ← hxy.1, if_false]
      exact .cons hxy ih

/-- A machine and a state of static scoping agree in a world. -/
structure Agrees (t : Table) (w : World) (m : Machine) (s : State) : Prop where
  store : m.store = w.store
  captured : s.captured = w.captured
  table : m.table = t
  output : m.output = s.output
  identity : m.nextIdentity = s.nextIdentity
  clock : m.clock = s.clock
  live : Store.global < w.store.size
  outside : ∀ name, w.links Store.global name = none
  fresh : ∀ id name cell, w.links id name = some cell → id < w.store.size
  injective : ∀ id name id' name' cell, w.links id name = some cell →
    w.links id' name' = some cell → id = id' ∧ name = name'
  unlinked : ∀ id name, id ≠ Store.global → w.links id name = none →
    w.store.valueIn? id name = none
  linked : ∀ id name cell, w.links id name = some cell → ∃ value?, s.memory[cell]? = some value? ∧
    AlikeOption t w (w.store.valueIn? id name) value?
  globals : ∃ scope, w.store.scope? Store.global = some scope ∧
    AlikeGlobals t w scope.values s.globals

namespace Agrees

variable {m : Machine} {s : State} {sc id : Nat} {name : String} {env : Env}

/-- The current scope of the machine does not matter. -/
theorem moved (h : Agrees t w m s) (sc : Nat) : Agrees t w { m with scope := sc } s := { h with }

/-- The value of a global name in both. -/
theorem global (h : Agrees t w m s) (name : String) :
    AlikeOption t w (w.store.valueIn? Store.global name) (s.globals.lookup name) := by
  obtain ⟨scope, hscope, halike⟩ := h.globals
  rw [Store.valueIn?, hscope]
  exact halike.lookup name

theorem fork (h : Agrees t w m s) (parent : Nat) :
    Agrees t { w with store := w.store.fork parent } { m with store := m.store.fork parent } s := by
  have hl : w.Later _ := World.later_fork parent
  obtain ⟨scope, hscope, halike⟩ := h.globals
  exact { h with
    store := by rw [h.store]
    live := Nat.lt_of_lt_of_le h.live hl.size
    fresh := fun id name cell hc => Nat.lt_of_lt_of_le (h.fresh id name cell hc) hl.size
    unlinked := fun id name hne hc => by simpa using h.unlinked id name hne hc
    linked := fun id name cell hc => by
      obtain ⟨value?, hcell, hrel⟩ := h.linked id name cell hc
      exact ⟨value?, hcell, by simpa using hrel.mono hl⟩
    globals := by
      refine ⟨scope, ?_, halike.mono hl⟩
      rw [Store.scope?_fork, if_neg (Nat.ne_of_lt h.live)]
      exact hscope }

/-- A scope gets an empty cell for a name that it does not have yet. -/
theorem allocate (h : Agrees t w m s) (hid : id < w.store.size) (hne : id ≠ Store.global)
    (hnone : w.links id name = none) :
    Agrees t { w with links := w.links.add id name s.memory.size } m
      { s with memory := s.memory.push none } := by
  have hl : w.Later _ := World.later_add s.memory.size hnone
  obtain ⟨scope, hscope, halike⟩ := h.globals
  have hold (id' : ScopeId) (name' : String) (cell : Cell) (hc : w.links id' name' = some cell) :
      cell < s.memory.size := by
    obtain ⟨value?, hcell, -⟩ := h.linked id' name' cell hc
    exact (Array.getElem?_eq_some_iff.1 hcell).1
  exact { h with
    outside := fun name' => by
      simp only [Links.add, hne, false_and, if_false]
      exact h.outside name'
    fresh := fun id' name' cell hc => by
      by_cases heq : id = id' ∧ name = name'
      · exact heq.1 ▸ hid
      · exact h.fresh id' name' cell (by simpa [Links.add, heq] using hc)
    injective := fun id₁ name₁ id₂ name₂ cell hc₁ hc₂ => by
      by_cases h₁ : id = id₁ ∧ name = name₁
      · by_cases h₂ : id = id₂ ∧ name = name₂
        · exact ⟨h₁.1.symm.trans h₂.1, h₁.2.symm.trans h₂.2⟩
        · have hlt := hold id₂ name₂ cell (by simpa [Links.add, h₂] using hc₂)
          obtain rfl : s.memory.size = cell := by simpa [Links.add, h₁] using hc₁
          exact absurd hlt (Nat.lt_irrefl _)
      · have hc₁' : w.links id₁ name₁ = some cell := by simpa [Links.add, h₁] using hc₁
        by_cases h₂ : id = id₂ ∧ name = name₂
        · have hlt := hold id₁ name₁ cell hc₁'
          obtain rfl : s.memory.size = cell := by simpa [Links.add, h₂] using hc₂
          exact absurd hlt (Nat.lt_irrefl _)
        · exact h.injective id₁ name₁ id₂ name₂ cell hc₁' (by simpa [Links.add, h₂] using hc₂)
    unlinked := fun id' name' hne' hc => by
      by_cases heq : id = id' ∧ name = name'
      · simp [Links.add, heq] at hc
      · exact h.unlinked id' name' hne' (by simpa [Links.add, heq] using hc)
    linked := fun id' name' cell hc => by
      by_cases heq : id = id' ∧ name = name'
      · obtain ⟨rfl, rfl⟩ := heq
        obtain rfl : s.memory.size = cell := by simpa [Links.add] using hc
        refine ⟨none, by simp, ?_⟩
        rw [h.unlinked id name hne hnone]
        exact .none
      · have hc' : w.links id' name' = some cell := by simpa [Links.add, heq] using hc
        obtain ⟨value?, hcell, hrel⟩ := h.linked id' name' cell hc'
        refine ⟨value?, ?_, hrel.mono hl⟩
        rw [Array.getElem?_push_lt (hold id' name' cell hc'), ← hcell]
        exact (Array.getElem?_eq_getElem _).symm
    globals := ⟨scope, hscope, halike.mono hl⟩ }

/-- A name that has a cell gets a value. -/
theorem fill {cell : Cell} (h : Agrees t w m s) (hlink : w.links id name = some cell)
    (hv : Alike t { w with store := w.store.define id name v } v v') :
    Agrees t { w with store := w.store.define id name v }
      { m with store := m.store.define id name v }
      { s with memory := s.memory.setIfInBounds cell (some v') } := by
  have hl : w.Later { w with store := w.store.define id name v } := World.later_define id name v
  have hid : id ≠ Store.global := by
    rintro rfl
    rw [h.outside name] at hlink
    cases hlink
  obtain ⟨scope, hscope, halike⟩ := h.globals
  exact { h with
    store := by rw [h.store]
    live := Nat.lt_of_lt_of_le h.live hl.size
    fresh := fun id' name' cell' hc => Nat.lt_of_lt_of_le (h.fresh id' name' cell' hc) hl.size
    unlinked := fun id' name' hne hc => by
      rw [Store.valueIn?_define_of_ne]
      · exact h.unlinked id' name' hne hc
      · rintro rfl rfl
        rw [hlink] at hc
        cases hc
    linked := fun id' name' cell' hc => by
      obtain ⟨value?, hcell, hrel⟩ := h.linked id' name' cell' hc
      have hlt := (Array.getElem?_eq_some_iff.1 hcell).1
      by_cases heq : id = id' ∧ name = name'
      · obtain ⟨rfl, rfl⟩ := heq
        obtain rfl : cell = cell' := Option.some.inj (hlink.symm.trans hc)
        refine ⟨some v', by simp [hlt], ?_⟩
        rw [Store.valueIn?_define_self _ (h.fresh id name cell hlink)]
        exact .some hv
      · have hne : cell ≠ cell' := by
          rintro rfl
          exact heq (h.injective _ _ _ _ _ hlink hc)
        refine ⟨value?, by rw [Array.getElem?_setIfInBounds_ne hne, hcell], ?_⟩
        rw [Store.valueIn?_define_of_ne _ _ fun hi hn => heq ⟨hi, hn⟩]
        exact hrel.mono hl
    globals := by
      refine ⟨scope, ?_, halike.mono hl⟩
      rw [Store.scope?_define, if_neg hid]
      exact hscope }

/-- A global name gets a value. -/
theorem fillGlobal (h : Agrees t w m s)
    (hv : Alike t { w with store := w.store.define Store.global name v } v v') :
    Agrees t { w with store := w.store.define Store.global name v }
      { m with store := m.store.define Store.global name v }
      { s with globals := s.globals.put name v' } := by
  have hl : w.Later { w with store := w.store.define Store.global name v } :=
    World.later_define Store.global name v
  obtain ⟨scope, hscope, halike⟩ := h.globals
  exact { h with
    store := by rw [h.store]
    live := Nat.lt_of_lt_of_le h.live hl.size
    fresh := fun id' name' cell' hc => Nat.lt_of_lt_of_le (h.fresh id' name' cell' hc) hl.size
    unlinked := fun id' name' hne hc => by
      rw [Store.valueIn?_define_of_ne _ _ fun hi => absurd hi.symm hne]
      exact h.unlinked id' name' hne hc
    linked := fun id' name' cell' hc => by
      obtain ⟨value?, hcell, hrel⟩ := h.linked id' name' cell' hc
      have hne : Store.global ≠ id' := by
        rintro rfl
        rw [h.outside name'] at hc
        cases hc
      refine ⟨value?, hcell, ?_⟩
      rw [Store.valueIn?_define_of_ne _ _ fun hi => absurd hi hne]
      exact hrel.mono hl
    globals := by
      refine ⟨{ scope with values := scope.values.put name v }, ?_, (halike.mono hl).put name hv⟩
      rw [Store.scope?_define, if_pos rfl, hscope]
      rfl }

/-- A function is made on both sides. -/
theorem capture (h : Agrees t w m s) (env : Env) :
    Agrees t { w with captured := w.captured.push env }
      { m with nextIdentity := m.nextIdentity + 1 }
      { s with captured := s.captured.push env, nextIdentity := s.nextIdentity + 1 } := by
  have hl : w.Later { w with captured := w.captured.push env } := World.later_capture env
  obtain ⟨scope, hscope, halike⟩ := h.globals
  exact { h with
    captured := by rw [h.captured]
    identity := by rw [h.identity]
    linked := fun id name cell hc => by
      obtain ⟨value?, hcell, hrel⟩ := h.linked id name cell hc
      exact ⟨value?, hcell, hrel.mono hl⟩
    globals := ⟨scope, hscope, halike.mono hl⟩ }

/-- Only what is pending changes. -/
theorem pend {pending : List (ScopeId × String)} (h : Agrees t w m s)
    (hl : w.Later { w with pending := pending }) : Agrees t { w with pending := pending } m s := by
  obtain ⟨scope, hscope, halike⟩ := h.globals
  exact { h with
    linked := fun id name cell hc => by
      obtain ⟨value?, hcell, hrel⟩ := h.linked id name cell hc
      exact ⟨value?, hcell, hrel.mono hl⟩
    globals := ⟨scope, hscope, halike.mono hl⟩ }

theorem print (h : Agrees t w m s) (text : String) :
    Agrees t w { m with output := text :: m.output } { s with output := text :: s.output } :=
  { h with output := by rw [h.output] }

theorem tick (h : Agrees t w m s) :
    Agrees t w { m with clock := m.clock.next } { s with clock := s.clock.next } :=
  { h with clock := by rw [h.clock] }

/-- What a declaration gives its name, it gives it on both sides. -/
theorem put {Γ : List Names} {ready : Bool} (h : Agrees t w m s)
    (hlink : Linked w (marked name ready Γ) env sc)
    (hv : Alike t { w with store := w.store.define sc name v } v v') :
    Agrees t { w with store := w.store.define sc name v }
      { m with store := m.store.define sc name v } (s.put env name v') := by
  cases Γ with
  | nil =>
    obtain rfl : sc = Store.global := hlink.global.1 rfl
    rw [State.put, hlink.free name rfl]
    exact h.fillGlobal hv
  | cons names outer =>
    have hzero : hops? name (marked name ready (names :: outer)) = some 0 := by
      rw [Binding.hops?_marked, if_pos rfl]
    obtain ⟨id, cell, hid, -, hcell, hlookup, -⟩ := hlink.bound name 0 hzero
    obtain rfl : sc = id := Option.some.inj hid
    rw [State.put, hlookup]
    exact h.fill hcell hv

/-- A use of a variable finds the same on both sides, and may change it on both sides. -/
theorem use {site : Site} {token : Token} {Γ : List Names} (h : Agrees t w m s)
    (hlink : Linked w Γ env m.scope) (hsite : t.lookup site = hops? token.lexeme Γ) :
    ∃ id, Run.holder m site token =
        (if (w.store.valueIn? id token.lexeme).isSome then .ok id else .error .undefined) ∧
      AlikeOption t w (w.store.valueIn? id token.lexeme) (s.value? env token.lexeme) ∧
      ∀ v v', Alike t w v v' →
        Agrees t { w with store := w.store.define id token.lexeme v }
          { m with store := m.store.define id token.lexeme v } (s.put env token.lexeme v') := by
  cases hhops : hops? token.lexeme Γ with
  | none =>
    have hfree := hlink.free token.lexeme hhops
    have hlookup : m.table.lookup site = none := by rw [h.table, hsite, hhops]
    have hholder : Run.holder m site token = w.store.holder Store.global token.lexeme := by
      simp only [Run.holder, hlookup, h.store]
    refine ⟨Store.global, ?_, ?_, fun v v' hv => ?_⟩
    · rw [hholder, Store.holder, Store.owner?_global]
      cases (w.store.valueIn? Store.global token.lexeme).isSome <;> rfl
    · rw [State.value?, hfree]
      exact h.global token.lexeme
    · rw [State.put, hfree]
      exact h.fillGlobal (hv.mono (World.later_define _ _ _))
  | some hops =>
    obtain ⟨id, cell, hid, -, hcell, hlookup, -⟩ := hlink.bound token.lexeme hops hhops
    have hentry : m.table.lookup site = some hops := by rw [h.table, hsite, hhops]
    refine ⟨id, ?_, ?_, fun v v' hv => ?_⟩
    · simp only [Run.holder, hentry, h.store, Store.holderAt, hid]
    · obtain ⟨value?, hmemory, hrel⟩ := h.linked id token.lexeme cell hcell
      rw [State.value?, hlookup]
      simpa [hmemory] using hrel
    · rw [State.put, hlookup]
      exact h.fill hcell (hv.mono (World.later_define _ _ _))

end Agrees

end Lox.Scoping

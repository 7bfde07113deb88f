import Lox.Machine
import Lox.Proofs.Scoping.Chains
import Lox.Proofs.Syntax.Renaming
import Mathlib.Data.List.Forall2

/-!
# Machines with renamed variables

A program with renamed variables leaves the same scopes behind as the program itself. In each of
them the same names are defined in the same order, but for a variable of a chosen scope, and with
values that are alike: equal, or functions whose code is renamed as fits the scopes around them. A
`Layout` tells the scopes apart; it only grows, and what is alike in a layout stays so.
-/
namespace Lox

open Binding (Table)

/-- The parent of every scope, and whether the scope is chosen. -/
abbrev Layout := List (Option ScopeId × Bool)

namespace Layout

/-- Which ones of the scopes from a scope outwards are chosen, the global one left out. -/
inductive Chain (l : Layout) : ScopeId → List Bool → Prop where
  | global : Chain l Store.global []
  | inner {id parent : ScopeId} {chosen : Bool} {marks : List Bool}
    (hid : l[id]? = some (some parent, chosen)) (hparent : Chain l parent marks) :
    Chain l id (chosen :: marks)

/-- The global scope has no parent and is not chosen. -/
def Rooted (l : Layout) : Prop := l[Store.global]? = some (none, false)

variable {l l' : Layout}

theorem getElem?_extended {id : ScopeId} {entry : Option ScopeId × Bool} (hl : l <+: l')
    (h : l[id]? = some entry) : l'[id]? = some entry := by
  obtain ⟨more, rfl⟩ := hl
  rw [List.getElem?_append_left (List.getElem?_eq_some_iff.1 h).1, h]

theorem Rooted.later (h : l.Rooted) (hl : l <+: l') : l'.Rooted := getElem?_extended hl h

namespace Chain

variable {id : ScopeId} {marks : List Bool}

theorem later (h : l.Chain id marks) (hl : l <+: l') : l'.Chain id marks := by
  induction h with
  | global => exact .global
  | inner hid _ ih => exact .inner (getElem?_extended hl hid) ih

/-- The scope itself comes first. -/
theorem head (h : l.Chain id marks) (hr : l.Rooted) :
    ∃ parent, l[id]? = some (parent, marks.headD false) := by
  cases h with
  | global => exact ⟨none, hr⟩
  | inner hid _ => exact ⟨_, hid⟩

end Chain

end Layout

section
variable (ρ : Renaming) (t : Table) (l : Layout)

/-- The second function is the first one, with renamed code. -/
inductive Function.Renames : Function → Function → Prop where
  | host (h : HostFunction) : Function.Renames (.host h) (.host h)
  | closure {c : Closure} {marks : List Bool} {chosen : Bool} {body' : List Statement}
    (hscope : l.Chain c.scope marks) (hn : ∀ p ∈ c.parameters, ρ.Fits chosen p)
    (hb : Statement.RenamesAll ρ t (chosen :: marks) c.body body') :
    Function.Renames (.closure c)
      (.closure { c with parameters := c.parameters.map (ρ.token chosen), body := body' })

/-- The values are equal, or functions of which the second one has renamed code. -/
inductive Value.Renames : Value → Value → Prop where
  | nil : Value.Renames .nil .nil
  | bool (b : Bool) : Value.Renames (.bool b) (.bool b)
  | number (x : Float) : Value.Renames (.number x) (.number x)
  | string (s : String) : Value.Renames (.string s) (.string s)
  | function {f f' : Function} (h : f.Renames ρ t l f') :
    Value.Renames (.function f) (.function f')

/-- The values of a scope, which is chosen or not. -/
def Values.Renames (chosen : Bool) : Values Value → Values Value → Prop :=
  List.Forall₂ fun entry entry' =>
    (chosen = true → entry.1 ≠ ρ.new) ∧ entry'.1 = ρ.name chosen entry.1 ∧
      entry.2.Renames ρ t l entry'.2

end

section
variable {ρ : Renaming} {t : Table} {l l' : Layout}

namespace Function.Renames

variable {f f' g g' : Function}

theorem later (h : f.Renames ρ t l f') (hl : l <+: l') : f.Renames ρ t l' f' := by
  cases h with
  | host h => exact .host h
  | closure hscope hn hb => exact .closure (hscope.later hl) hn hb

theorem arity_eq (h : f.Renames ρ t l f') : f'.arity = f.arity := by
  cases h with
  | host h => rfl
  | closure _ _ _ => exact List.length_map _

theorem same_eq (hf : f.Renames ρ t l f') (hg : g.Renames ρ t l g') : f'.same g' = f.same g := by
  cases hf <;> cases hg <;> rfl

theorem text_eq (h : f.Renames ρ t l f') : f'.text = f.text := by
  cases h <;> rfl

end Function.Renames

namespace Value.Renames

variable {v v' w w' : Value}

theorem later (h : v.Renames ρ t l v') (hl : l <+: l') : v.Renames ρ t l' v' := by
  cases h with
  | function h => exact .function (h.later hl)
  | nil => exact .nil
  | bool b => exact .bool b
  | number x => exact .number x
  | string s => exact .string s

theorem truthy_eq (h : v.Renames ρ t l v') : v'.truthy = v.truthy := by
  cases h <;> rfl

theorem typeName_eq (h : v.Renames ρ t l v') : v'.typeName = v.typeName := by
  cases h <;> rfl

theorem display_eq (h : v.Renames ρ t l v') : v'.display = v.display := by
  cases h with
  | function h => exact h.text_eq
  | _ => rfl

theorem equal_eq (hv : v.Renames ρ t l v') (hw : w.Renames ρ t l w') :
    v'.equal w' = v.equal w := by
  cases hv <;> cases hw <;> first | rfl | exact Function.Renames.same_eq ‹_› ‹_›

theorem literal (value : Literal) : value.value.Renames ρ t l value.value := by
  cases value with
  | nil => exact .nil
  | bool b => exact .bool b
  | number x => exact .number x
  | string s => exact .string s

end Value.Renames

namespace Values.Renames

variable {chosen : Bool} {vs vs' : Values Value}

theorem later (h : Values.Renames ρ t l chosen vs vs') (hl : l <+: l') :
    Values.Renames ρ t l' chosen vs vs' :=
  List.Forall₂.imp (fun _ _ hentry => ⟨hentry.1, hentry.2.1, hentry.2.2.later hl⟩) h

/-- A name is in both scopes or in none. -/
theorem lookup (h : Values.Renames ρ t l chosen vs vs') {x : String}
    (hx : chosen = true → x ≠ ρ.new) :
    Option.Rel (Value.Renames ρ t l) (List.lookup x vs) (List.lookup (ρ.name chosen x) vs') := by
  induction h with
  | nil => exact .none
  | @cons entry entry' vs vs' hentry _ ih =>
    obtain ⟨hnew, hname, hvalue⟩ := hentry
    have hkey : (ρ.name chosen x == entry'.1) = (x == entry.1) := by
      rw [hname, Bool.eq_iff_iff, beq_iff_eq, beq_iff_eq]
      exact Renaming.name_inj hx hnew
    rw [List.lookup_cons, List.lookup_cons, hkey]
    cases x == entry.1 with
    | true => exact .some hvalue
    | false => exact ih

theorem put (h : Values.Renames ρ t l chosen vs vs') {x : String} {v v' : Value}
    (hx : chosen = true → x ≠ ρ.new) (hv : v.Renames ρ t l v') :
    Values.Renames ρ t l chosen (vs.put x v) (Values.put (ρ.name chosen x) v' vs') := by
  have hnew : (chosen = true → x ≠ ρ.new) ∧ ρ.name chosen x = ρ.name chosen x ∧
      v.Renames ρ t l v' := ⟨hx, rfl, hv⟩
  induction h with
  | nil => exact .cons hnew .nil
  | @cons entry entry' vs vs' hentry hrest ih =>
    have hkey : entry'.1 = ρ.name chosen x ↔ entry.1 = x := by
      rw [hentry.2.1]
      exact Renaming.name_inj hentry.1 hx
    rw [Values.put, Values.put]
    by_cases heq : entry.1 = x
    · rw [if_pos heq, if_pos (hkey.2 heq)]
      exact .cons hnew hrest
    · rw [if_neg heq, if_neg (mt hkey.1 heq)]
      exact .cons hentry ih

end Values.Renames

end

/-- The scopes of both stores are laid out alike, and their values are. -/
structure Store.Renames (ρ : Renaming) (t : Table) (l : Layout) (s s' : Store Value) : Prop where
  size : s.size = l.length
  size' : s'.size = l.length
  scopes : ∀ id parent chosen, l[id]? = some (parent, chosen) → ∃ vs vs',
    s.scope? id = some ⟨parent, vs⟩ ∧ s'.scope? id = some ⟨parent, vs'⟩ ∧
      Values.Renames ρ t l chosen vs vs'

namespace Store.Renames

variable {ρ : Renaming} {t : Table} {l : Layout} {s s' : Store Value}

theorem parent?_eq (h : s.Renames ρ t l s') (id : ScopeId) :
    s.parent? id = l[id]?.bind Prod.fst ∧ s'.parent? id = l[id]?.bind Prod.fst := by
  cases hid : l[id]? with
  | none =>
    have hle : l.length ≤ id := List.getElem?_eq_none_iff.1 hid
    rw [parent?, parent?, s.scope?_eq_none (by rw [h.size]; exact hle),
      s'.scope?_eq_none (by rw [h.size']; exact hle)]
    exact ⟨rfl, rfl⟩
  | some entry =>
    obtain ⟨vs, vs', hscope, hscope', -⟩ := h.scopes id entry.1 entry.2 hid
    rw [parent?, parent?, hscope, hscope']
    exact ⟨rfl, rfl⟩

theorem ancestor?_eq (h : s.Renames ρ t l s') (hops : Nat) (id : ScopeId) :
    s'.ancestor? hops id = s.ancestor? hops id := by
  induction hops generalizing id with
  | zero => rfl
  | succ hops ih =>
    rw [ancestor?, ancestor?, (h.parent?_eq id).1, (h.parent?_eq id).2]
    exact congrArg _ (funext ih)

/-- The scope that some steps outwards lead to is chosen as the chain of scopes says. -/
theorem chosen_of_ancestor? (h : s.Renames ρ t l s') (hr : l.Rooted) {id holder : ScopeId}
    {marks : List Bool} (hchain : l.Chain id marks) {hops : Nat}
    (hholder : s.ancestor? hops id = some holder) :
    ∃ parent, l[holder]? = some (parent, marks.getD hops false) := by
  induction hchain generalizing hops with
  | global =>
    cases hops with
    | zero =>
      obtain rfl := Option.some.inj hholder
      exact ⟨none, hr⟩
    | succ hops =>
      rw [ancestor?, (h.parent?_eq _).1, hr] at hholder
      cases hholder
  | @inner id parent chosen marks hid _ ih =>
    cases hops with
    | zero =>
      obtain rfl := Option.some.inj hholder
      exact ⟨some parent, hid⟩
    | succ hops =>
      rw [ancestor?, (h.parent?_eq _).1, hid] at hholder
      exact ih hholder

section
variable {id : ScopeId} {parent : Option ScopeId} {chosen : Bool} {x : String}

theorem valueIn? (h : s.Renames ρ t l s') (hid : l[id]? = some (parent, chosen))
    (hx : chosen = true → x ≠ ρ.new) :
    Option.Rel (Value.Renames ρ t l) (s.valueIn? id x) (s'.valueIn? id (ρ.name chosen x)) := by
  obtain ⟨vs, vs', hscope, hscope', hvs⟩ := h.scopes id parent chosen hid
  rw [Store.valueIn?, Store.valueIn?, hscope, hscope']
  exact hvs.lookup hx

theorem define (h : s.Renames ρ t l s') (hid : l[id]? = some (parent, chosen))
    (hx : chosen = true → x ≠ ρ.new) {v v' : Value} (hv : v.Renames ρ t l v') :
    (s.define id x v).Renames ρ t l (s'.define id (ρ.name chosen x) v') where
  size := (size_define ..).trans h.size
  size' := (size_define ..).trans h.size'
  scopes other parent' chosen' hother := by
    obtain ⟨vs, vs', hscope, hscope', hvs⟩ := h.scopes other parent' chosen' hother
    rw [scope?_define, scope?_define, hscope, hscope']
    by_cases heq : id = other
    · subst heq
      obtain ⟨rfl, rfl⟩ : parent = parent' ∧ chosen = chosen' := by
        simpa using hid.symm.trans hother
      rw [if_pos rfl, if_pos rfl]
      exact ⟨_, _, rfl, rfl, hvs.put hx hv⟩
    · rw [if_neg heq, if_neg heq]
      exact ⟨vs, vs', rfl, rfl, hvs⟩

end

/-- The scope that is opened next is laid out next. -/
theorem fork (h : s.Renames ρ t l s') (parent : ScopeId) (chosen : Bool) :
    (s.fork parent).Renames ρ t (l ++ [(some parent, chosen)]) (s'.fork parent) where
  size := by rw [size_fork, h.size, List.length_append, List.length_singleton]
  size' := by rw [size_fork, h.size', List.length_append, List.length_singleton]
  scopes id parent' chosen' hid := by
    rw [scope?_fork, scope?_fork, h.size, h.size']
    by_cases heq : id = l.length
    · rw [if_pos heq, if_pos heq]
      obtain ⟨rfl, rfl⟩ : some parent = parent' ∧ chosen = chosen' := by
        simpa [heq] using hid
      exact ⟨[], [], rfl, rfl, .nil⟩
    · rw [if_neg heq, if_neg heq]
      have hlt : id < l.length := by
        have hlt' := (List.getElem?_eq_some_iff.1 hid).1
        rw [List.length_append, List.length_singleton] at hlt'
        exact Nat.lt_of_le_of_ne (Nat.le_of_lt_succ hlt') heq
      rw [List.getElem?_append_left hlt] at hid
      obtain ⟨vs, vs', hscope, hscope', hvs⟩ := h.scopes id parent' chosen' hid
      exact ⟨vs, vs', hscope, hscope', hvs.later (List.prefix_append _ _)⟩

end Store.Renames

/-- The machines are the same but for their stores, and `marks` tells which ones of the scopes
around the current one are chosen. -/
structure Machine.Renames (ρ : Renaming) (t : Table) (l : Layout) (marks : List Bool)
    (m m' : Machine) : Prop where
  rooted : l.Rooted
  store : m.store.Renames ρ t l m'.store
  chain : l.Chain m.scope marks
  table : m.table = t
  rest : m' = { m with store := m'.store }

/-- The failures are the same, but for the name of an undefined variable. -/
inductive Failure.Renames (ρ : Renaming) : Failure → Failure → Prop where
  | refl (e : Failure) : Failure.Renames ρ e e
  | undefined (chosen : Bool) (name : Token) : Failure.Renames ρ
    (.error ⟨name, .undefinedVariable name.lexeme⟩)
    (.error ⟨ρ.token chosen name, .undefinedVariable (ρ.token chosen name).lexeme⟩)

end Lox

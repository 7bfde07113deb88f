import Lox.Store

/-!
# Chains of scopes

What stays as it was when a scope is opened or a name is defined: the parents of all scopes, and so
the way outwards from each of them, and every name that is there already.
-/
namespace Lox.Store

variable {α : Type} (s : Store α)

theorem scope?_eq_none {id : Nat} (h : s.size ≤ id) : s.scope? id = none := by
  simpa [scope?, size] using h

theorem lt_size_of_parent? {id p : Nat} (h : s.parent? id = some p) : id < s.size := by
  apply Nat.lt_of_not_le
  intro hle
  rw [parent?, s.scope?_eq_none hle] at h
  cases h

theorem lt_size_of_valueIn? {id : Nat} {name : String} (h : (s.valueIn? id name).isSome) :
    id < s.size := by
  apply Nat.lt_of_not_le
  intro hle
  rw [valueIn?, s.scope?_eq_none hle] at h
  cases h

@[simp] theorem valueIn?_fork (parent id : Nat) (name : String) :
    (s.fork parent).valueIn? id name = s.valueIn? id name := by
  rw [valueIn?, scope?_fork]
  split
  · next h => rw [valueIn?, s.scope?_eq_none (Nat.le_of_eq h.symm)]; rfl
  · rfl

theorem parent?_fork_self (parent : Nat) : (s.fork parent).parent? s.size = some parent := by
  rw [parent?, scope?_fork, if_pos rfl]
  rfl

theorem parent?_fork_of_lt (parent : Nat) {id : Nat} (h : id < s.size) :
    (s.fork parent).parent? id = s.parent? id := by
  rw [parent?, scope?_fork, if_neg (Nat.ne_of_lt h)]
  rfl

theorem valueIn?_define_self {id : Nat} (h : id < s.size) (name : String) (value : α) :
    (s.define id name value).valueIn? id name = some value := by
  obtain ⟨scope, hscope⟩ : ∃ scope, s.scope? id = some scope :=
    ⟨s.scopes[id], Array.getElem?_eq_getElem h⟩
  rw [valueIn?, scope?_define, if_pos rfl, hscope]
  simp

theorem valueIn?_define_of_ne {id id' : Nat} {name name' : String} (value : α)
    (h : id = id' → name ≠ name') :
    (s.define id name value).valueIn? id' name' = s.valueIn? id' name' := by
  rw [valueIn?, scope?_define]
  split
  · next heq =>
    rw [valueIn?]
    cases s.scope? id' with
    | none => rfl
    | some scope => exact Values.lookup_put_of_ne (Ne.symm (h heq)) value scope.values
  · rfl

/-- No name is lost by a definition. -/
theorem isSome_valueIn?_define {id id' : Nat} {name name' : String} (value : α)
    (h : (s.valueIn? id' name').isSome) :
    ((s.define id name value).valueIn? id' name').isSome := by
  by_cases heq : id = id' ∧ name = name'
  · obtain ⟨rfl, rfl⟩ := heq
    rw [s.valueIn?_define_self (s.lt_size_of_valueIn? h)]
    rfl
  · rwa [s.valueIn?_define_of_ne value fun hid hname => heq ⟨hid, hname⟩]

/-- The way outwards is the same in a store that keeps all parents. -/
theorem ancestor?_mono {s s' : Store α}
    (hp : ∀ id p, s.parent? id = some p → s'.parent? id = some p) {hops id holder : Nat}
    (h : s.ancestor? hops id = some holder) :
    s'.ancestor? hops id = some holder := by
  induction hops generalizing id with
  | zero => exact h
  | succ hops ih =>
    rw [ancestor?] at h ⊢
    obtain ⟨p, hparent, hrest⟩ := Option.bind_eq_some_iff.1 h
    rw [hp id p hparent]
    exact ih hrest

/-- Without parents to search, the search for a name ends where it begins. -/
theorem owner?_global (name : String) :
    s.owner? name global = if (s.valueIn? global name).isSome then some global else none := by
  rw [owner?, global, ownerWithin?]
  split
  · rfl
  · cases s.parent? 0 <;> rfl

end Lox.Store

import Lox.Proofs.Scoping.Chains

/-!
# The tree of scopes

The global scope has no parent, and the parent of every other scope is an older scope. So the way
outwards from any scope comes to the global one, in no more steps than the number of the scope says.
Opening a scope inside one that is there keeps this, and defining a name does.
-/
namespace Lox.Store

variable {α : Type} {s : Store α}

structure Tree (s : Store α) : Prop where
  size : 0 < s.size
  global : s.parent? global = none
  parent : ∀ id : Nat, id ≠ Store.global → id < s.size → ∃ p < id, s.parent? id = some p

theorem tree_initial : (initial : Store α).Tree where
  size := Nat.zero_lt_one
  global := rfl
  parent _ hne hlt := absurd (Nat.lt_one_iff.1 hlt) hne

namespace Tree

variable {id : Nat}

theorem define (h : s.Tree) (id : Nat) (name : String) (v : α) :
    (s.define id name v).Tree where
  size := by simpa using h.size
  global := by simpa using h.global
  parent other hne hlt := by simpa using h.parent other hne (by simpa using hlt)

theorem fork (h : s.Tree) (hid : id < s.size) : (s.fork id).Tree where
  size := by simp
  global := (s.parent?_fork_of_lt id h.size).trans h.global
  parent other hne hlt := by
    rcases Nat.lt_succ_iff_lt_or_eq.1 (by simpa using hlt) with hlt | rfl
    · rw [s.parent?_fork_of_lt id hlt]
      exact h.parent other hne hlt
    · exact ⟨id, hid, s.parent?_fork_self id⟩

/-- The global scope is the only one without a parent. -/
theorem parent?_eq_none_iff (h : s.Tree) (hid : id < s.size) :
    s.parent? id = none ↔ id = Store.global := by
  constructor
  · intro hnone
    refine Decidable.by_contra fun hne => ?_
    obtain ⟨p, -, hp⟩ := h.parent id hne hid
    rw [hnone] at hp
    cases hp
  · rintro rfl
    exact h.global

theorem lt_of_parent? (h : s.Tree) {p : Nat} (hp : s.parent? id = some p) : p < id := by
  have hne : id ≠ Store.global := by
    rintro rfl
    rw [h.global] at hp
    cases hp
  obtain ⟨q, hlt, hq⟩ := h.parent id hne (s.lt_size_of_parent? hp)
  rw [hp] at hq
  cases hq
  exact hlt

/-- Every step outwards leads to an older scope. -/
theorem add_le_of_ancestor? (h : s.Tree) {hops outer : Nat}
    (ha : s.ancestor? hops id = some outer) : outer + hops ≤ id := by
  induction hops generalizing id with
  | zero =>
    obtain rfl := Option.some.inj ha
    exact Nat.le_refl _
  | succ hops ih =>
    obtain ⟨p, hp, hrest⟩ := Option.bind_eq_some_iff.1 ha
    have hlt := h.lt_of_parent? hp
    have hle := ih hrest
    omega

/-- From every scope the way outwards comes to the global one. -/
theorem exists_ancestor?_global (h : s.Tree) (hid : id < s.size) :
    ∃ depth ≤ id, s.ancestor? depth id = some Store.global := by
  induction id using Nat.strongRecOn with
  | ind id ih =>
    by_cases heq : id = Store.global
    · exact ⟨0, Nat.zero_le _, by rw [heq]; rfl⟩
    · obtain ⟨p, hlt, hp⟩ := h.parent id heq hid
      obtain ⟨depth, hle, hdepth⟩ := ih p hlt (Nat.lt_trans hlt hid)
      exact ⟨depth + 1, by omega, by rw [ancestor?, hp]; exact hdepth⟩

end Tree

end Lox.Store

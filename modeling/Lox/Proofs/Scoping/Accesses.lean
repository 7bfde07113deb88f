import Lox.Proofs.Ending
import Lox.Proofs.Scoping.Tree
import Mathlib.Data.Nat.Find

/-!
# Two ways to a variable

A variable is found by searching outwards for its name, or by going a known number of steps
outwards. Where the number is that of the nearest scope with the name, both ways come to the same
scope, and reading and assigning are the same on both. Whatever changes a store otherwise than by
opening a scope changes one cell of it: one name of one scope.
-/
namespace Lox

namespace Store

variable {α : Type} {s s' : Store α}

/-- The stores that come of the first one by opening scopes, defining names and assigning to them,
in any of their scopes. -/
inductive Built : Store α → Prop where
  | initial : Built initial
  | fork {s : Store α} {id : Nat} (h : Built s) (hid : id < s.size) : Built (s.fork id)
  | define {s : Store α} {id : Nat} (h : Built s) (hid : id < s.size) (name : String) (v : α) :
    Built (s.define id name v)
  | assign {s s' : Store α} {id : Nat} {name : String} {v : α} (h : Built s) (hid : id < s.size)
    (hok : s.assign id name v = .ok s') : Built s'
  | assignAt {s s' : Store α} {hops id : Nat} {name : String} {v : α} (h : Built s)
    (hid : id < s.size) (hok : s.assignAt hops id name v = .ok s') : Built s'

theorem holder_of_assign {id : Nat} {name : String} {v : α} (h : s.assign id name v = .ok s') :
    ∃ holder, s.holder id name = .ok holder ∧ s' = s.define holder name v := by
  cases hholder : s.holder id name with
  | error fault => simp [assign, hholder, bind, Except.bind] at h
  | ok holder =>
    refine ⟨holder, rfl, ?_⟩
    simpa [assign, hholder, bind, Except.bind, pure, Except.pure, eq_comm] using h

theorem holderAt_of_assignAt {hops id : Nat} {name : String} {v : α}
    (h : s.assignAt hops id name v = .ok s') :
    ∃ holder, s.holderAt hops id name = .ok holder ∧ s' = s.define holder name v := by
  cases hholder : s.holderAt hops id name with
  | error fault => simp [assignAt, hholder, bind, Except.bind] at h
  | ok holder =>
    refine ⟨holder, rfl, ?_⟩
    simpa [assignAt, hholder, bind, Except.bind, pure, Except.pure, eq_comm] using h

/-- All these stores are trees of scopes. -/
theorem Built.tree (h : s.Built) : s.Tree := by
  induction h with
  | initial => exact tree_initial
  | fork _ hid ih => exact ih.fork hid
  | define _ _ name v ih => exact ih.define _ name v
  | assign _ _ hok ih =>
    obtain ⟨holder, -, rfl⟩ := holder_of_assign hok
    exact ih.define holder _ _
  | assignAt _ _ hok ih =>
    obtain ⟨holder, -, rfl⟩ := holderAt_of_assignAt hok
    exact ih.define holder _ _

/-- The scope this many steps outwards has the name, and none before it has. -/
structure Nearest (s : Store α) (name : String) (id hops holder : Nat) : Prop where
  reaches : s.ancestor? hops id = some holder
  holds : (s.valueIn? holder name).isSome
  first : ∀ k < hops, ∀ inner, s.ancestor? k id = some inner → s.valueIn? inner name = none

/-- No scope on the way outwards has the name. -/
def Unheld (s : Store α) (name : String) (id : Nat) : Prop :=
  ∀ hops outer, s.ancestor? hops id = some outer → s.valueIn? outer name = none

section
variable {name : String} {id hops holder steps : Nat}

theorem nearest_or_unheld (s : Store α) (name : String) (id : Nat) :
    (∃ hops holder, s.Nearest name id hops holder) ∨ s.Unheld name id := by
  classical
  by_cases h : ∃ hops holder, s.ancestor? hops id = some holder ∧ (s.valueIn? holder name).isSome
  · obtain ⟨holder, hreaches, hholds⟩ := Nat.find_spec h
    refine .inl ⟨Nat.find h, holder, hreaches, hholds, fun k hk inner hinner => ?_⟩
    have hleast := Nat.find_min h hk
    exact Option.not_isSome_iff_eq_none.1 fun hsome => hleast ⟨inner, hinner, hsome⟩
  · refine .inr fun hops outer houter => ?_
    exact Option.not_isSome_iff_eq_none.1 fun hsome => h ⟨hops, outer, houter, hsome⟩

/-- What is nearest from the next scope outwards is nearest from a scope without the name. -/
theorem Nearest.outwards (h : s.Nearest name id (hops + 1) holder) :
    s.valueIn? id name = none ∧ ∃ p, s.parent? id = some p ∧ s.Nearest name p hops holder := by
  obtain ⟨p, hp, hrest⟩ := Option.bind_eq_some_iff.1 h.reaches
  refine ⟨h.first 0 (Nat.succ_pos _) id rfl, p, hp, hrest, h.holds, fun k hk inner hinner => ?_⟩
  refine h.first (k + 1) (Nat.succ_lt_succ hk) inner ?_
  rw [ancestor?, hp]
  exact hinner

theorem Nearest.ownerWithin? (h : s.Nearest name id hops holder) (hlt : hops < steps) :
    s.ownerWithin? name steps id = some holder := by
  induction steps generalizing id hops with
  | zero => exact absurd hlt (Nat.not_lt_zero _)
  | succ steps ih =>
    rw [Store.ownerWithin?]
    cases hops with
    | zero =>
      obtain rfl := Option.some.inj h.reaches
      rw [if_pos h.holds]
    | succ hops =>
      obtain ⟨hnone, p, hp, hnearest⟩ := h.outwards
      rw [hnone, hp]
      exact ih hnearest (Nat.lt_of_succ_lt_succ hlt)

theorem Unheld.ownerWithin? (h : s.Unheld name id) (steps : Nat) :
    s.ownerWithin? name steps id = none := by
  induction steps generalizing id with
  | zero => rfl
  | succ steps ih =>
    rw [Store.ownerWithin?, h 0 id rfl]
    cases hp : s.parent? id with
    | none => rfl
    | some p =>
      refine ih fun hops outer houter => h (hops + 1) outer ?_
      rw [ancestor?, hp]
      exact houter

/-- A search comes to the nearest scope: in a tree its steps do not run out before. -/
theorem Nearest.holder_eq (h : s.Nearest name id hops holder) (ht : s.Tree) :
    s.holder id name = .ok holder := by
  have hle := ht.add_le_of_ancestor? h.reaches
  rw [Store.holder, owner?, h.ownerWithin? (by omega)]

theorem Nearest.holderAt_eq (h : s.Nearest name id hops holder) :
    s.holderAt hops id name = .ok holder := by
  simp only [holderAt, h.reaches, h.holds, if_true]

theorem Unheld.holder_eq (h : s.Unheld name id) : s.holder id name = .error .undefined := by
  rw [Store.holder, owner?, h.ownerWithin?]

theorem nearest_of_holder (h : s.holder id name = .ok holder) (ht : s.Tree) :
    ∃ hops, s.Nearest name id hops holder := by
  rcases s.nearest_or_unheld name id with ⟨hops, nearest, hnearest⟩ | hunheld
  · rw [hnearest.holder_eq ht] at h
    cases h
    exact ⟨hops, hnearest⟩
  · rw [hunheld.holder_eq] at h
    cases h

theorem reaches_of_holderAt (h : s.holderAt hops id name = .ok holder) :
    s.ancestor? hops id = some holder ∧ (s.valueIn? holder name).isSome := by
  unfold holderAt at h
  split at h
  · cases h
  · next outer ha =>
    split at h <;> cases h
    exact ⟨ha, ‹_›⟩

end

/-- The second store is the first one with another value in one cell. -/
structure CellSet (s s' : Store α) (id : Nat) (name : String) (v : α) : Prop where
  size : s'.size = s.size
  parents : ∀ other, s'.parent? other = s.parent? other
  value : s'.valueIn? id name = some v
  names : ∀ name' ≠ name, s'.valueIn? id name' = s.valueIn? id name'
  scopes : ∀ other ≠ id, s'.scope? other = s.scope? other

theorem cellSet_define {id : Nat} (hid : id < s.size) (name : String) (v : α) :
    CellSet s (s.define id name v) id name v where
  size := by simp
  parents := by simp
  value := s.valueIn?_define_self hid name v
  names _ hne := s.valueIn?_define_of_ne v fun _ heq => hne heq.symm
  scopes other hne := by rw [scope?_define, if_neg (Ne.symm hne)]

/-- A cell that is there already adds no name. -/
theorem CellSet.isSome_valueIn? {id : Nat} {name : String} {v : α} (h : CellSet s s' id name v)
    (hold : (s.valueIn? id name).isSome) (other : Nat) (name' : String) :
    (s'.valueIn? other name').isSome = (s.valueIn? other name').isSome := by
  by_cases hid : other = id
  · subst hid
    by_cases hname : name' = name
    · rw [hname, h.value, hold, Option.isSome_some]
    · rw [h.names name' hname]
  · rw [valueIn?, valueIn?, h.scopes other hid]

end Store

/-- The scope that a use finds has its name. -/
theorem Run.isSome_of_holder {m : Machine} {site : Site} {name : Token} {id : Nat}
    (h : Run.holder m site name = .ok id) : (m.store.valueIn? id name.lexeme).isSome := by
  unfold Run.holder at h
  split at h
  · exact (Store.reaches_of_holderAt h).2
  · rw [Store.holder, Store.owner?_global] at h
    split at h
    · next howner =>
      cases h
      split at howner <;> cases howner
      assumption
    · cases h

/-- Reading changes nothing, with or without a value. -/
theorem Run.ends_lookUp (m : Machine) (site : Site) (name : Token) :
    Ends (Run.lookUp site name) m (fun _ m' => m' = m) fun _ m' => m' = m := by
  unfold Ends Run.lookUp
  split
  · next h => split at h <;> cases h; rfl
  · next h => split at h <;> cases h; rfl

/-- Assigning changes one cell that is there, or fails and changes nothing. -/
theorem Run.ends_assign (m : Machine) (site : Site) (name : Token) (v : Value) :
    Ends (Run.assign site name v) m
      (fun _ m' => ∃ holder, (m.store.valueIn? holder name.lexeme).isSome ∧
        m.store.CellSet m'.store holder name.lexeme v ∧ m' = { m with store := m'.store })
      fun _ m' => m' = m := by
  cases hholder : Run.holder m site name with
  | error fault =>
    have hact : Run.assign site name v m = .error (Run.accessFailure name fault) m := by
      simp only [assign, hholder]
    exact .of_error hact rfl
  | ok holder =>
    have hsome := Run.isSome_of_holder hholder
    have hact : Run.assign site name v m =
        .ok () { m with store := m.store.define holder name.lexeme v } := by
      simp only [assign, hholder]
    have hcell := Store.cellSet_define (m.store.lt_size_of_valueIn? hsome) name.lexeme v
    exact .of_ok hact ⟨holder, hsome, hcell, rfl⟩

namespace Store

variable {α : Type} {s : Store α}

section
variable {name : String} {id hops holder : Nat}

/-- Both ways come to the nearest scope with the name. -/
theorem Nearest.agrees (h : s.Nearest name id hops holder) (ht : s.Tree) (v : α) :
    (∃ w, s.valueIn? holder name = some w ∧ s.get id name = .ok w) ∧
      s.get id name = s.getAt hops id name ∧
      s.assign id name v = .ok (s.define holder name v) ∧
      s.assign id name v = s.assignAt hops id name v := by
  obtain ⟨w, hw⟩ := Option.isSome_iff_exists.1 h.holds
  simp [get, getAt, getIn, assign, assignAt, h.holder_eq ht, h.holderAt_eq, hw, bind, Except.bind,
    pure, Except.pure]

theorem Unheld.fails (h : s.Unheld name id) (v : α) :
    s.get id name = .error .undefined ∧ s.assign id name v = .error .undefined := by
  simp [get, assign, h.holder_eq, bind, Except.bind]

end

/-- Searching agrees with going outwards. In every store that comes about, the nearest scope with a
name is where a search ends, and where going this number of steps ends; without such a scope
searching fails at the name. A definition and an assignment change one cell, and an assignment adds
no name. On a machine, reading changes nothing, and neither does an assignment that fails. -/
theorem Built.accesses_agree (hs : s.Built) {id : Nat} (hid : id < s.size) (t : Token) (v : α) :
    ((∃ hops holder, s.Nearest t.lexeme id hops holder) ∨ s.Unheld t.lexeme id) ∧
    (∀ hops holder, s.Nearest t.lexeme id hops holder →
      (∃ w, s.valueIn? holder t.lexeme = some w ∧ s.get id t.lexeme = .ok w) ∧
      s.get id t.lexeme = s.getAt hops id t.lexeme ∧
      s.assign id t.lexeme v = .ok (s.define holder t.lexeme v) ∧
      s.assign id t.lexeme v = s.assignAt hops id t.lexeme v) ∧
    (s.Unheld t.lexeme id →
      s.get id t.lexeme = .error .undefined ∧ s.assign id t.lexeme v = .error .undefined ∧
      ∃ e, Run.accessFailure t .undefined = .error e ∧ e.token = t ∧
        e.fault.message = "Undefined variable '" ++ t.lexeme ++ "'.") ∧
    s.CellSet (s.define id t.lexeme v) id t.lexeme v ∧
    (∀ s', s.assign id t.lexeme v = .ok s' →
      (∃ hops holder, s.Nearest t.lexeme id hops holder ∧ s.CellSet s' holder t.lexeme v) ∧
      ∀ other name, (s'.valueIn? other name).isSome = (s.valueIn? other name).isSome) ∧
    (∀ hops s', s.assignAt hops id t.lexeme v = .ok s' →
      (∃ holder, s.ancestor? hops id = some holder ∧ s.CellSet s' holder t.lexeme v) ∧
      ∀ other name, (s'.valueIn? other name).isSome = (s.valueIn? other name).isSome) ∧
    ∀ (m : Machine) (site : Site) (w : Value),
      Ends (Run.lookUp site t) m (fun _ m' => m' = m) (fun _ m' => m' = m) ∧
      Ends (Run.assign site t w) m
        (fun _ m' => ∃ holder, (m.store.valueIn? holder t.lexeme).isSome ∧
          m.store.CellSet m'.store holder t.lexeme w ∧ m' = { m with store := m'.store })
        (fun _ m' => m' = m) := by
  have ht := hs.tree
  have hset {holder : Nat} (hsome : (s.valueIn? holder t.lexeme).isSome) :
      s.CellSet (s.define holder t.lexeme v) holder t.lexeme v :=
    cellSet_define (s.lt_size_of_valueIn? hsome) _ v
  refine ⟨s.nearest_or_unheld _ _, fun _ _ h => h.agrees ht v, fun h => ?_,
    cellSet_define hid _ v, fun s' hok => ?_, fun hops s' hok => ?_, fun m site w => ?_⟩
  · exact ⟨(h.fails v).1, (h.fails v).2, _, rfl, rfl, rfl⟩
  · obtain ⟨holder, hholder, rfl⟩ := holder_of_assign hok
    obtain ⟨hops, hnearest⟩ := nearest_of_holder hholder ht
    have hcell := hset hnearest.holds
    exact ⟨⟨hops, holder, hnearest, hcell⟩, hcell.isSome_valueIn? hnearest.holds⟩
  · obtain ⟨holder, hholder, rfl⟩ := holderAt_of_assignAt hok
    obtain ⟨hreaches, hsome⟩ := reaches_of_holderAt hholder
    exact ⟨⟨holder, hreaches, hset hsome⟩, (hset hsome).isSome_valueIn? hsome⟩
  · exact ⟨Run.ends_lookUp m site t, Run.ends_assign m site t w⟩

/-- A name of the global scope behind another one of this name, seen from two scopes further
inside. -/
def shadowed : Store Nat :=
  ((((initial.define 0 "x" 1).fork 0).define 1 "x" 2).fork 1).fork 0

theorem Built.accesses_agree_shadowed :
    shadowed.Built ∧ 2 < shadowed.size ∧ shadowed.Nearest "x" 2 1 1 ∧
      shadowed.get 2 "x" = .ok 2 ∧ shadowed.get 2 "x" = shadowed.getAt 1 2 "x" ∧
      shadowed.assign 2 "x" 7 = shadowed.assignAt 1 2 "x" 7 ∧
      (shadowed.define 1 "x" 7).valueIn? 0 "x" = some 1 := by
  have hbuilt : shadowed.Built :=
    (((((Built.initial.define (by decide) "x" 1).fork (by decide)).define (by decide) "x" 2).fork
      (by decide)).fork (by decide))
  have hnearest : shadowed.Nearest "x" 2 1 1 := by
    refine ⟨by decide, by decide, fun k hk inner hinner => ?_⟩
    obtain rfl := Nat.lt_one_iff.1 hk
    obtain rfl := Option.some.inj hinner
    decide
  have hinner : 2 < shadowed.size := by decide
  have houter : 1 < shadowed.size := by decide
  obtain ⟨-, hagrees, -⟩ := hbuilt.accesses_agree hinner ⟨.identifier, "x", .nil, 1⟩ 7
  obtain ⟨-, hget, -, hassign⟩ := hagrees 1 1 hnearest
  obtain ⟨-, -, -, hdefine, -⟩ := hbuilt.accesses_agree houter ⟨.identifier, "x", .nil, 1⟩ 7
  refine ⟨hbuilt, hinner, hnearest, by decide, hget, hassign, ?_⟩
  rw [valueIn?, hdefine.scopes 0 (by decide)]
  decide

end Store

end Lox

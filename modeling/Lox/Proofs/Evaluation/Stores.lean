import Lox.Store

/-!
# The values of a store

A store has a value if some scope holds it under some name, also behind another value of this name.
What a store has comes from the definitions that made it. The values of a store may be changed all
at once; whatever is found in the store is then found changed.
-/
namespace Lox.Store

variable {α β : Type}

section
variable {s : Store α}

/-- A value is in some scope, under some name. -/
def Has (s : Store α) (v : α) : Prop := ∃ scope ∈ s.scopes, ∃ entry ∈ scope.values, entry.2 = v

theorem not_has_initial (v : α) : ¬ (initial : Store α).Has v := by
  rintro ⟨scope, hscope, entry, hentry, -⟩
  obtain rfl := Array.mem_singleton.1 hscope
  cases hentry

theorem has_of_valueIn? {id : ScopeId} {name : String} {v : α}
    (h : s.valueIn? id name = some v) : s.Has v := by
  obtain ⟨scope, hscope, hv⟩ := Option.bind_eq_some_iff.1 h
  obtain ⟨before, after, hvalues, -⟩ := List.lookup_eq_some_iff.1 hv
  exact ⟨scope, Array.mem_of_getElem? hscope, (name, v), by simp [hvalues], rfl⟩

/-- What is found by a search is in some scope. -/
theorem has_of_get {id : ScopeId} {name : String} {v : α} (h : s.get id name = .ok v) :
    s.Has v := by
  cases hholder : s.holder id name with
  | error fault => simp [get, hholder, bind, Except.bind] at h
  | ok holder =>
    cases hv : s.valueIn? holder name with
    | none => simp [get, hholder, bind, Except.bind, getIn, hv] at h
    | some w =>
      obtain rfl : w = v := by simpa [get, hholder, bind, Except.bind, getIn, hv] using h
      exact has_of_valueIn? hv

theorem has_fork {parent : ScopeId} {v : α} (h : (s.fork parent).Has v) : s.Has v := by
  obtain ⟨scope, hscope, entry, hentry, hv⟩ := h
  rcases Array.mem_push.1 hscope with hold | rfl
  · exact ⟨scope, hold, entry, hentry, hv⟩
  · cases hentry

theorem mem_put {name : String} {v : α} {values : Values α} {entry : String × α}
    (h : entry ∈ values.put name v) : entry.2 = v ∨ entry ∈ values := by
  induction values with
  | nil =>
    obtain rfl := List.mem_singleton.1 h
    exact .inl rfl
  | cons first rest ih =>
    rw [Values.put] at h
    split at h
    · rcases List.mem_cons.1 h with rfl | h
      · exact .inl rfl
      · exact .inr (List.mem_cons_of_mem _ h)
    · rcases List.mem_cons.1 h with rfl | h
      · exact .inr (List.mem_cons_self ..)
      · exact (ih h).imp_right (List.mem_cons_of_mem _)

/-- A value of a store after a definition is the new one or an old one. -/
theorem has_define {id : ScopeId} {name : String} {v w : α} (h : (s.define id name v).Has w) :
    w = v ∨ s.Has w := by
  obtain ⟨scope, hscope, entry, hentry, rfl⟩ := h
  obtain ⟨i, hi⟩ := Array.mem_iff_getElem?.1 hscope
  rw [define, Array.getElem?_modify] at hi
  split at hi
  · obtain ⟨old, hold, rfl⟩ := Option.map_eq_some_iff.1 hi
    exact (mem_put hentry).imp_right fun hmem =>
      ⟨old, Array.mem_of_getElem? hold, entry, hmem, rfl⟩
  · exact .inr ⟨scope, Array.mem_of_getElem? hi, entry, hentry, rfl⟩

end

variable (f : α → β) (s : Store α)

/-- The store with other values. -/
def map : Store β :=
  ⟨s.scopes.map fun scope => ⟨scope.parent, scope.values.map fun entry => (entry.1, f entry.2)⟩⟩

@[simp] theorem size_map : (s.map f).size = s.size := by simp [map, size]

theorem scope?_map (id : ScopeId) : (s.map f).scope? id = (s.scope? id).map fun scope =>
    ⟨scope.parent, scope.values.map fun entry => (entry.1, f entry.2)⟩ := by
  simp [map, scope?]

@[simp] theorem parent?_map (id : ScopeId) : (s.map f).parent? id = s.parent? id := by
  rw [parent?, parent?, scope?_map]
  cases s.scope? id <;> rfl

theorem lookup_mapped (name : String) (values : Values α) :
    (values.map fun entry => (entry.1, f entry.2)).lookup name =
      (List.lookup name values).map f := by
  induction values with
  | nil => rfl
  | cons entry rest ih =>
    obtain ⟨key, v⟩ := entry
    rw [List.map_cons, List.lookup_cons, List.lookup_cons, ih]
    cases name == key <;> rfl

@[simp] theorem valueIn?_map (id : ScopeId) (name : String) :
    (s.map f).valueIn? id name = (s.valueIn? id name).map f := by
  rw [valueIn?, valueIn?, scope?_map]
  cases s.scope? id with
  | none => rfl
  | some scope => exact lookup_mapped f name scope.values

@[simp] theorem fork_map (parent : ScopeId) : (s.map f).fork parent = (s.fork parent).map f := by
  simp [map, fork]

theorem put_mapped (name : String) (v : α) (values : Values α) :
    Values.put name (f v) (values.map fun entry => (entry.1, f entry.2)) =
      (values.put name v).map fun entry => (entry.1, f entry.2) := by
  induction values with
  | nil => rfl
  | cons entry rest ih =>
    rw [List.map_cons, Values.put, Values.put, ih]
    split <;> rfl

@[simp] theorem define_map (id : ScopeId) (name : String) (v : α) :
    (s.map f).define id name (f v) = (s.define id name v).map f := by
  refine congrArg Store.mk (Array.ext_getElem? fun i => ?_)
  by_cases h : id = i <;> cases hscope : s.scopes[i]? <;>
    simp [Array.getElem?_modify, map, define, h, hscope, put_mapped]

@[simp] theorem ancestor?_map (hops : Nat) (id : ScopeId) :
    (s.map f).ancestor? hops id = s.ancestor? hops id := by
  induction hops generalizing id with
  | zero => rfl
  | succ hops ih =>
    rw [ancestor?, ancestor?, parent?_map]
    exact congrArg _ (funext ih)

theorem ownerWithin?_map (name : String) (steps : Nat) (id : ScopeId) :
    (s.map f).ownerWithin? name steps id = s.ownerWithin? name steps id := by
  induction steps generalizing id with
  | zero => rfl
  | succ steps ih =>
    rw [ownerWithin?, ownerWithin?, parent?_map, valueIn?_map, Option.isSome_map, funext ih]

@[simp] theorem holder_map (id : ScopeId) (name : String) :
    (s.map f).holder id name = s.holder id name := by
  rw [holder, holder, owner?, owner?, ownerWithin?_map]

@[simp] theorem holderAt_map (hops : Nat) (id : ScopeId) (name : String) :
    (s.map f).holderAt hops id name = s.holderAt hops id name := by
  simp [holderAt]

theorem map_map {γ : Type} (g : β → γ) : (s.map f).map g = s.map (g ∘ f) := by
  simp [map, Function.comp_def]

/-- A store stays as it is if all its values do. -/
theorem map_of_fixed {g : α → α} (h : ∀ v, s.Has v → g v = v) : s.map g = s := by
  have hscope (scope : Scope α) (hmem : scope ∈ s.scopes) :
      (⟨scope.parent, scope.values.map fun entry => (entry.1, g entry.2)⟩ : Scope α) = scope := by
    have hvalues : (scope.values.map fun entry => (entry.1, g entry.2)) = scope.values := by
      refine (List.map_congr_left fun entry hentry => ?_).trans (List.map_id _)
      rw [h entry.2 ⟨scope, hmem, entry, hentry, rfl⟩]
      rfl
    rw [hvalues]
  refine congrArg Store.mk ((Array.map_congr_left hscope).trans ?_)
  exact Array.map_id' _

end Lox.Store

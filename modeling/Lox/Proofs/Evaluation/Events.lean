import Lox.Proofs.Evaluation.Reaching

/-!
# What happens in an evaluation

An evaluation begins, comes to its parts, and ends; in between it opens scopes and stores values in
variables. `Point.events` lists all this in order, the events of the parts included. A course of
events leads from one store to another: only the scopes that are opened and the values that are
stored make a difference, and where an evaluation begins or ends the store is the one that it has.
So a variable holds at any time what was stored in it last.
-/
namespace Lox

/-- Something that happens in an evaluation. -/
inductive StoreEvent where
  | begins (p : Point)
  /-- A scope is opened inside this one. -/
  | opens (parent : ScopeId)
  /-- A variable gets a value. -/
  | stores (id : ScopeId) (name : String) (v : Value)
  | ends (p : Point)

namespace StoreEvent

/-- The machine on which an evaluation begins, or the one that it leaves. -/
def machine? (rounds : Nat) : StoreEvent → Option Machine
  | .begins p => some p.machine
  | .ends p => some (p.leaves rounds)
  | _ => none

/-- The value that the variable gets. -/
def stored? (id : ScopeId) (name : String) : StoreEvent → Option Value
  | .stores id' name' v => if id' = id ∧ name' = name then some v else none
  | .begins _ | .opens _ | .ends _ => none

end StoreEvent

/-- The stores at the times at which evaluations begin and end. -/
def moments (rounds : Nat) (es : List StoreEvent) : List (Store Value) :=
  es.filterMap fun e => (e.machine? rounds).map Machine.store

/-- The value that the variable got last. -/
def lastStored? (id : ScopeId) (name : String) (es : List StoreEvent) : Option Value :=
  es.reverse.findSome? (StoreEvent.stored? id name)

theorem lastStored?_cons (id : ScopeId) (name : String) (e : StoreEvent) (es : List StoreEvent) :
    lastStored? id name (e :: es) = (lastStored? id name es).or (e.stored? id name) := by
  simp [lastStored?, List.findSome?_append]

/-- The events lead from one store to another. -/
inductive Course (rounds : Nat) : Store Value → List StoreEvent → Store Value → Prop where
  | nil {s} : Course rounds s [] s
  | begins {s p es s'} (hs : p.machine.store = s) (h : Course rounds s es s') :
    Course rounds s (.begins p :: es) s'
  | opens {s parent es s'} (h : Course rounds (s.fork parent) es s') :
    Course rounds s (.opens parent :: es) s'
  | stores {s id name v es s'} (hid : id < s.size)
      (h : Course rounds (s.define id name v) es s') :
    Course rounds s (.stores id name v :: es) s'
  | ends {s p es s'} (hs : (p.leaves rounds).store = s) (h : Course rounds s es s') :
    Course rounds s (.ends p :: es) s'

namespace Course

variable {rounds : Nat} {s s₁ s' : Store Value} {es us vs : List StoreEvent} {e : StoreEvent}
  {m : Machine}

theorem append (hu : Course rounds s us s₁) (hv : Course rounds s₁ vs s') :
    Course rounds s (us ++ vs) s' := by
  induction hu with
  | nil => exact hv
  | begins hs _ ih => exact .begins hs (ih hv)
  | opens _ ih => exact .opens (ih hv)
  | stores hid _ ih => exact .stores hid (ih hv)
  | ends hs _ ih => exact .ends hs (ih hv)

theorem of_append (h : Course rounds s (us ++ vs) s') :
    ∃ s₁, Course rounds s us s₁ ∧ Course rounds s₁ vs s' := by
  induction us generalizing s with
  | nil => exact ⟨s, .nil, h⟩
  | cons e us ih =>
    cases h with
    | begins hs h => exact (ih h).imp fun _ ⟨hu, hv⟩ => ⟨.begins hs hu, hv⟩
    | opens h => exact (ih h).imp fun _ ⟨hu, hv⟩ => ⟨.opens hu, hv⟩
    | stores hid h => exact (ih h).imp fun _ ⟨hu, hv⟩ => ⟨.stores hid hu, hv⟩
    | ends hs h => exact (ih h).imp fun _ ⟨hu, hv⟩ => ⟨.ends hs hu, hv⟩

/-- Where an evaluation begins or ends, the store is the one of its machine. -/
theorem machine_eq (h : Course rounds s (e :: es) s') (hm : e.machine? rounds = some m) :
    m.store = s ∧ Course rounds s es s' := by
  cases h with
  | begins hs h =>
    cases hm
    exact ⟨hs, h⟩
  | ends hs h =>
    cases hm
    exact ⟨hs, h⟩
  | _ => cases hm

theorem at_machine (h : Course rounds s (us ++ e :: vs) s') (hm : e.machine? rounds = some m) :
    Course rounds s us m.store ∧ Course rounds m.store vs s' := by
  obtain ⟨s₁, hu, hrest⟩ := h.of_append
  obtain ⟨rfl, hv⟩ := hrest.machine_eq hm
  exact ⟨hu, hv⟩

/-- No time loses a scope or a name that there was before, and none gives a scope another parent. -/
theorem pairwise_later (h : Course rounds s es s') :
    (s :: (moments rounds es ++ [s'])).Pairwise Store.Later := by
  -- What is added in front of the stores of a course is before them all.
  have hcons {s s₁ s' : Store Value} {stores : List (Store Value)} (hs : s.Later s₁)
      (hp : (s₁ :: (stores ++ [s'])).Pairwise Store.Later) :
      (s :: (stores ++ [s'])).Pairwise Store.Later := by
    obtain ⟨hfirst, hrest⟩ := List.pairwise_cons.1 hp
    exact List.pairwise_cons.2 ⟨fun s₂ hs₂ => hs.trans (hfirst s₂ hs₂), hrest⟩
  have hagain {s s' : Store Value} {stores : List (Store Value)}
      (hp : (s :: (stores ++ [s'])).Pairwise Store.Later) :
      (s :: s :: (stores ++ [s'])).Pairwise Store.Later := by
    refine List.pairwise_cons.2 ⟨fun s₂ hs₂ => ?_, hp⟩
    rcases List.mem_cons.1 hs₂ with rfl | hs₂
    · exact .refl _
    · exact (List.pairwise_cons.1 hp).1 s₂ hs₂
  induction h with
  | nil => simp [moments, Store.Later.refl]
  | begins hs _ ih =>
    subst hs
    exact hagain ih
  | opens _ ih => exact hcons (.fork _ _) ih
  | stores _ _ ih => exact hcons (.define _ _ _ _) ih
  | ends hs _ ih =>
    subst hs
    exact hagain ih

theorem later (h : Course rounds s es s') : s.Later s' :=
  List.rel_of_pairwise_cons h.pairwise_later (by simp)

/-- A variable holds what was stored in it last or else what it held at first. -/
theorem valueIn? (h : Course rounds s es s') (id : ScopeId) (name : String) :
    s'.valueIn? id name = (lastStored? id name es).or (s.valueIn? id name) := by
  induction h with
  | nil => rfl
  | begins _ _ ih => rw [ih, lastStored?_cons, StoreEvent.stored?, Option.or_none]
  | opens _ ih => rw [ih, lastStored?_cons, StoreEvent.stored?, Option.or_none, Store.valueIn?_fork]
  | @stores s id' name' v es s' hid _ ih =>
    rw [ih, lastStored?_cons, Option.or_assoc, StoreEvent.stored?]
    split
    · next heq =>
      obtain ⟨rfl, rfl⟩ := heq
      rw [Store.valueIn?_define_self _ hid, Option.some_or]
    · next hne =>
      rw [Store.valueIn?_define_of_ne _ _ fun hid hname => hne ⟨hid, hname⟩, Option.none_or]
  | ends _ _ ih => rw [ih, lastStored?_cons, StoreEvent.stored?, Option.or_none]

end Course

/-- What a call opens and stores leads to its frame. -/
theorem Course.frame (rounds : Nat) (s : Store Value) (parent : ScopeId) (parameters : List Token)
    (vs : List Value) :
    Course rounds s (.opens parent :: (parameters.zip vs).map fun pair =>
      .stores s.size pair.1.lexeme pair.2) (s.frame parent parameters vs) := by
  have hfold (pairs : List (Token × Value)) (store : Store Value) (hsize : s.size < store.size) :
      Course rounds store (pairs.map fun pair => .stores s.size pair.1.lexeme pair.2)
        (pairs.foldl (fun store pair => store.define s.size pair.1.lexeme pair.2) store) := by
    induction pairs generalizing store with
    | nil => exact .nil
    | cons pair pairs ih => exact .stores hsize (ih _ (by simpa using hsize))
  exact .opens (hfold _ _ (by simp))

namespace Point

open Eval (evaluate evaluateAll invoke execute executeAll repeatWhile)
open Relation (ReflTransGen)

/-- What happens before the first part: a block or a call opens a scope, and a call gives its
parameters their values there. -/
def opening (p : Point) : List StoreEvent :=
  match p.task with
  | .statement (_ + 1) (.block _) => [.opens p.machine.scope]
  | .call (_ + 1) (.closure c) vs =>
    .opens c.scope :: (c.parameters.zip vs).map fun pair =>
      .stores p.machine.store.size pair.1.lexeme pair.2
  | _ => []

/-- What happens behind the last part: an assignment stores the value in the variable that it is
for, and a declaration in the current scope. -/
def closing (rounds : Nat) (p : Point) : List StoreEvent :=
  match p.task with
  | .expression (room + 2) (.assign site name e) =>
    (evaluate rounds room e).after p.machine fun v m =>
      match Run.holder m site name with
      | .ok id => [.stores id name.lexeme v]
      | .error _ => []
  | .statement (_ + 1) (.function name parameters body) =>
    [.stores p.machine.scope name.lexeme (.function (.closure
      ⟨p.machine.nextIdentity, some name.lexeme, parameters, body, p.machine.scope⟩))]
  | .statement (_ + 1) (.var name none) => [.stores p.machine.scope name.lexeme .nil]
  | .statement (room + 1) (.var name (some e)) =>
    (evaluate rounds room e).after p.machine fun v _ => [.stores p.machine.scope name.lexeme v]
  | _ => []

variable {rounds : Nat} {p q : Point} {e : StoreEvent}

/-- What happens in the evaluation at a point, in order. -/
def events (rounds : Nat) (p : Point) : List StoreEvent :=
  .begins p :: p.opening ++ (p.parts rounds).attach.flatMap (fun q => events rounds q.1) ++
    p.closing rounds ++ [.ends p]
termination_by p.left
decreasing_by exact Prod.lex_def.2 (mem_parts_iff.1 q.2).left_lt

/-- What happens between its beginning and its end. -/
def happenings (rounds : Nat) (p : Point) : List StoreEvent :=
  p.opening ++ ((p.parts rounds).flatMap (events rounds) ++ p.closing rounds)

theorem events_eq (rounds : Nat) (p : Point) :
    p.events rounds = .begins p :: (p.happenings rounds ++ [.ends p]) := by
  rw [events, happenings]
  simp

/-- What happens in an evaluation is what each of the evaluations does that it comes to. -/
theorem mem_events_iff {rounds : Nat} {p : Point} {e : StoreEvent} :
    e ∈ p.events rounds ↔ ∃ q, ReflTransGen (Enters rounds) p q ∧
      (e = .begins q ∨ e ∈ q.opening ∨ e ∈ q.closing rounds ∨ e = .ends q) := by
  have hparts : (∃ q ∈ p.parts rounds, e ∈ q.events rounds) ↔
      ∃ q, p.Enters rounds q ∧ ∃ r, ReflTransGen (Enters rounds) q r ∧
        (e = .begins r ∨ e ∈ r.opening ∨ e ∈ r.closing rounds ∨ e = .ends r) := by
    refine exists_congr fun q => ?_
    rw [mem_parts_iff]
    exact and_congr_right fun hq => mem_events_iff
  rw [events_eq, happenings]
  simp only [List.mem_cons, List.mem_append, List.mem_flatMap, hparts, List.not_mem_nil, or_false]
  constructor
  · rintro (hown | (hown | ⟨q, hq, r, hr, h⟩ | hown) | hown)
    · exact ⟨p, .refl, .inl hown⟩
    · exact ⟨p, .refl, .inr (.inl hown)⟩
    · exact ⟨r, .head hq hr, h⟩
    · exact ⟨p, .refl, .inr (.inr (.inl hown))⟩
    · exact ⟨p, .refl, .inr (.inr (.inr hown))⟩
  · rintro ⟨r, hr, h⟩
    rcases hr.cases_head with rfl | ⟨q, hq, hr⟩
    · rcases h with h | h | h | h
      · exact .inl h
      · exact .inr (.inl (.inl h))
      · exact .inr (.inl (.inr (.inr h)))
      · exact .inr (.inr h)
    · exact .inr (.inl (.inr (.inl ⟨q, hq, r, hr, h⟩)))
termination_by p.left
decreasing_by exact Prod.lex_def.2 hq.left_lt

/-- What happens in an evaluation that is come to happens in the whole, and in one piece. -/
theorem events_of_reaches (h : ReflTransGen (Enters rounds) p q) :
    ∃ us vs, p.events rounds = us ++ q.events rounds ++ vs := by
  induction h using ReflTransGen.head_induction_on with
  | refl => exact ⟨[], [], by simp⟩
  | @head p r hstep _ ih =>
    obtain ⟨us, vs, hevents⟩ := ih
    obtain ⟨before, after, hparts⟩ := List.append_of_mem (mem_parts_iff.2 hstep)
    refine ⟨.begins p :: p.opening ++ before.flatMap (events rounds) ++ us,
      vs ++ after.flatMap (events rounds) ++ p.closing rounds ++ [.ends p], ?_⟩
    simp [events_eq rounds p, happenings, hparts, hevents]

end Point
end Lox

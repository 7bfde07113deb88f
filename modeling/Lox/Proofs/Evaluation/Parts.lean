import Lox.Proofs.Evaluation.Printed

/-!
# The parts of an evaluation in order

An evaluation comes to its parts one after the other, and to each of them when those before it had
results. `Point.parts` lists them in this order, so that what happens in an evaluation can be
counted: a part that is evaluated twice is there twice.
-/
namespace Lox

/-- What comes behind an action, if it has a result. -/
def Run.after {α β : Type} (act : Run α) (m : Machine) (next : α → Machine → List β) : List β :=
  match act m with
  | .ok a m' => next a m'
  | .error _ _ => []

namespace Run

variable {α β : Type} {act : Run α} {m : Machine} {next : α → Machine → List β}

theorem after_of_ok {a : α} {m' : Machine} (h : act m = .ok a m') :
    act.after m next = next a m' := by
  rw [after, h]

theorem mem_after {x : β} :
    x ∈ act.after m next ↔ ∃ a m', act m = .ok a m' ∧ x ∈ next a m' := by
  constructor
  · intro h
    cases hact : act m with
    | ok a m' => exact ⟨a, m', rfl, by rwa [after_of_ok hact] at h⟩
    | error f m' => simp [after, hact] at h
  · rintro ⟨a, m', hact, h⟩
    rwa [after_of_ok hact]

end Run

namespace Point

open Eval (evaluate evaluateAll execute)

/-- The parts that the evaluation at a point comes to, in order. -/
def parts (rounds : Nat) : Point → List Point
  | ⟨.expression (room + 1) (.grouping e), m, P⟩ => [⟨.expression room e, m, P⟩]
  | ⟨.expression (room + 2) (.unary _ e), m, P⟩ => [⟨.expression room e, m, P⟩]
  | ⟨.expression (room + 2) (.binary left _ right), m, P⟩ =>
    ⟨.expression room left, m, P⟩ :: (evaluate rounds room left).after m fun _ m₁ =>
      [⟨.expression room right, m₁, P⟩]
  | ⟨.expression (room + 2) (.logical left operator right), m, P⟩ =>
    ⟨.expression room left, m, P⟩ :: (evaluate rounds room left).after m fun u m₁ =>
      if Eval.decides operator u then [] else [⟨.expression room right, m₁, P⟩]
  | ⟨.expression (room + 1) (.ternary condition a b), m, P⟩ =>
    ⟨.expression room condition, m, P⟩ :: (evaluate rounds room condition).after m fun u m₁ =>
      [⟨.expression room (if u.truthy then a else b), m₁, P⟩]
  | ⟨.expression (room + 2) (.assign _ _ e), m, P⟩ => [⟨.expression room e, m, P⟩]
  | ⟨.expression (room + 3) (.call e _ es), m, P⟩ =>
    ⟨.expression (room + 1) e, m, P⟩ :: (evaluate rounds (room + 1) e).after m fun u m₁ =>
      ⟨.expressions room es, m₁, P⟩ :: (evaluateAll (evaluate rounds room) es).after m₁ fun vs m₂ =>
        match u with
        | .function f => if vs.length = f.arity then [⟨.call (room + 1) f vs, m₂, P⟩] else []
        | _ => []
  | ⟨.expressions room (e :: es), m, P⟩ =>
    ⟨.expression room e, m, P⟩ :: (evaluate rounds room e).after m fun _ m₁ =>
      [⟨.expressions room es, m₁, P⟩]
  | ⟨.call (room + 2) (.closure c) vs, m, P⟩ =>
    [⟨.statements room c.body,
      { m with store := m.store.frame c.scope c.parameters vs, scope := m.store.size }, P⟩]
  | ⟨.statement (room + 1) (.expression e), m, P⟩ => [⟨.expression room e, m, P⟩]
  | ⟨.statement (room + 2) (.block ss), m, P⟩ =>
    [⟨.statements room ss, { m with store := m.store.fork m.scope, scope := m.store.size }, P⟩]
  | ⟨.statement (room + 1) (.ifElse condition a b), m, P⟩ =>
    ⟨.expression room condition, m, P⟩ :: (evaluate rounds room condition).after m fun u m₁ =>
      if u.truthy then [⟨.statement room a, m₁, P⟩]
      else b.toList.map fun b => ⟨.statement room b, m₁, P⟩
  | ⟨.statement (room + 1) (.print e), m, P⟩ => [⟨.expression room e, m, P⟩]
  | ⟨.statement (room + 1) (.return _ (some e)), m, P⟩ => [⟨.expression room e, m, P⟩]
  | ⟨.statement (room + 1) (.var name (some e)), m, P⟩ =>
    [⟨.expression room e, m, (m.scope, name.lexeme) :: P⟩]
  | ⟨.statement (room + 1) (.while condition body), m, P⟩ =>
    [⟨.loop room rounds condition body, m, P⟩]
  | ⟨.statements room (s :: ss), m, P⟩ =>
    ⟨.statement room s, m, P⟩ :: (execute rounds room s).after m fun
      | .normal, m₁ => [⟨.statements room ss, m₁, P⟩]
      | .returned _, _ => []
  | ⟨.loop room (n + 1) condition body, m, P⟩ =>
    ⟨.expression room condition, m, P⟩ :: (evaluate rounds room condition).after m fun u m₁ =>
      if u.truthy then
        ⟨.statement room body, m₁, P⟩ :: (execute rounds room body).after m₁ fun
          | .normal, m₂ => [⟨.loop room n condition body, m₂, P⟩]
          | .returned _, _ => []
      else []
  | _ => []

variable {rounds : Nat} {p q : Point}

theorem Enters.mem_parts (h : p.Enters rounds q) : q ∈ p.parts rounds := by
  cases h with
  | binaryRight hl => exact .tail _ (Run.mem_after.2 ⟨_, _, hl, by simp⟩)
  | logicalRight hl hd => exact .tail _ (Run.mem_after.2 ⟨_, _, hl, by simp [hd]⟩)
  | ternaryBranch hc => exact .tail _ (Run.mem_after.2 ⟨_, _, hc, by simp⟩)
  | arguments hc => exact .tail _ (Run.mem_after.2 ⟨_, _, hc, .head _⟩)
  | call hc ha hlen =>
    refine .tail _ (Run.mem_after.2 ⟨_, _, hc, .tail _ (Run.mem_after.2 ⟨_, _, ha, ?_⟩)⟩)
    simp [hlen]
  | nextExpressions he => exact .tail _ (Run.mem_after.2 ⟨_, _, he, by simp⟩)
  | functionBody ho =>
    cases ho
    exact .head _
  | thenBranch hc ht => exact .tail _ (Run.mem_after.2 ⟨_, _, hc, by simp [ht]⟩)
  | elseBranch hc ht => exact .tail _ (Run.mem_after.2 ⟨_, _, hc, by simp [ht]⟩)
  | loopBody hc ht => exact .tail _ (Run.mem_after.2 ⟨_, _, hc, by simp [ht]⟩)
  | nextRound hc ht hb =>
    refine .tail _ (Run.mem_after.2 ⟨_, _, hc, ?_⟩)
    rw [if_pos ht]
    exact .tail _ (Run.mem_after.2 ⟨_, _, hb, by simp⟩)
  | nextStatements hs => exact .tail _ (Run.mem_after.2 ⟨_, _, hs, by simp⟩)
  | _ => exact .head _

/-- The cases are those of the definition, in its order. -/
theorem enters_of_mem_parts (h : q ∈ p.parts rounds) : p.Enters rounds q := by
  unfold parts at h
  split at h
  · obtain rfl := List.mem_singleton.1 h
    exact .grouping
  · obtain rfl := List.mem_singleton.1 h
    exact .operand
  · obtain rfl | h := List.mem_cons.1 h
    · exact .binaryLeft
    obtain ⟨u, m₁, hl, h⟩ := Run.mem_after.1 h
    obtain rfl := List.mem_singleton.1 h
    exact .binaryRight hl
  · obtain rfl | h := List.mem_cons.1 h
    · exact .logicalLeft
    obtain ⟨u, m₁, hl, h⟩ := Run.mem_after.1 h
    obtain ⟨hd, rfl⟩ : ¬ Eval.decides _ u = true ∧ q = _ := by simpa using h
    exact .logicalRight hl (Bool.eq_false_iff.2 hd)
  · obtain rfl | h := List.mem_cons.1 h
    · exact .ternaryCondition
    obtain ⟨u, m₁, hc, h⟩ := Run.mem_after.1 h
    obtain rfl := List.mem_singleton.1 h
    exact .ternaryBranch hc
  · obtain rfl := List.mem_singleton.1 h
    exact .assigned
  · obtain rfl | h := List.mem_cons.1 h
    · exact .callee
    obtain ⟨u, m₁, hc, h⟩ := Run.mem_after.1 h
    obtain rfl | h := List.mem_cons.1 h
    · exact .arguments hc
    obtain ⟨vs, m₂, ha, h⟩ := Run.mem_after.1 h
    cases u with
    | function f =>
      obtain ⟨hlen, rfl⟩ : vs.length = f.arity ∧ q = _ := by simpa using h
      exact .call hc ha hlen
    | _ => cases h
  · obtain rfl | h := List.mem_cons.1 h
    · exact .firstExpression
    obtain ⟨u, m₁, he, h⟩ := Run.mem_after.1 h
    obtain rfl := List.mem_singleton.1 h
    exact .nextExpressions he
  · obtain rfl := List.mem_singleton.1 h
    exact .functionBody rfl
  · obtain rfl := List.mem_singleton.1 h
    exact .expression
  · obtain rfl := List.mem_singleton.1 h
    exact .blockBody
  · obtain rfl | h := List.mem_cons.1 h
    · exact .ifCondition
    obtain ⟨u, m₁, hc, h⟩ := Run.mem_after.1 h
    split at h
    · next ht =>
      obtain rfl := List.mem_singleton.1 h
      exact .thenBranch hc ht
    · next ht =>
      obtain ⟨b, hb, rfl⟩ := List.mem_map.1 h
      obtain rfl := Option.mem_toList.1 hb
      exact .elseBranch hc (Bool.eq_false_iff.2 ht)
  · obtain rfl := List.mem_singleton.1 h
    exact .printed
  · obtain rfl := List.mem_singleton.1 h
    exact .returned
  · obtain rfl := List.mem_singleton.1 h
    exact .initializer
  · obtain rfl := List.mem_singleton.1 h
    exact .loop
  · obtain rfl | h := List.mem_cons.1 h
    · exact .firstStatement
    obtain ⟨c, m₁, hs, h⟩ := Run.mem_after.1 h
    cases c with
    | normal =>
      obtain rfl := List.mem_singleton.1 h
      exact .nextStatements hs
    | returned v => cases h
  · obtain rfl | h := List.mem_cons.1 h
    · exact .loopCondition
    obtain ⟨u, m₁, hc, h⟩ := Run.mem_after.1 h
    split at h
    · next ht =>
      obtain rfl | h := List.mem_cons.1 h
      · exact .loopBody hc ht
      obtain ⟨c, m₂, hb, h⟩ := Run.mem_after.1 h
      cases c with
      | normal =>
        obtain rfl := List.mem_singleton.1 h
        exact .nextRound hc ht hb
      | returned v => cases h
    · cases h
  · cases h

/-- The parts are what the evaluation comes to. -/
theorem mem_parts_iff : q ∈ p.parts rounds ↔ p.Enters rounds q :=
  ⟨enters_of_mem_parts, Enters.mem_parts⟩

end Point
end Lox

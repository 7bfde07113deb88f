import Lox.Eval
import Lox.Proofs.Ending
import Mathlib.Logic.Relation

/-!
# Points of a run

A point of a run is a part of the program that is about to be evaluated, on the machine as it is by
then, with the declarations whose initializers are still being evaluated. `Enters` tells which parts
an evaluation gets to: the first of them at once, and each other one when those before it had
results.

No part is missing: a failure that only the use of a variable makes is made at a use that is a point
of the run.
-/
namespace Lox

/-- What is to be done at a point, with the room that it has. -/
inductive Task where
  | expression (room : Nat) (e : Expr)
  | expressions (room : Nat) (es : List Expr)
  | call (room : Nat) (f : Function) (arguments : List Value)
  | statement (room : Nat) (s : Statement)
  | statements (room : Nat) (ss : List Statement)
  | loop (room rounds : Nat) (condition : Expr) (body : Statement)

/-- A task on a machine. The scopes and names of the declarations that wait for their initializers
are `pending`, latest first. -/
structure Point where
  task : Task
  machine : Machine
  pending : List (ScopeId × String)

namespace Point

/-- The evaluation at a point gets to another point as one of its parts. -/
inductive Enters (rounds : Nat) : Point → Point → Prop where
  | grouping {room e m P} :
    Enters rounds ⟨.expression (room + 1) (.grouping e), m, P⟩ ⟨.expression room e, m, P⟩
  | operand {room operator e m P} :
    Enters rounds ⟨.expression (room + 2) (.unary operator e), m, P⟩ ⟨.expression room e, m, P⟩
  | binaryLeft {room left operator right m P} :
    Enters rounds ⟨.expression (room + 2) (.binary left operator right), m, P⟩
      ⟨.expression room left, m, P⟩
  | binaryRight {room left operator right m P u m₁}
      (hl : Eval.evaluate rounds room left m = .ok u m₁) :
    Enters rounds ⟨.expression (room + 2) (.binary left operator right), m, P⟩
      ⟨.expression room right, m₁, P⟩
  | logicalLeft {room left operator right m P} :
    Enters rounds ⟨.expression (room + 2) (.logical left operator right), m, P⟩
      ⟨.expression room left, m, P⟩
  | logicalRight {room left operator right m P u m₁}
      (hl : Eval.evaluate rounds room left m = .ok u m₁) (hd : Eval.decides operator u = false) :
    Enters rounds ⟨.expression (room + 2) (.logical left operator right), m, P⟩
      ⟨.expression room right, m₁, P⟩
  | ternaryCondition {room condition a b m P} :
    Enters rounds ⟨.expression (room + 1) (.ternary condition a b), m, P⟩
      ⟨.expression room condition, m, P⟩
  | ternaryBranch {room condition a b m P u m₁}
      (hc : Eval.evaluate rounds room condition m = .ok u m₁) :
    Enters rounds ⟨.expression (room + 1) (.ternary condition a b), m, P⟩
      ⟨.expression room (if u.truthy then a else b), m₁, P⟩
  | assigned {room site name e m P} :
    Enters rounds ⟨.expression (room + 2) (.assign site name e), m, P⟩ ⟨.expression room e, m, P⟩
  | callee {room e paren es m P} :
    Enters rounds ⟨.expression (room + 3) (.call e paren es), m, P⟩
      ⟨.expression (room + 1) e, m, P⟩
  | arguments {room e paren es m P u m₁}
      (hc : Eval.evaluate rounds (room + 1) e m = .ok u m₁) :
    Enters rounds ⟨.expression (room + 3) (.call e paren es), m, P⟩ ⟨.expressions room es, m₁, P⟩
  | call {room e paren es m P f m₁ vs m₂}
      (hc : Eval.evaluate rounds (room + 1) e m = .ok (.function f) m₁)
      (ha : Eval.evaluateAll (Eval.evaluate rounds room) es m₁ = .ok vs m₂)
      (hlen : vs.length = f.arity) :
    Enters rounds ⟨.expression (room + 3) (.call e paren es), m, P⟩ ⟨.call (room + 1) f vs, m₂, P⟩
  | firstExpression {room e es m P} :
    Enters rounds ⟨.expressions room (e :: es), m, P⟩ ⟨.expression room e, m, P⟩
  | nextExpressions {room e es m P u m₁} (he : Eval.evaluate rounds room e m = .ok u m₁) :
    Enters rounds ⟨.expressions room (e :: es), m, P⟩ ⟨.expressions room es, m₁, P⟩
  | functionBody {room c vs m P frame m₁}
      (ho : Run.openFrame c.scope c.parameters vs m = .ok frame m₁) :
    Enters rounds ⟨.call (room + 2) (.closure c) vs, m, P⟩
      ⟨.statements room c.body, { m₁ with scope := frame }, P⟩
  | blockBody {room ss m P} :
    Enters rounds ⟨.statement (room + 2) (.block ss), m, P⟩
      ⟨.statements room ss, { m with store := m.store.fork m.scope, scope := m.store.size }, P⟩
  | expression {room e m P} :
    Enters rounds ⟨.statement (room + 1) (.expression e), m, P⟩ ⟨.expression room e, m, P⟩
  | ifCondition {room condition a b m P} :
    Enters rounds ⟨.statement (room + 1) (.ifElse condition a b), m, P⟩
      ⟨.expression room condition, m, P⟩
  | thenBranch {room condition a b m P u m₁}
      (hc : Eval.evaluate rounds room condition m = .ok u m₁) (ht : u.truthy = true) :
    Enters rounds ⟨.statement (room + 1) (.ifElse condition a b), m, P⟩ ⟨.statement room a, m₁, P⟩
  | elseBranch {room condition a b m P u m₁}
      (hc : Eval.evaluate rounds room condition m = .ok u m₁) (ht : u.truthy = false) :
    Enters rounds ⟨.statement (room + 1) (.ifElse condition a (some b)), m, P⟩
      ⟨.statement room b, m₁, P⟩
  | printed {room e m P} :
    Enters rounds ⟨.statement (room + 1) (.print e), m, P⟩ ⟨.expression room e, m, P⟩
  | returned {room keyword e m P} :
    Enters rounds ⟨.statement (room + 1) (.return keyword (some e)), m, P⟩
      ⟨.expression room e, m, P⟩
  | initializer {room name e m P} :
    Enters rounds ⟨.statement (room + 1) (.var name (some e)), m, P⟩
      ⟨.expression room e, m, (m.scope, name.lexeme) :: P⟩
  | loop {room condition body m P} :
    Enters rounds ⟨.statement (room + 1) (.while condition body), m, P⟩
      ⟨.loop room rounds condition body, m, P⟩
  | loopCondition {room n condition body m P} :
    Enters rounds ⟨.loop room (n + 1) condition body, m, P⟩ ⟨.expression room condition, m, P⟩
  | loopBody {room n condition body m P u m₁}
      (hc : Eval.evaluate rounds room condition m = .ok u m₁) (ht : u.truthy = true) :
    Enters rounds ⟨.loop room (n + 1) condition body, m, P⟩ ⟨.statement room body, m₁, P⟩
  | nextRound {room n condition body m P u m₁ m₂}
      (hc : Eval.evaluate rounds room condition m = .ok u m₁) (ht : u.truthy = true)
      (hb : Eval.execute rounds room body m₁ = .ok .normal m₂) :
    Enters rounds ⟨.loop room (n + 1) condition body, m, P⟩ ⟨.loop room n condition body, m₂, P⟩
  | firstStatement {room s ss m P} :
    Enters rounds ⟨.statements room (s :: ss), m, P⟩ ⟨.statement room s, m, P⟩
  | nextStatements {room s ss m P m₁} (hs : Eval.execute rounds room s m = .ok .normal m₁) :
    Enters rounds ⟨.statements room (s :: ss), m, P⟩ ⟨.statements room ss, m₁, P⟩

end Point

/-- A failure that nothing but the use of a variable makes in an evaluation. -/
def Failure.AtUse : Failure → Prop
  | .error ⟨_, .undefinedVariable _⟩ => True
  | .error _ => False
  | .abort a => a = .pastGlobal ∨ a = .missingToken ∨ a = .noFunction

/-- An action fails so. -/
def Fails {α : Type} (act : Run α) (m : Machine) (f : Failure) : Prop := ∃ m', act m = .error f m'

section
variable {α β : Type} {act : Run α} {m : Machine} {f : Failure}

/-- What fails is the first step of a sequence or, when that has a result, the rest. -/
theorem Fails.of_bind {next : α → Run β} (h : Fails (act >>= next) m f) :
    Fails act m f ∨ ∃ a m', act m = .ok a m' ∧ Fails (next a) m' f := by
  obtain ⟨m', h⟩ := h
  cases hact : act m with
  | ok a m₁ => exact .inr ⟨a, m₁, rfl, m', (bind_of_ok hact).symm.trans h⟩
  | error f' m₁ =>
    obtain ⟨rfl, rfl⟩ := EStateM.Result.error.inj ((bind_of_error hact).symm.trans h)
    exact .inl ⟨m₁, hact⟩

theorem Fails.of_guardStack {operator : Token} (hf : f.AtUse)
    (h : Fails (Run.guardStack operator act) m f) : Fails act m f := by
  obtain ⟨m', h⟩ := h
  refine ⟨m', ?_⟩
  unfold Run.guardStack at h
  split at h
  · cases h
    exact hf.elim
  · exact h

theorem ok_of_guardStack {operator : Token} {a : α} {m' : Machine}
    (h : Run.guardStack operator act m = .ok a m') : act m = .ok a m' := by
  unfold Run.guardStack at h
  split at h
  · cases h
  · exact h

theorem Fails.of_within {sc : ScopeId} (h : Fails (Run.within sc act) m f) :
    Fails act { m with scope := sc } f := by
  obtain ⟨m', h⟩ := h
  unfold Run.within at h
  split at h
  · cases h
  · next hact => cases h; exact ⟨_, hact⟩

theorem not_fails_pure (a : α) : ¬ Fails (pure a) m f := nofun

theorem not_fails_abort {a : Abort} (hf : f.AtUse) (ha : ¬ (Failure.abort a).AtUse) :
    ¬ Fails (Run.abort a : Run α) m f := by
  rintro ⟨m', h⟩
  cases h
  exact ha hf

/-- What the stack or the rounds do not suffice for fails otherwise. -/
theorem not_fails_stack (hf : f.AtUse) : ¬ Fails (Run.abort .stackExhausted : Run α) m f :=
  not_fails_abort hf (by rintro (h | h | h) <;> cases h)

theorem not_fails_rounds (hf : f.AtUse) : ¬ Fails (Run.abort .roundsExhausted : Run α) m f :=
  not_fails_abort hf (by rintro (h | h | h) <;> cases h)

theorem not_fails_fail {token : Token} {fault : RuntimeFault} (hf : f.AtUse)
    (h : ∀ x, fault ≠ .undefinedVariable x) : ¬ Fails (Run.fail token fault : Run α) m f := by
  rintro ⟨m', hfail⟩
  cases hfail
  cases fault with
  | undefinedVariable x => exact h x rfl
  | _ => exact hf

theorem not_fails_resultAt {operator : Token} {r : Except RuntimeFault Value} (hf : f.AtUse)
    (h : ∀ x, r ≠ .error (.undefinedVariable x)) : ¬ Fails (Eval.resultAt operator r) m f := by
  cases r with
  | ok v => exact not_fails_pure v
  | error fault => exact not_fails_fail hf fun x hx => h x (by rw [hx])

/-- Operators have other faults. -/
theorem unaryResult_ne_undefined (operator : Token) (v : Value) (x : String) :
    Eval.unaryResult operator v ≠ .error (.undefinedVariable x) := by
  unfold Eval.unaryResult
  repeat' split
  all_goals nofun

theorem binaryResult_ne_undefined (operator : Token) (u v : Value) (x : String) :
    Eval.binaryResult operator u v ≠ .error (.undefinedVariable x) := by
  unfold Eval.binaryResult Eval.plusResult Eval.numericResult
  repeat' split
  all_goals nofun

/-- A use fails at its own name. -/
theorem Fails.of_lookUp {site : Site} {use : Token} (h : Fails (Run.lookUp site use) m f) :
    ∃ fault, f = Run.accessFailure use fault := by
  obtain ⟨m', h⟩ := h
  unfold Run.lookUp at h
  split at h
  · cases h
  · next fault _ => cases h; exact ⟨fault, rfl⟩

theorem Fails.of_assign {site : Site} {use : Token} {v : Value}
    (h : Fails (Run.assign site use v) m f) : ∃ fault, f = Run.accessFailure use fault := by
  obtain ⟨m', h⟩ := h
  unfold Run.assign at h
  split at h
  · cases h
  · next fault _ => cases h; exact ⟨fault, rfl⟩

theorem not_fails_callHost {h : HostFunction} {vs : List Value} (hf : f.AtUse) :
    ¬ Fails (Run.callHost h vs) m f := by
  rintro ⟨m', hfail⟩
  unfold Run.callHost at hfail
  repeat' split at hfail
  all_goals cases hfail
  obtain hf | hf | hf := hf <;> cases hf

end

namespace Point

/-- The task of a point fails so. -/
def FailsAt (rounds : Nat) (f : Failure) (p : Point) : Prop :=
  match p.task with
  | .expression room e => Fails (Eval.evaluate rounds room e) p.machine f
  | .expressions room es =>
    Fails (Eval.evaluateAll (Eval.evaluate rounds room) es) p.machine f
  | .call room g vs => Fails (Eval.invoke rounds room g vs) p.machine f
  | .statement room s => Fails (Eval.execute rounds room s) p.machine f
  | .statements room ss =>
    Fails (Eval.executeAll (Eval.execute rounds room) ss) p.machine f
  | .loop room n condition body =>
    Fails (Eval.repeatWhile (Eval.evaluate rounds room condition) (Eval.execute rounds room body) n)
      p.machine f

/-- The use of a variable at a point fails so. -/
inductive Raises (rounds : Nat) (f : Failure) (site : Site) (token : Token) : Point → Prop where
  | access {room m P} (h : Fails (Run.lookUp site token) m f) :
    Raises rounds f site token ⟨.expression (room + 1) (.access site token), m, P⟩
  | assign {room e m P v m₁} (hv : Eval.evaluate rounds room e m = .ok v m₁)
      (h : Fails (Run.assign site token v) m₁ f) :
    Raises rounds f site token ⟨.expression (room + 2) (.assign site token e), m, P⟩

/-- The use is the one that the failure is about. -/
theorem Raises.exists_fault {rounds : Nat} {f : Failure} {site : Site} {token : Token} {p : Point}
    (h : p.Raises rounds f site token) : ∃ fault, f = Run.accessFailure token fault := by
  cases h with
  | access h => exact h.of_lookUp
  | assign _ h => exact h.of_assign

/-- What fails so is the use of a variable, or a part of it fails so. -/
def FailsInside (rounds : Nat) (f : Failure) (p : Point) : Prop :=
  (∃ site token, p.Raises rounds f site token) ∨ ∃ q, p.Enters rounds q ∧ q.FailsAt rounds f

variable {rounds room : Nat} {f : Failure} {m : Machine} {P : List (ScopeId × String)}

theorem failsInside_expression {e : Expr} (hf : f.AtUse)
    (h : Fails (Eval.evaluate rounds room e) m f) :
    FailsInside rounds f ⟨.expression room e, m, P⟩ := by
  match room, e, h with
  | 0, _, h => exact absurd h (not_fails_stack hf)
  | _ + 1, .literal _, h => exact absurd h (not_fails_pure _)
  | room + 1, .grouping _, h => exact .inr ⟨_, .grouping, h⟩
  | 1, .unary _ _, h => exact absurd h (not_fails_stack hf)
  | room + 2, .unary operator operand, h =>
    obtain h | ⟨v, m₁, -, h⟩ := h.of_bind
    · exact .inr ⟨_, .operand, h.of_guardStack hf⟩
    · exact absurd h (not_fails_resultAt hf (unaryResult_ne_undefined operator v))
  | 1, .binary _ _ _, h => exact absurd h (not_fails_stack hf)
  | room + 2, .binary left operator right, h =>
    obtain h | ⟨u, m₁, hl, h⟩ := h.of_bind
    · exact .inr ⟨_, .binaryLeft, h.of_guardStack hf⟩
    obtain h | ⟨v, m₂, -, h⟩ := h.of_bind
    · exact .inr ⟨_, .binaryRight (ok_of_guardStack hl), h.of_guardStack hf⟩
    · exact absurd h (not_fails_resultAt hf (binaryResult_ne_undefined operator u v))
  | 1, .logical _ _ _, h => exact absurd h (not_fails_stack hf)
  | room + 2, .logical left operator right, h =>
    obtain h | ⟨u, m₁, hl, h⟩ := h.of_bind
    · exact .inr ⟨_, .logicalLeft, h⟩
    cases hd : Eval.decides operator u with
    | true =>
      rw [hd, if_pos rfl] at h
      exact absurd h (not_fails_pure u)
    | false =>
      rw [hd, if_neg Bool.false_ne_true] at h
      exact .inr ⟨_, .logicalRight hl hd, h⟩
  | room + 1, .ternary condition a b, h =>
    obtain h | ⟨u, m₁, hc, h⟩ := h.of_bind
    · exact .inr ⟨_, .ternaryCondition, h⟩
    · refine .inr ⟨_, .ternaryBranch hc, ?_⟩
      cases hu : u.truthy <;> simpa [FailsAt, hu] using h
  | _ + 1, .access site use, h =>
    exact .inl ⟨site, use, .access h⟩
  | 1, .assign _ _ _, h => exact absurd h (not_fails_stack hf)
  | room + 2, .assign site use e, h =>
    obtain h | ⟨v, m₁, hv, h⟩ := h.of_bind
    · exact .inr ⟨_, .assigned, h⟩
    obtain h | ⟨_, _, -, h⟩ := h.of_bind
    · exact .inl ⟨site, use, .assign hv h⟩
    · exact absurd h (not_fails_pure v)
  | 1, .call _ _ _, h => exact absurd h (not_fails_stack hf)
  | 2, .call _ _ _, h => exact absurd h (not_fails_stack hf)
  | room + 3, .call callee paren es, h =>
    obtain h | ⟨v, m₁, hc, h⟩ := h.of_bind
    · exact .inr ⟨_, .callee, h⟩
    obtain h | ⟨vs, m₂, ha, h⟩ := h.of_bind
    · exact .inr ⟨_, .arguments hc, h⟩
    cases v with
    | function f =>
      by_cases hlen : vs.length = f.arity
      · simp only [hlen, if_true] at h
        exact .inr ⟨_, .call hc ha hlen, h.of_guardStack hf⟩
      · simp only [hlen, if_false] at h
        exact absurd h (not_fails_fail hf (by nofun))
    | _ => exact absurd h (not_fails_fail hf (by nofun))
  | _ + 1, .function _ _ _, h => exact absurd h nofun

theorem failsInside_expressions {es : List Expr}
    (h : Fails (Eval.evaluateAll (Eval.evaluate rounds room) es) m f) :
    FailsInside rounds f ⟨.expressions room es, m, P⟩ := by
  cases es with
  | nil => exact absurd h (not_fails_pure _)
  | cons e es =>
    obtain h | ⟨v, m₁, he, h⟩ := h.of_bind
    · exact .inr ⟨_, .firstExpression, h⟩
    obtain h | ⟨vs, m₂, -, h⟩ := h.of_bind
    · exact .inr ⟨_, .nextExpressions he, h⟩
    · exact absurd h (not_fails_pure _)

theorem failsInside_call {g : Function} {vs : List Value} (hf : f.AtUse)
    (h : Fails (Eval.invoke rounds room g vs) m f) :
    FailsInside rounds f ⟨.call room g vs, m, P⟩ := by
  match room, g, h with
  | 0, _, h => exact absurd h (not_fails_stack hf)
  | _ + 1, .host host, h => exact absurd h (not_fails_callHost hf)
  | room + 1, .closure c, h =>
    obtain h | ⟨frame, m₁, ho, h⟩ := h.of_bind
    · exact absurd h nofun
    obtain h | ⟨completion, m₂, -, h⟩ := h.of_bind
    · match room, h with
      | 0, h => exact absurd h (not_fails_stack hf)
      | room + 1, h => exact .inr ⟨_, .functionBody ho, h.of_within⟩
    · cases completion <;> exact absurd h (not_fails_pure _)

theorem failsInside_statement {s : Statement} (hf : f.AtUse)
    (h : Fails (Eval.execute rounds room s) m f) :
    FailsInside rounds f ⟨.statement room s, m, P⟩ := by
  match room, s, h with
  | 0, _, h => exact absurd h (not_fails_stack hf)
  | 1, .block _, h => exact absurd h (not_fails_stack hf)
  | room + 2, .block ss, h => exact .inr ⟨_, .blockBody, h.of_within⟩
  | room + 1, .expression e, h =>
    obtain h | ⟨v, m₁, -, h⟩ := h.of_bind
    · exact .inr ⟨_, .expression, h⟩
    · exact absurd h (not_fails_pure _)
  | room + 1, .function _ _ _, h => exact absurd h nofun
  | room + 1, .ifElse condition a b, h =>
    obtain h | ⟨u, m₁, hc, h⟩ := h.of_bind
    · exact .inr ⟨_, .ifCondition, h⟩
    cases hu : u.truthy with
    | true =>
      rw [hu, if_pos rfl] at h
      exact .inr ⟨_, .thenBranch hc hu, h⟩
    | false =>
      rw [hu, if_neg Bool.false_ne_true] at h
      cases b with
      | none => exact absurd h (not_fails_pure _)
      | some b => exact .inr ⟨_, .elseBranch hc hu, h⟩
  | room + 1, .print e, h =>
    obtain h | ⟨v, m₁, -, h⟩ := h.of_bind
    · exact .inr ⟨_, .printed, h⟩
    · exact absurd h nofun
  | room + 1, .return _ none, h => exact absurd h (not_fails_pure _)
  | room + 1, .return _ (some e), h =>
    obtain h | ⟨v, m₁, -, h⟩ := h.of_bind
    · exact .inr ⟨_, .returned, h⟩
    · exact absurd h (not_fails_pure _)
  | room + 1, .var _ none, h => exact absurd h nofun
  | room + 1, .var _ (some e), h =>
    obtain h | ⟨v, m₁, -, h⟩ := h.of_bind
    · exact .inr ⟨_, .initializer, h⟩
    · exact absurd h nofun
  | room + 1, .while condition body, h => exact .inr ⟨_, .loop, h⟩

theorem failsInside_statements {ss : List Statement}
    (h : Fails (Eval.executeAll (Eval.execute rounds room) ss) m f) :
    FailsInside rounds f ⟨.statements room ss, m, P⟩ := by
  cases ss with
  | nil => exact absurd h (not_fails_pure _)
  | cons s ss =>
    obtain h | ⟨completion, m₁, hs, h⟩ := h.of_bind
    · exact .inr ⟨_, .firstStatement, h⟩
    cases completion with
    | normal => exact .inr ⟨_, .nextStatements hs, h⟩
    | returned v => exact absurd h (not_fails_pure _)

theorem failsInside_loop {n : Nat} {condition : Expr} {body : Statement} (hf : f.AtUse)
    (h : Fails (Eval.repeatWhile (Eval.evaluate rounds room condition)
      (Eval.execute rounds room body) n) m f) :
    FailsInside rounds f ⟨.loop room n condition body, m, P⟩ := by
  cases n with
  | zero => exact absurd h (not_fails_rounds hf)
  | succ n =>
    obtain h | ⟨u, m₁, hc, h⟩ := h.of_bind
    · exact .inr ⟨_, .loopCondition, h⟩
    cases hu : u.truthy with
    | false =>
      rw [hu, if_neg Bool.false_ne_true] at h
      exact absurd h (not_fails_pure _)
    | true =>
      rw [hu, if_pos rfl] at h
      obtain h | ⟨completion, m₂, hb, h⟩ := h.of_bind
      · exact .inr ⟨_, .loopBody hc hu, h⟩
      cases completion with
      | normal => exact .inr ⟨_, .nextRound hc hu hb, h⟩
      | returned v => exact absurd h (not_fails_pure _)

theorem FailsAt.inside {p : Point} (hf : f.AtUse) (h : p.FailsAt rounds f) :
    FailsInside rounds f p := by
  obtain ⟨task, m, P⟩ := p
  cases task with
  | expression => exact failsInside_expression hf h
  | expressions => exact failsInside_expressions h
  | call => exact failsInside_call hf h
  | statement => exact failsInside_statement hf h
  | statements => exact failsInside_statements h
  | loop => exact failsInside_loop hf h

/-- What a task has left: its room, and then the length of its list or the rounds of its loop. -/
def left (p : Point) : Nat × Nat :=
  match p.task with
  | .expression room _ => (room, 0)
  | .expressions room es => (room, es.length)
  | .call room _ _ => (room, 0)
  | .statement room _ => (room, 0)
  | .statements room ss => (room, ss.length)
  | .loop room n _ _ => (room, n)

/-- A part of an evaluation has less left. -/
theorem Enters.left_lt {p q : Point} (h : p.Enters rounds q) :
    q.left.1 < p.left.1 ∨ q.left.1 = p.left.1 ∧ q.left.2 < p.left.2 := by
  cases h <;> simp [left]

/-- Such a failure is made by a use at a point of the run. -/
theorem FailsAt.exists_raises {p : Point} (hf : f.AtUse) (h : p.FailsAt rounds f) :
    ∃ q site token, Relation.ReflTransGen (Enters rounds) p q ∧ q.Raises rounds f site token := by
  obtain ⟨site, token, hraises⟩ | ⟨q, henters, hq⟩ := h.inside hf
  · exact ⟨p, site, token, .refl, hraises⟩
  · obtain ⟨r, site, token, hr, hraises⟩ := hq.exists_raises hf
    exact ⟨r, site, token, .head henters hr, hraises⟩
termination_by p.left
decreasing_by exact Prod.lex_def.2 henters.left_lt

end Point

end Lox

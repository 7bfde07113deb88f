import Lox.Proofs.Evaluation.Outlasting
import Lox.Proofs.Scoping.Points

/-!
# Where the stack is exhausted

A point of a run is exhausted if it has less stack than its task takes for itself. A `Path` leads
from a point through the parts of its evaluation, and notes the operators and calls on its way that
turn an exhausted stack into an error: a unary or binary operator around its operands, and a call
around the run of its function. The innermost of them says at which token the error is; without any
of them the whole evaluation is stopped. And an evaluation that fails so has a path to an exhausted
point.
-/
namespace Lox

namespace Fails

variable {α β : Type} {act : Run α} {next : α → Run β} {m m₁ : Machine} {f : Failure}

theorem bind (h : Fails act m f) : Fails (act >>= next) m f := by
  obtain ⟨m', h⟩ := h
  exact ⟨m', bind_of_error h⟩

theorem behind {a : α} (hok : act m = .ok a m₁) (h : Fails (next a) m₁ f) :
    Fails (act >>= next) m f := by
  obtain ⟨m', h⟩ := h
  exact ⟨m', (bind_of_ok hok).trans h⟩

theorem guardStack (h : Fails act m f) (token : Token) :
    Fails (Run.guardStack token act) m (f.guarded token) := by
  obtain ⟨m', h⟩ := h
  exact ⟨m', Run.guardStack_of_error h⟩

theorem exists_guarded {token : Token} (h : Fails (Run.guardStack token act) m f) :
    ∃ f', Fails act m f' ∧ f = f'.guarded token := by
  obtain ⟨m', h⟩ := h
  cases hact : act m with
  | ok a m₁ => cases (Run.guardStack_of_ok hact).symm.trans h
  | error f' m₁ =>
    cases (Run.guardStack_of_error hact).symm.trans h
    exact ⟨f', ⟨_, hact⟩, rfl⟩

theorem within {sc : ScopeId} (h : Fails act { m with scope := sc } f) :
    Fails (Run.within sc act) m f := by
  obtain ⟨m', h⟩ := h
  exact ⟨{ m' with scope := m.scope }, by simp only [Run.within, h]⟩

theorem unique {f' : Failure} (h : Fails act m f) (h' : Fails act m f') : f = f' := by
  obtain ⟨m₁, h⟩ := h
  obtain ⟨m₂, h'⟩ := h'
  cases h.symm.trans h'
  rfl

end Fails

namespace Failure

/-- What a failure becomes behind an operator or a call that may be there. -/
def caught (f : Failure) : Option Token → Failure
  | none => f
  | some token => f.guarded token

/-- What an exhausted stack becomes behind these operators and calls, the outermost first. -/
def exhaustion (guards : List Token) : Failure :=
  match guards.getLast? with
  | none => .abort .stackExhausted
  | some token => .error ⟨token, .stackOverflow⟩

/-- Only the innermost of them makes a difference. -/
theorem caught_exhaustion (guards : List Token) (guard : Option Token) :
    (exhaustion guards).caught guard = exhaustion (guard.toList ++ guards) := by
  cases guard with
  | none => rfl
  | some token =>
    cases guards with
    | nil => rfl
    | cons inner rest =>
      simp only [exhaustion, Option.toList_some, List.singleton_append, List.getLast?_cons_cons]
      cases h : (inner :: rest).getLast? with
      | none => simp at h
      | some last => rfl

/-- What is still a failure of the stack behind a guard was one before. -/
theorem OfStack.of_guarded {f : Failure} {token : Token} (h : (f.guarded token).OfStack) :
    f.OfStack := by
  cases f with
  | error e => exact h
  | abort a => cases a <;> trivial

theorem exhaustion_eq_abort_iff (guards : List Token) :
    exhaustion guards = .abort .stackExhausted ↔ guards = [] := by
  cases guards with
  | nil => simp [exhaustion]
  | cons token rest =>
    simp only [exhaustion, reduceCtorEq, iff_false]
    cases h : (token :: rest).getLast? with
    | none => simp at h
    | some last => simp

end Failure

section
variable {α : Type} {f : Failure} {m : Machine}

theorem not_fails_of_ok {act : Run α} {a : α} {m' : Machine} (hok : act m = .ok a m') :
    ¬ Fails act m f := by
  rintro ⟨m₁, h⟩
  cases hok.symm.trans h

/-- No other fault is a failure of the stack. -/
theorem not_fails_of_fault (hf : f.OfStack) {token : Token} {fault : RuntimeFault}
    (h : fault ≠ .stackOverflow) : ¬ Fails (Run.fail token fault : Run α) m f := by
  rintro ⟨m', hfail⟩
  cases hfail
  exact h hf

theorem not_fails_of_abort (hf : f.OfStack) {a : Abort} (h : a ≠ .stackExhausted) :
    ¬ Fails (Run.abort a : Run α) m f := by
  rintro ⟨m', hfail⟩
  cases hfail
  cases a with
  | stackExhausted => exact h rfl
  | _ => exact hf

theorem not_fails_of_result (hf : f.OfStack) {operator : Token} {r : Except RuntimeFault Value}
    (h : r ≠ .error .stackOverflow) : ¬ Fails (Eval.resultAt operator r) m f := by
  cases r with
  | ok v => exact not_fails_pure v
  | error fault => exact not_fails_of_fault hf fun heq => h (by rw [heq])

theorem not_ofStack_accessFailure (token : Token) (fault : AccessFault) :
    ¬ (Run.accessFailure token fault).OfStack := by
  cases fault with
  | undefined => exact fun h => RuntimeFault.noConfusion h
  | pastGlobal => exact id

theorem unaryResult_ne_overflow (operator : Token) (v : Value) :
    Eval.unaryResult operator v ≠ .error .stackOverflow := by
  unfold Eval.unaryResult
  repeat' split
  all_goals nofun

theorem binaryResult_ne_overflow (operator : Token) (u v : Value) :
    Eval.binaryResult operator u v ≠ .error .stackOverflow := by
  unfold Eval.binaryResult Eval.plusResult Eval.numericResult
  repeat' split
  all_goals nofun

theorem not_fails_host (hf : f.OfStack) {h : HostFunction} {vs : List Value} :
    ¬ Fails (Run.callHost h vs) m f := by
  rintro ⟨m', hfail⟩
  unfold Run.callHost at hfail
  repeat' split at hfail
  all_goals cases hfail
  exact hf

end

namespace Task

/-- The stack that a task has. -/
def room : Task → Nat
  | .expression room _ | .expressions room _ | .call room _ _ => room
  | .statement room _ | .statements room _ | .loop room _ _ _ => room

/-- The stack that a task takes for itself, before any of its parts begins. -/
def own : Task → Nat
  | .expression _ (.unary _ _) | .expression _ (.binary _ _ _) => 2
  | .expression _ (.logical _ _ _) | .expression _ (.assign _ _ _) => 2
  | .expression _ (.call _ _ _) => 3
  | .expression _ _ => 1
  | .call _ (.closure _) _ => 2
  | .call _ (.host _) _ => 1
  | .statement _ (.block _) => 2
  | .statement _ _ => 1
  | .expressions _ _ | .statements _ _ | .loop _ _ _ _ => 0

end Task

namespace Point

variable {rounds room : Nat} {p q r : Point} {f : Failure} {m : Machine}
  {P : List (ScopeId × String)}

/-- The stack does not even suffice for the task itself. -/
def Exhausted (p : Point) : Prop := p.task.room < p.task.own

/-- The token of an operator around its operand, or of a call around the run of its function. -/
def guard? (p q : Point) : Option Token :=
  match p.task, q.task with
  | .expression _ (.unary operator _), _ => some operator
  | .expression _ (.binary _ operator _), _ => some operator
  | .expression _ (.call _ paren _), .call _ _ _ => some paren
  | _, _ => none

/-- A point fails in one way. -/
theorem FailsAt.unique {f' : Failure} (h : p.FailsAt rounds f) (h' : p.FailsAt rounds f') :
    f = f' := by
  obtain ⟨task, m, P⟩ := p
  cases task <;> exact Fails.unique h h'

theorem fails_evaluate_zero (e : Expr) :
    Fails (Eval.evaluate rounds 0 e) m (.abort .stackExhausted) := ⟨m, rfl⟩

theorem fails_of_expression {e : Expr} (h : room < Task.own (.expression room e)) :
    Fails (Eval.evaluate rounds room e) m (.abort .stackExhausted) := by
  cases room with
  | zero => exact fails_evaluate_zero e
  | succ room =>
    cases e with
    | unary | binary | logical | assign =>
      obtain rfl : room = 0 := Nat.lt_one_iff.1 (Nat.lt_of_succ_lt_succ h)
      exact ⟨m, rfl⟩
    | call =>
      obtain rfl | rfl : room = 0 ∨ room = 1 := by
        have : room + 1 < 3 := h
        omega
      · exact ⟨m, rfl⟩
      · exact ⟨m, rfl⟩
    | _ => exact absurd h (by simp [Task.own])

theorem fails_of_call {g : Function} {vs : List Value} (h : room < Task.own (.call room g vs)) :
    Fails (Eval.invoke rounds room g vs) m (.abort .stackExhausted) := by
  cases room with
  | zero => exact ⟨m, rfl⟩
  | succ room =>
    cases g with
    | host g => exact absurd h (by simp [Task.own])
    | closure c =>
      obtain rfl : room = 0 := Nat.lt_one_iff.1 (Nat.lt_of_succ_lt_succ h)
      exact ⟨_, rfl⟩

theorem fails_of_statement {s : Statement} (h : room < Task.own (.statement room s)) :
    Fails (Eval.execute rounds room s) m (.abort .stackExhausted) := by
  cases room with
  | zero => exact ⟨m, rfl⟩
  | succ room =>
    cases s with
    | block ss =>
      obtain rfl : room = 0 := Nat.lt_one_iff.1 (Nat.lt_of_succ_lt_succ h)
      exact ⟨_, rfl⟩
    | _ => exact absurd h (by simp [Task.own])

/-- An exhausted point is stopped. -/
theorem Exhausted.failsAt (h : p.Exhausted) : p.FailsAt rounds (.abort .stackExhausted) := by
  obtain ⟨task, m, P⟩ := p
  cases task with
  | expression => exact fails_of_expression h
  | call => exact fails_of_call h
  | statement => exact fails_of_statement h
  | expressions | statements | loop => exact absurd h (Nat.not_lt_zero _)

/-- The failure of a part is the failure of the whole, as far as it is not caught. -/
theorem Enters.fails (h : p.Enters rounds q) (hq : q.FailsAt rounds f) :
    p.FailsAt rounds (f.caught (p.guard? q)) := by
  cases h with
  | grouping => exact hq
  | operand => exact (hq.guardStack _).bind
  | binaryLeft => exact (hq.guardStack _).bind
  | binaryRight hl => exact ((hq.guardStack _).bind).behind (Run.guardStack_of_ok hl)
  | logicalLeft => exact hq.bind
  | logicalRight hl hd =>
    refine Fails.behind hl ?_
    rw [hd, if_neg Bool.false_ne_true]
    exact hq
  | ternaryCondition => exact hq.bind
  | @ternaryBranch _ _ _ _ _ _ u _ hc =>
    refine Fails.behind hc ?_
    split
    · next hu =>
      rw [if_pos hu] at hq
      exact hq
    · next hu =>
      rw [if_neg hu] at hq
      exact hq
  | assigned => exact hq.bind
  | callee => exact hq.bind
  | arguments hc => exact hq.bind.behind hc
  | call hc ha hlen =>
    refine Fails.behind hc (Fails.behind ha ?_)
    simp only [hlen, if_true]
    exact hq.guardStack _
  | firstExpression => exact hq.bind
  | nextExpressions he => exact hq.bind.behind he
  | functionBody ho => exact Fails.behind ho hq.within.bind
  | @blockBody room ss m P =>
    have hblock : Fails (Eval.block rounds (room + 1) m.store.size ss)
        { m with store := m.store.fork m.scope } f := Fails.within hq
    exact hblock
  | expression => exact hq.bind
  | ifCondition => exact hq.bind
  | thenBranch hc ht =>
    refine Fails.behind hc ?_
    rw [ht, if_pos rfl]
    exact hq
  | elseBranch hc ht =>
    refine Fails.behind hc ?_
    rw [ht, if_neg Bool.false_ne_true]
    exact hq
  | printed => exact hq.bind
  | returned => exact hq.bind
  | initializer => exact hq.bind
  | loop => exact hq
  | loopCondition => exact hq.bind
  | loopBody hc ht =>
    refine Fails.behind hc ?_
    rw [ht, if_pos rfl]
    exact hq.bind
  | nextRound hc ht hb =>
    refine Fails.behind hc ?_
    rw [ht, if_pos rfl]
    exact Fails.behind hb hq
  | firstStatement => exact hq.bind
  | nextStatements hs => exact Fails.behind hs hq

/-- The point itself is exhausted, or a part of its evaluation fails so that this becomes of it. -/
def ExhaustedInside (rounds : Nat) (f : Failure) (p : Point) : Prop :=
  p.Exhausted ∧ f = .abort .stackExhausted ∨
    ∃ q f', p.Enters rounds q ∧ q.FailsAt rounds f' ∧ f'.OfStack ∧ f = f'.caught (p.guard? q)

/-- A point without stack for its task fails in no other way. -/
theorem ExhaustedInside.of_exhausted (h : p.Exhausted) (hp : p.FailsAt rounds f) :
    ExhaustedInside rounds f p := by
  refine .inl ⟨h, ?_⟩
  exact hp.unique h.failsAt

/-- A part fails, and nothing catches it. -/
theorem ExhaustedInside.part (hf : f.OfStack) (h : p.Enters rounds q)
    (hq : q.FailsAt rounds f) (hguard : p.guard? q = none := by rfl) :
    ExhaustedInside rounds f p :=
  .inr ⟨q, f, h, hq, hf, by rw [hguard]; rfl⟩

/-- A part fails and is caught at a token. -/
theorem ExhaustedInside.guarded {α : Type} {act : Run α} {token : Token} {m : Machine}
    (hf : f.OfStack) (hfails : Fails (Run.guardStack token act) m f) (h : p.Enters rounds q)
    (hq : ∀ f', Fails act m f' → q.FailsAt rounds f')
    (hguard : p.guard? q = some token := by rfl) : ExhaustedInside rounds f p := by
  obtain ⟨f', hact, rfl⟩ := hfails.exists_guarded
  exact .inr ⟨q, f', h, hq f' hact, hf.of_guarded, by rw [hguard]; rfl⟩

theorem own_expression_pos (room : Nat) (e : Expr) : 0 < Task.own (.expression room e) := by
  cases e <;> exact Nat.succ_pos _

theorem own_call_pos (room : Nat) (g : Function) (vs : List Value) :
    0 < Task.own (.call room g vs) := by
  cases g <;> exact Nat.succ_pos _

theorem own_statement_pos (room : Nat) (s : Statement) : 0 < Task.own (.statement room s) := by
  cases s <;> exact Nat.succ_pos _

theorem exhaustedInside_expression {e : Expr} (hf : f.OfStack)
    (h : Fails (Eval.evaluate rounds room e) m f) :
    ExhaustedInside rounds f ⟨.expression room e, m, P⟩ := by
  match room, e, h with
  | 0, e, h => exact .of_exhausted (own_expression_pos 0 e) h
  | 1, .unary _ _, h | 1, .binary _ _ _, h | 1, .logical _ _ _, h | 1, .assign _ _ _, h =>
    exact .of_exhausted (Nat.lt_succ_self 1) h
  | 1, .call _ _ _, h => exact .of_exhausted (Nat.lt_of_sub_eq_succ rfl) h
  | 2, .call _ _ _, h => exact .of_exhausted (Nat.lt_succ_self 2) h
  | _ + 1, .literal _, h => exact absurd h (not_fails_pure _)
  | _ + 1, .function _ _ _, h => exact absurd h (not_fails_of_ok rfl)
  | _ + 1, .access site use, h =>
    obtain ⟨fault, rfl⟩ := Fails.of_lookUp h
    exact absurd hf (not_ofStack_accessFailure use fault)
  | room + 1, .grouping _, h => exact .part hf .grouping h
  | room + 2, .unary operator operand, h =>
    obtain h | ⟨v, m₁, -, h⟩ := h.of_bind
    · exact .guarded hf h .operand fun _ h' => h'
    · exact absurd h (not_fails_of_result hf (unaryResult_ne_overflow operator v))
  | room + 2, .binary left operator right, h =>
    obtain h | ⟨u, m₁, hl, h⟩ := h.of_bind
    · exact .guarded hf h .binaryLeft fun _ h' => h'
    obtain h | ⟨v, m₂, -, h⟩ := h.of_bind
    · exact .guarded hf h (.binaryRight (ok_of_guardStack hl)) fun _ h' => h'
    · exact absurd h (not_fails_of_result hf (binaryResult_ne_overflow operator u v))
  | room + 2, .logical left operator right, h =>
    obtain h | ⟨u, m₁, hl, h⟩ := h.of_bind
    · exact .part hf .logicalLeft h
    cases hd : Eval.decides operator u with
    | true =>
      rw [hd, if_pos rfl] at h
      exact absurd h (not_fails_pure u)
    | false =>
      rw [hd, if_neg Bool.false_ne_true] at h
      exact .part hf (.logicalRight hl hd) h
  | room + 1, .ternary condition a b, h =>
    obtain h | ⟨u, m₁, hc, h⟩ := h.of_bind
    · exact .part hf .ternaryCondition h
    · refine .part hf (.ternaryBranch hc) ?_
      cases hu : u.truthy <;> simpa [FailsAt, hu] using h
  | room + 2, .assign site use e, h =>
    obtain h | ⟨v, m₁, hv, h⟩ := h.of_bind
    · exact .part hf .assigned h
    obtain h | ⟨_, _, -, h⟩ := h.of_bind
    · obtain ⟨fault, rfl⟩ := h.of_assign
      exact absurd hf (not_ofStack_accessFailure use fault)
    · exact absurd h (not_fails_pure v)
  | room + 3, .call callee paren es, h =>
    obtain h | ⟨v, m₁, hc, h⟩ := h.of_bind
    · exact .part hf .callee h
    obtain h | ⟨vs, m₂, ha, h⟩ := h.of_bind
    · exact .part hf (.arguments hc) h
    cases v with
    | function g =>
      by_cases hlen : vs.length = g.arity
      · simp only [hlen, if_true] at h
        exact .guarded hf h (.call hc ha hlen) fun _ h' => h'
      · simp only [hlen, if_false] at h
        exact absurd h (not_fails_of_fault hf (by simp))
    | _ => exact absurd h (not_fails_of_fault hf (by simp))

theorem exhaustedInside_expressions {es : List Expr} (hf : f.OfStack)
    (h : Fails (Eval.evaluateAll (Eval.evaluate rounds room) es) m f) :
    ExhaustedInside rounds f ⟨.expressions room es, m, P⟩ := by
  cases es with
  | nil => exact absurd h (not_fails_pure _)
  | cons e es =>
    obtain h | ⟨v, m₁, he, h⟩ := h.of_bind
    · exact .part hf .firstExpression h
    obtain h | ⟨vs, m₂, -, h⟩ := h.of_bind
    · exact .part hf (.nextExpressions he) h
    · exact absurd h (not_fails_pure _)

theorem exhaustedInside_call {g : Function} {vs : List Value} (hf : f.OfStack)
    (h : Fails (Eval.invoke rounds room g vs) m f) :
    ExhaustedInside rounds f ⟨.call room g vs, m, P⟩ := by
  match room, g, h with
  | 0, g, h => exact .of_exhausted (own_call_pos 0 g vs) h
  | _ + 1, .host host, h => exact absurd h (not_fails_host hf)
  | 1, .closure c, h => exact .of_exhausted (Nat.lt_succ_self 1) h
  | room + 2, .closure c, h =>
    obtain h | ⟨frame, m₁, ho, h⟩ := h.of_bind
    · exact absurd h (not_fails_of_ok rfl)
    obtain h | ⟨completion, m₂, -, h⟩ := h.of_bind
    · exact .part hf (.functionBody ho) h.of_within
    · cases completion <;> exact absurd h (not_fails_pure _)

theorem exhaustedInside_statement {s : Statement} (hf : f.OfStack)
    (h : Fails (Eval.execute rounds room s) m f) :
    ExhaustedInside rounds f ⟨.statement room s, m, P⟩ := by
  match room, s, h with
  | 0, s, h => exact .of_exhausted (own_statement_pos 0 s) h
  | 1, .block _, h => exact .of_exhausted (Nat.lt_succ_self 1) h
  | room + 2, .block ss, h => exact .part hf .blockBody h.of_within
  | room + 1, .expression e, h =>
    obtain h | ⟨v, m₁, -, h⟩ := h.of_bind
    · exact .part hf .expression h
    · exact absurd h (not_fails_pure _)
  | room + 1, .function _ _ _, h => exact absurd h (not_fails_of_ok rfl)
  | room + 1, .ifElse condition a b, h =>
    obtain h | ⟨u, m₁, hc, h⟩ := h.of_bind
    · exact .part hf .ifCondition h
    cases hu : u.truthy with
    | true =>
      rw [hu, if_pos rfl] at h
      exact .part hf (.thenBranch hc hu) h
    | false =>
      rw [hu, if_neg Bool.false_ne_true] at h
      cases b with
      | none => exact absurd h (not_fails_pure _)
      | some b => exact .part hf (.elseBranch hc hu) h
  | room + 1, .print e, h =>
    obtain h | ⟨v, m₁, -, h⟩ := h.of_bind
    · exact .part hf .printed h
    · exact absurd h (not_fails_of_ok rfl)
  | room + 1, .return _ none, h => exact absurd h (not_fails_pure _)
  | room + 1, .return _ (some e), h =>
    obtain h | ⟨v, m₁, -, h⟩ := h.of_bind
    · exact .part hf .returned h
    · exact absurd h (not_fails_pure _)
  | room + 1, .var _ none, h => exact absurd h (not_fails_of_ok rfl)
  | room + 1, .var _ (some e), h =>
    obtain h | ⟨v, m₁, -, h⟩ := h.of_bind
    · exact .part hf .initializer h
    · exact absurd h (not_fails_of_ok rfl)
  | room + 1, .while condition body, h => exact .part hf .loop h

theorem exhaustedInside_statements {ss : List Statement} (hf : f.OfStack)
    (h : Fails (Eval.executeAll (Eval.execute rounds room) ss) m f) :
    ExhaustedInside rounds f ⟨.statements room ss, m, P⟩ := by
  cases ss with
  | nil => exact absurd h (not_fails_pure _)
  | cons s ss =>
    obtain h | ⟨completion, m₁, hs, h⟩ := h.of_bind
    · exact .part hf .firstStatement h
    cases completion with
    | normal => exact .part hf (.nextStatements hs) h
    | returned v => exact absurd h (not_fails_pure _)

theorem exhaustedInside_loop {n : Nat} {condition : Expr} {body : Statement} (hf : f.OfStack)
    (h : Fails (Eval.repeatWhile (Eval.evaluate rounds room condition)
      (Eval.execute rounds room body) n) m f) :
    ExhaustedInside rounds f ⟨.loop room n condition body, m, P⟩ := by
  cases n with
  | zero => exact absurd h (not_fails_of_abort hf nofun)
  | succ n =>
    obtain h | ⟨u, m₁, hc, h⟩ := h.of_bind
    · exact .part hf .loopCondition h
    cases hu : u.truthy with
    | false =>
      rw [hu, if_neg Bool.false_ne_true] at h
      exact absurd h (not_fails_pure _)
    | true =>
      rw [hu, if_pos rfl] at h
      obtain h | ⟨completion, m₂, hb, h⟩ := h.of_bind
      · exact .part hf (.loopBody hc hu) h
      cases completion with
      | normal => exact .part hf (.nextRound hc hu hb) h
      | returned v => exact absurd h (not_fails_pure _)

theorem FailsAt.exhaustedInside (hf : f.OfStack) (h : p.FailsAt rounds f) :
    ExhaustedInside rounds f p := by
  obtain ⟨task, m, P⟩ := p
  cases task with
  | expression => exact exhaustedInside_expression hf h
  | expressions => exact exhaustedInside_expressions hf h
  | call => exact exhaustedInside_call hf h
  | statement => exact exhaustedInside_statement hf h
  | statements => exact exhaustedInside_statements hf h
  | loop => exact exhaustedInside_loop hf h

/-- From a point through the parts of its evaluation to another, with the operators and calls on the
way that catch an exhausted stack, the outermost first. -/
inductive Path (rounds : Nat) : Point → List Token → Point → Prop where
  | here (p : Point) : Path rounds p [] p
  | inwards {p q r : Point} {guards : List Token} (h : p.Enters rounds q)
    (hpath : Path rounds q guards r) : Path rounds p ((p.guard? q).toList ++ guards) r

/-- Behind the operators and calls on the way, an exhausted stack is a failure of the whole. -/
theorem Path.fails {guards : List Token} (h : p.Path rounds guards q) (hq : q.Exhausted) :
    p.FailsAt rounds (.exhaustion guards) := by
  induction h with
  | here p => exact hq.failsAt
  | inwards h _ ih =>
    rw [← Failure.caught_exhaustion]
    exact h.fails (ih hq)

/-- Every failure of the stack is one at an exhausted point. -/
theorem FailsAt.exists_path {p : Point} {f : Failure} (hf : f.OfStack) (h : p.FailsAt rounds f) :
    ∃ guards q, p.Path rounds guards q ∧ q.Exhausted ∧ f = .exhaustion guards := by
  obtain ⟨hexhausted, rfl⟩ | ⟨q, f', henters, hq, hf', rfl⟩ := h.exhaustedInside hf
  · exact ⟨[], p, .here p, hexhausted, rfl⟩
  · obtain ⟨guards, r, hpath, hr, rfl⟩ := hq.exists_path hf'
    exact ⟨_, r, .inwards henters hpath, hr, Failure.caught_exhaustion guards _⟩
termination_by p.left
decreasing_by exact Prod.lex_def.2 henters.left_lt

theorem Path.trans {guards guards' : List Token} (h : p.Path rounds guards q)
    (h' : q.Path rounds guards' r) : p.Path rounds (guards ++ guards') r := by
  induction h with
  | here p => exact h'
  | inwards henters _ ih =>
    rw [List.append_assoc]
    exact .inwards henters (ih h')

theorem exists_path_of_reaches (h : Relation.ReflTransGen (Enters rounds) p q) :
    ∃ guards, p.Path rounds guards q := by
  induction h with
  | refl => exact ⟨[], .here p⟩
  | tail _ hstep ih =>
    obtain ⟨guards, hpath⟩ := ih
    exact ⟨_, hpath.trans (.inwards hstep (.here _))⟩

end Point

end Lox

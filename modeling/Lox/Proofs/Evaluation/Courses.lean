import Lox.Proofs.Evaluation.Events

/-!
# The course of an evaluation

What happens in an evaluation leads from the store in which it begins to the one that it leaves. An
evaluation opens no scope and stores no value but by its events: it performs its parts one after the
other, and what it does itself happens before the first or behind the last of them.
-/
namespace Lox

open Eval (evaluate evaluateAll invoke execute executeAll repeatWhile)
open Relation (ReflTransGen)

theorem Run.flatMap_after {α β γ : Type} (act : Run α) (m : Machine)
    (next : α → Machine → List β) (f : β → List γ) :
    (act.after m next).flatMap f = act.after m fun a m' => (next a m').flatMap f := by
  unfold after
  split <;> rfl

/-- The events lead from where an action begins to what it leaves. -/
def Does {α : Type} (rounds : Nat) (act : Run α) (m : Machine) (es : List StoreEvent) : Prop :=
  Course rounds m.store es (act.leaves m).store

namespace Does

variable {α β : Type} {rounds : Nat} {act : Run α} {next : α → Run β} {m : Machine}
  {es es' : List StoreEvent} {fs : α → Machine → List StoreEvent}

theorem cast (h : Does rounds act m es) (heq : es = es') : Does rounds act m es' := heq ▸ h

/-- An action that leaves the store as it is. -/
theorem of_ends (h : Ends act m (fun _ m' => m'.store = m.store) fun _ m' => m'.store = m.store) :
    Does rounds act m [] := by
  unfold Does Run.leaves
  unfold Ends at h
  cases hact : act m <;> rw [hact] at h <;> exact h ▸ .nil

theorem bind (h : Does rounds act m es)
    (hn : ∀ a m', act m = .ok a m' → Does rounds (next a) m' (fs a m')) :
    Does rounds (act >>= next) m (es ++ act.after m fs) := by
  unfold Does at *
  cases hact : act m with
  | ok a m' =>
    rw [Run.leaves, hact] at h
    rw [Run.leaves_of_ok hact, Run.after_of_ok hact]
    exact h.append (hn a m' hact)
  | error f m' =>
    rw [Run.leaves, hact] at h
    rw [Run.leaves, bind_of_error hact, Run.after, hact]
    exact h.append .nil

/-- A first step that has a result. -/
theorem bind_of_ok {a : α} {m' : Machine} (hact : act m = .ok a m') (h : Does rounds act m es)
    (hn : Does rounds (next a) m' es') : Does rounds (act >>= next) m (es ++ es') := by
  unfold Does at *
  rw [Run.leaves, hact] at h
  rw [Run.leaves_of_ok hact]
  exact h.append hn

/-- Nothing happens behind the first step. -/
theorem bind_last (h : Does rounds act m es)
    (hn : ∀ a m', act m = .ok a m' → Does rounds (next a) m' []) :
    Does rounds (act >>= next) m es := by
  refine (h.bind hn).cast ?_
  unfold Run.after
  split <;> exact List.append_nil es

theorem guardStack (h : Does rounds act m es) (token : Token) :
    Does rounds (Run.guardStack token act) m es := by
  rwa [Does, Run.leaves_guardStack]

/-- What is behind a guarded step begins where the step ends. -/
theorem bind_guardStack {token : Token} (h : Does rounds act m es)
    (hn : ∀ a m', act m = .ok a m' → Does rounds (next a) m' (fs a m')) :
    Does rounds (Run.guardStack token act >>= next) m (es ++ act.after m fs) := by
  have hguarded := (h.guardStack token).bind fun a m' hok => hn a m' (ok_of_guardStack hok)
  rwa [Run.after_guardStack] at hguarded

theorem within {scope : ScopeId} (h : Does rounds act { m with scope := scope } es) :
    Does rounds (Run.within scope act) m es := by
  unfold Does Run.leaves Run.within at *
  cases hact : act { m with scope := scope } <;> simpa [hact] using h

theorem resultAt (operator : Token) (r : Except RuntimeFault Value) :
    Does rounds (Eval.resultAt operator r) m [] := by
  cases r <;> exact .nil

theorem lookUp (site : Site) (name : Token) : Does rounds (Run.lookUp site name) m [] :=
  of_ends <| (Run.ends_lookUp m site name).imp (fun _ _ h => h ▸ rfl) fun _ _ h => h ▸ rfl

theorem callHost (h : HostFunction) (vs : List Value) :
    Does rounds (Run.callHost h vs) m [] := by
  obtain ⟨identity, name, arity, action⟩ := h
  match action with
  | .clock => exact .nil
  | .give none => exact .nil
  | .give (some i) =>
    unfold Does Run.leaves Run.callHost
    cases hv : vs[i]? <;> simp only [hv] <;> exact .nil

theorem define {name : String} {v : Value} (hscope : m.scope < m.store.size) :
    Does rounds (Run.define name v) m [.stores m.scope name v] :=
  .stores hscope .nil

theorem assign {site : Site} {name : Token} {v : Value} :
    Does rounds (Run.assign site name v) m
      (match Run.holder m site name with
        | .ok id => [.stores id name.lexeme v]
        | .error _ => []) := by
  unfold Does Run.leaves Run.assign
  cases hholder : Run.holder m site name with
  | ok id => exact .stores (m.store.lt_size_of_valueIn? (Run.isSome_of_holder hholder)) .nil
  | error fault => exact .nil

/-- The evaluation of a part, when nothing else happens. -/
theorem part {q : Point} (h : Does rounds act m (q.events rounds)) :
    Does rounds act m ([q].flatMap (Point.events rounds)) :=
  h.cast (by simp)

/-- The evaluation of a part and of those behind it. -/
theorem bind_part {q : Point} {qs : α → Machine → List Point}
    (h : Does rounds act m (q.events rounds))
    (hn : ∀ a m', act m = .ok a m' →
      Does rounds (next a) m' ((qs a m').flatMap (Point.events rounds))) :
    Does rounds (act >>= next) m ((q :: act.after m qs).flatMap (Point.events rounds)) := by
  rw [List.flatMap_cons, Run.flatMap_after]
  exact h.bind hn

/-- A part that is the operand of an operator. -/
theorem bind_operand {q : Point} {qs : α → Machine → List Point} {token : Token}
    (h : Does rounds act m (q.events rounds))
    (hn : ∀ a m', act m = .ok a m' →
      Does rounds (next a) m' ((qs a m').flatMap (Point.events rounds))) :
    Does rounds (Run.guardStack token act >>= next) m
      ((q :: act.after m qs).flatMap (Point.events rounds)) := by
  rw [List.flatMap_cons, Run.flatMap_after]
  exact h.bind_guardStack hn

end Does

namespace Point

/-- What happens in the evaluation at a point leads from its beginning to its end. -/
def Happens (rounds : Nat) (p : Point) : Prop :=
  Course rounds p.machine.store (p.events rounds) (p.leaves rounds).store

/-- An evaluation in which nothing happens behind its parts. -/
theorem happenings_of_closing {rounds : Nat} {p : Point} (hclosing : p.closing rounds = []) :
    p.happenings rounds = p.opening ++ (p.parts rounds).flatMap (events rounds) := by
  rw [happenings, hclosing, List.append_nil]

/-- An evaluation in which nothing happens but its parts. -/
theorem happenings_of_quiet {rounds : Nat} {p : Point} (hopening : p.opening = [])
    (hclosing : p.closing rounds = []) :
    p.happenings rounds = (p.parts rounds).flatMap (events rounds) := by
  rw [happenings_of_closing hclosing, hopening, List.nil_append]

section
variable {rounds room : Nat} {m : Machine} {P : List (ScopeId × String)}

/-- Behind its parts, an expression stores nothing if it is not an assignment. -/
theorem closing_expression {e : Expr}
    (h : ∀ site name value, e ≠ .assign site name value) :
    closing rounds ⟨.expression room e, m, P⟩ = [] := by
  cases e <;> simp_all [closing]

theorem does_assignment {site : Site} {name : Token} {e : Expr}
    (hparts : ∀ q, Enters rounds ⟨.expression room (.assign site name e), m, P⟩ q →
      q.Happens rounds) :
    Does rounds (evaluate rounds room (.assign site name e)) m
      (happenings rounds ⟨.expression room (.assign site name e), m, P⟩) := by
  match room with
  | 0 => exact .nil
  | 1 => exact .nil
  | room + 2 =>
    have he : Does rounds (evaluate rounds room e) m _ := hparts _ .assigned
    rw [happenings, opening, parts, closing, List.nil_append, List.flatMap_singleton]
    exact he.bind fun v m₁ _ => Does.assign.bind_last fun _ m₂ _ => .nil

theorem does_expression {e : Expr}
    (hparts : ∀ q, Enters rounds ⟨.expression room e, m, P⟩ q → q.Happens rounds) :
    Does rounds (evaluate rounds room e) m (happenings rounds ⟨.expression room e, m, P⟩) := by
  by_cases hassign : ∃ site name value, e = .assign site name value
  · obtain ⟨site, name, value, rfl⟩ := hassign
    exact does_assignment hparts
  have hclosing : closing rounds ⟨.expression room e, m, P⟩ = [] :=
    closing_expression fun site name value he => hassign ⟨site, name, value, he⟩
  rw [happenings_of_quiet rfl hclosing]
  match room, e with
  | 0, _ => exact .nil
  | _ + 1, .literal _ => exact .nil
  | room + 1, .grouping e => exact .part (hparts _ .grouping)
  | 1, .unary _ _ => exact .nil
  | room + 2, .unary operator e =>
    have he : Does rounds (evaluate rounds room e) m _ := hparts _ .operand
    exact (he.guardStack operator).part.bind_last fun u m₁ _ => .resultAt _ _
  | 1, .binary _ _ _ => exact .nil
  | room + 2, .binary left operator right =>
    refine .bind_operand (hparts _ .binaryLeft) fun u m₁ hu => ?_
    have hr : Does rounds (evaluate rounds room right) m₁ _ := hparts _ (.binaryRight hu)
    exact (hr.guardStack operator).part.bind_last fun v m₂ _ => .resultAt _ _
  | 1, .logical _ _ _ => exact .nil
  | room + 2, .logical left operator right =>
    refine .bind_part (hparts _ .logicalLeft) fun u m₁ hu => ?_
    split
    · exact .nil
    · next hd => exact .part (hparts _ (.logicalRight hu (Bool.eq_false_iff.2 hd)))
  | room + 1, .ternary condition a b =>
    refine .bind_part (hparts _ .ternaryCondition) fun u m₁ hu => ?_
    have hbranch := hparts _ (.ternaryBranch hu)
    split
    · next ht =>
      rw [if_pos ht] at hbranch
      exact .part hbranch
    · next ht =>
      rw [if_neg ht] at hbranch
      exact .part hbranch
  | _ + 1, .access _ _ => exact .lookUp _ _
  | _, .assign site name e => exact absurd ⟨site, name, e, rfl⟩ hassign
  | 1, .call _ _ _ => exact .nil
  | 2, .call _ _ _ => exact .nil
  | room + 3, .call callee paren es =>
    refine .bind_part (hparts _ .callee) fun u m₁ hu => ?_
    refine .bind_part (hparts _ (.arguments hu)) fun vs m₂ hvs => ?_
    cases u with
    | function f =>
      dsimp only
      split
      · next hlen =>
        have hcall : Does rounds (invoke rounds (room + 1) f vs) m₂ _ :=
          hparts _ (.call hu hvs hlen)
        exact (hcall.guardStack paren).part
      · exact .nil
    | _ => exact .nil
  | _ + 1, .function _ _ _ => exact .nil

theorem does_expressions {es : List Expr}
    (hparts : ∀ q, Enters rounds ⟨.expressions room es, m, P⟩ q → q.Happens rounds) :
    Does rounds (evaluateAll (evaluate rounds room) es) m
      (happenings rounds ⟨.expressions room es, m, P⟩) := by
  rw [happenings_of_quiet rfl rfl]
  cases es with
  | nil => exact .nil
  | cons e es =>
    refine .bind_part (hparts _ .firstExpression) fun v m₁ hv => ?_
    have hrest : Does rounds (evaluateAll (evaluate rounds room) es) m₁ _ :=
      hparts _ (.nextExpressions hv)
    exact hrest.part.bind_last fun vs m₂ _ => .nil

theorem does_call {f : Function} {vs : List Value}
    (hparts : ∀ q, Enters rounds ⟨.call room f vs, m, P⟩ q → q.Happens rounds) :
    Does rounds (invoke rounds room f vs) m (happenings rounds ⟨.call room f vs, m, P⟩) := by
  have hopen (c : Closure) : Does rounds (Run.openFrame c.scope c.parameters vs) m
      (.opens c.scope :: (c.parameters.zip vs).map fun pair =>
        .stores m.store.size pair.1.lexeme pair.2) := .frame rounds m.store c.scope c.parameters vs
  match room, f with
  | 0, _ => exact .nil
  | room + 1, .host h =>
    rw [happenings_of_quiet rfl rfl]
    refine (Does.callHost h vs).cast ?_
    cases room <;> rfl
  | room + 1, .closure c =>
    rw [happenings_of_closing rfl]
    refine (hopen c).bind_of_ok rfl ?_
    cases room with
    | zero => exact .nil
    | succ room =>
      have hbody : Does rounds (Eval.block rounds (room + 1) m.store.size c.body)
          { m with store := m.store.frame c.scope c.parameters vs } _ :=
        .within (hparts _ (.functionBody rfl))
      refine hbody.part.bind_last fun r m₂ _ => ?_
      cases r <;> exact .nil

theorem does_statement {s : Statement} (hscope : m.scope < m.store.size)
    (hparts : ∀ q, Enters rounds ⟨.statement room s, m, P⟩ q → q.Happens rounds) :
    Does rounds (execute rounds room s) m (happenings rounds ⟨.statement room s, m, P⟩) := by
  have hfork : Does rounds (Run.fork m.scope) m [.opens m.scope] := .opens .nil
  match room, s with
  | 0, _ => exact .nil
  | room + 1, .block ss =>
    rw [happenings_of_closing rfl]
    show Does rounds (Run.fork m.scope >>= fun inner => Eval.block rounds room inner ss) m _
    refine hfork.bind_of_ok rfl ?_
    cases room with
    | zero => exact .nil
    | succ room =>
      have hbody : Does rounds (Eval.block rounds (room + 1) m.store.size ss)
          { m with store := m.store.fork m.scope } _ := .within (hparts _ .blockBody)
      exact hbody.part
  | room + 1, .expression e =>
    have he : Does rounds (evaluate rounds room e) m _ := hparts _ .expression
    rw [happenings_of_quiet rfl rfl]
    exact he.part.bind_last fun v m₁ _ => .nil
  | _ + 1, .function name parameters body =>
    exact .cast (.define hscope) rfl
  | room + 1, .ifElse condition a b =>
    rw [happenings_of_quiet rfl rfl]
    refine .bind_part (hparts _ .ifCondition) fun u m₁ hu => ?_
    split
    · next ht => exact .part (hparts _ (.thenBranch hu ht))
    · next ht =>
      cases b with
      | none => exact .nil
      | some b => exact .part (hparts _ (.elseBranch hu (Bool.eq_false_iff.2 ht)))
  | room + 1, .print e =>
    have he : Does rounds (evaluate rounds room e) m _ := hparts _ .printed
    rw [happenings_of_quiet rfl rfl]
    exact he.part.bind_last fun v m₁ _ => .nil
  | _ + 1, .return _ none => exact .nil
  | room + 1, .return _ (some e) =>
    have he : Does rounds (evaluate rounds room e) m _ := hparts _ .returned
    rw [happenings_of_quiet rfl rfl]
    exact he.part.bind_last fun v m₁ _ => .nil
  | _ + 1, .var name none => exact .cast (.define hscope) rfl
  | room + 1, .var name (some e) =>
    have he : Does rounds (evaluate rounds room e) m _ := hparts _ .initializer
    rw [happenings, opening, parts, closing, List.nil_append, List.flatMap_singleton]
    refine he.bind fun v m₁ hv => ?_
    -- Behind the initializer, the scope is the one before it.
    have hl : m.Later m₁ := (goesOn_evaluate rounds room m e).ok hv
    rw [← hl.scope]
    refine Does.bind_last (.define ?_) fun _ m₂ _ => .nil
    rw [hl.scope]
    exact Nat.lt_of_lt_of_le hscope hl.store.size
  | room + 1, .while condition body =>
    rw [happenings_of_quiet rfl rfl]
    exact .part (hparts _ .loop)

theorem does_statements {ss : List Statement}
    (hparts : ∀ q, Enters rounds ⟨.statements room ss, m, P⟩ q → q.Happens rounds) :
    Does rounds (executeAll (execute rounds room) ss) m
      (happenings rounds ⟨.statements room ss, m, P⟩) := by
  rw [happenings_of_quiet rfl rfl]
  cases ss with
  | nil => exact .nil
  | cons s ss =>
    refine .bind_part (hparts _ .firstStatement) fun r m₁ hr => ?_
    cases r with
    | normal => exact .part (hparts _ (.nextStatements hr))
    | returned v => exact .nil

theorem does_loop {n : Nat} {condition : Expr} {body : Statement}
    (hparts : ∀ q, Enters rounds ⟨.loop room n condition body, m, P⟩ q → q.Happens rounds) :
    Does rounds (repeatWhile (evaluate rounds room condition) (execute rounds room body) n) m
      (happenings rounds ⟨.loop room n condition body, m, P⟩) := by
  rw [happenings_of_quiet rfl rfl]
  cases n with
  | zero => exact .nil
  | succ n =>
    refine .bind_part (hparts _ .loopCondition) fun u m₁ hu => ?_
    split
    · next ht =>
      refine .bind_part (hparts _ (.loopBody hu ht)) fun r m₂ hr => ?_
      cases r with
      | normal => exact .part (hparts _ (.nextRound hu ht hr))
      | returned v => exact .nil
    · exact .nil

end

/-- So it is with every evaluation, because it is with its parts. -/
theorem happens (rounds : Nat) (p : Point) (hscope : p.machine.scope < p.machine.store.size) :
    p.Happens rounds := by
  have hparts (q : Point) (hq : p.Enters rounds q) : q.Happens rounds :=
    happens rounds q (hq.scope_lt hscope)
  obtain ⟨task, m, P⟩ := p
  have hhappenings : Course rounds m.store (happenings rounds ⟨task, m, P⟩)
      (leaves rounds ⟨task, m, P⟩).store := by
    cases task with
    | expression => exact does_expression hparts
    | expressions => exact does_expressions hparts
    | call => exact does_call hparts
    | statement => exact does_statement hscope hparts
    | statements => exact does_statements hparts
    | loop => exact does_loop hparts
  rw [Happens, events_eq]
  exact .begins rfl (hhappenings.append (.ends rfl .nil))
termination_by p.left
decreasing_by exact Prod.lex_def.2 hq.left_lt

end Point
end Lox

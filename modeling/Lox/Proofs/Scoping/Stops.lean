import Lox.Proofs.Scoping.Places

/-!
# Where binding comes to code

A pass over code is a sequence of steps: what the pass does itself, and the parts that it binds.
`Node.steps` lists them, and the pass is just this sequence, for a function between entering and
leaving it. A stop is code that a pass is about to bind, with what the pass has found by then. To
every visit of code belongs a stop, at which just the visits before it have been made, and every
stop belongs to a visit.
-/
namespace Lox

open Relation (ReflTransGen)

/-- Code that is a function, declared or written as an expression. -/
def Node.opensFunction : Node → Bool
  | .expression (.function ..) => true
  | .statement (.function ..) => true
  | _ => false

/-- The room that a pass over code takes for itself. -/
def Node.cost (n : Node) : Nat := if n.opensFunction then 2 else 1

/-- The room that a pass over code takes. -/
def Node.depth : Node → Nat
  | .expression e => e.depth
  | .statement s => s.depth

open Binding (Visit)

/-- What a pass over code does itself and the parts that it binds, in order. Whether a `return` is
inside a function depends on where the code stands, and is left open here. -/
def Node.steps : Node → List Visit
  | .expression (.literal _) => []
  | .expression (.grouping inner) => [.expression inner]
  | .expression (.unary _ operand) => [.expression operand]
  | .expression (.binary left _ right) => [.expression left, .expression right]
  | .expression (.logical left _ right) => [.expression left, .expression right]
  | .expression (.ternary condition thenBranch elseBranch) =>
    [.expression condition, .expression thenBranch, .expression elseBranch]
  | .expression (.access site name) => [.use .access site name]
  | .expression (.assign site name value) => [.expression value, .use .assignment site name]
  | .expression (.call callee _ arguments) => .expression callee :: arguments.map .expression
  | .expression (.function _ parameters body) => Visit.function parameters (body.map .statement)
  | .statement (.block statements) => .enter :: (statements.map .statement ++ [.leave])
  | .statement (.expression value) => [.expression value]
  | .statement (.function name parameters body) =>
    .declare name :: .settle name :: Visit.function parameters (body.map .statement)
  | .statement (.ifElse condition thenBranch elseBranch) =>
    .expression condition :: .statement thenBranch :: elseBranch.toList.map .statement
  | .statement (.print value) => [.expression value]
  | .statement (.return keyword value) =>
    .leaveFunction keyword false :: value.toList.map .expression
  | .statement (.var name initializer) =>
    .declare name :: (initializer.toList.map .expression ++ [.settle name])
  | .statement (.while condition body) => [.expression condition, .statement body]

/-- The parts that a pass over a unit binds. -/
def Code.steps : Code → List Visit
  | .program statements => statements.map .statement
  | .expression e => e.toList.map .expression

namespace Binding

/-- What a pass does at a step. -/
def Visit.pass (room : Nat) : Visit → Binder Unit
  | .expression e => Binding.expression room e
  | .statement s => Binding.statement room s
  | .enter => openScope
  | .leave => closeScope
  | .declare name => Binding.declare name
  | .settle name => define name
  | .use .access site name => do
    checkReadable name
    bind .access site name
  | .use .assignment site name => bind .assignment site name
  | .leaveFunction keyword _ => checkReturn keyword

theorem each_append {α : Type} (visit : α → Binder Unit) (xs ys : List α) :
    each visit (xs ++ ys) = (do each visit xs; each visit ys) := by
  induction xs with
  | nil => simp [each]
  | cons x xs ih => simp [each, ih]

theorem each_mapped {α β : Type} (visit : β → Binder Unit) (f : α → β) (xs : List α) :
    each visit (xs.map f) = each (fun x => visit (f x)) xs := by
  induction xs with
  | nil => rfl
  | cons x xs ih => simp [each, ih]

theorem each_parameters (room : Nat) (names : List Token) :
    each (Visit.pass room) (Visit.parameters names) =
      each (fun name => do declare name; define name) names := by
  induction names with
  | nil => rfl
  | cons name names ih =>
    have h : Visit.parameters (name :: names) =
        [.declare name, .settle name] ++ Visit.parameters names := rfl
    rw [h, each_append, ih]
    simp [each, Visit.pass]

theorem each_function (room : Nat) (names : List Token) (body : List Statement) :
    each (Visit.pass room) (Visit.function names (body.map .statement)) =
      functionScope room names body := by
  rw [Visit.function, each, each_append, each_append, each_parameters, each_mapped]
  simp [each, functionScope, Visit.pass]

end Binding

open Binding (Progress Binder walk)

/-- The pass over code. -/
def Node.pass (room : Nat) (n : Node) : Binder Unit := n.visit.pass room

/-- A pass over code that is no function is the sequence of its steps. -/
theorem Node.pass_plain {n : Node} (h : n.opensFunction = false) (room : Nat) :
    n.pass (room + 1) = Binding.each (Visit.pass room) n.steps := by
  cases n with
  | expression e =>
    cases e with
    | function => cases h
    | call callee paren arguments =>
      simp [pass, visit, steps, Visit.pass, Binding.expression, Binding.each, Binding.each_mapped]
    | _ => simp [pass, visit, steps, Visit.pass, Binding.expression, Binding.each]
  | statement s =>
    cases s with
    | function => cases h
    | block ss =>
      simp [pass, visit, steps, Visit.pass, Binding.statement, Binding.each, Binding.each_mapped,
        Binding.each_append]
    | ifElse _ _ b =>
      cases b <;> simp [pass, visit, steps, Visit.pass, Binding.statement, Binding.each]
    | «return» _ e =>
      cases e <;> simp [pass, visit, steps, Visit.pass, Binding.statement, Binding.each]
    | var _ e =>
      cases e <;> simp [pass, visit, steps, Visit.pass, Binding.statement, Binding.each]
    | _ => simp [pass, visit, steps, Visit.pass, Binding.statement, Binding.each]

namespace Binding

/-- The visits of a step, inside a function or not. -/
def Visit.visits (inside : Bool) : Visit → List Visit
  | .expression e => e.visits inside
  | .statement s => s.visits inside
  | .leaveFunction keyword _ => [.leaveFunction keyword inside]
  | v => [v]

/-- There is room enough for a step. -/
def Visit.Fits (room : Nat) : Visit → Prop
  | .expression e => e.depth ≤ room
  | .statement s => s.depth ≤ room
  | _ => True

theorem logs_pass (room : Nat) (v : Visit) :
    Logs (v.pass room) (v.Fits room) fun i => v.visits i := by
  cases v with
  | expression e => exact logs_expression e room
  | statement s => exact logs_statement s room
  | enter => exact logs_openScope
  | leave => exact logs_closeScope
  | declare name => exact logs_declare name
  | settle name => exact logs_define name
  | use kind site name =>
    cases kind with
    | access => exact logs_access site name
    | assignment => exact logs_assignment site name
  | leaveFunction keyword _ => exact logs_checkReturn keyword

theorem logs_steps (room : Nat) (vs : List Visit) :
    Logs (each (Visit.pass room) vs) (∀ v ∈ vs, v.Fits room)
      fun i => vs.flatMap (Visit.visits i) := by
  induction vs with
  | nil => exact logs_pure.cast (by simp) fun _ _ => rfl
  | cons v vs ih =>
    exact ((logs_pass room v).andThen ih).cast (by simp) fun _ _ => by simp

/-- With room enough, steps walk along their visits. -/
theorem run_steps {room : Nat} {vs : List Visit} (h : ∀ v ∈ vs, v.Fits room) (p : Progress) :
    each (Visit.pass room) vs p = .ok () (walk (vs.flatMap (Visit.visits p.insideFunction)) p) := by
  have hlogs := logs_steps room vs p
  cases hrun : each (Visit.pass room) vs p with
  | ok u p' => rw [(hlogs.ok hrun).2]
  | error e p' => exact absurd h (hlogs.error hrun)

end Binding

theorem Expr.allVisits_eq (es : List Expr) (i : Bool) :
    Expr.allVisits es i = (es.map Visit.expression).flatMap (Visit.visits i) := by
  induction es with
  | nil => rfl
  | cons e es ih => simp [Expr.allVisits, ih, Visit.visits]

theorem Statement.allVisits_eq (ss : List Statement) (i : Bool) :
    Statement.allVisits ss i = (ss.map Visit.statement).flatMap (Visit.visits i) := by
  induction ss with
  | nil => rfl
  | cons s ss ih => simp [Statement.allVisits, ih, Visit.visits]

theorem Binding.flatMap_parameters (names : List Token) (i : Bool) :
    (Visit.parameters names).flatMap (Visit.visits i) = Visit.parameters names := by
  simp [Visit.parameters, List.flatMap_assoc, Visit.visits]

theorem Binding.flatMap_function (names : List Token) (body : List Statement) (i : Bool) :
    (Visit.function names (body.map .statement)).flatMap (Visit.visits i) =
      Visit.function names (Statement.allVisits body i) := by
  simp [Visit.function, Binding.flatMap_parameters, Statement.allVisits_eq, Visit.visits]

/-- The visits of code are its own and those of its steps. -/
theorem Node.visits_eq (n : Node) (i : Bool) :
    n.visits i = n.visit :: n.steps.flatMap (Visit.visits (i || n.opensFunction)) := by
  cases n with
  | expression e =>
    cases e with
    | call callee paren arguments =>
      simp [visits, visit, steps, opensFunction, Expr.visits, Visit.visits, Expr.allVisits_eq]
    | function keyword parameters body =>
      simp [visits, visit, steps, opensFunction, Expr.visits, Binding.flatMap_function]
    | _ => simp [visits, visit, steps, opensFunction, Expr.visits, Visit.visits]
  | statement s =>
    cases s with
    | block ss =>
      simp [visits, visit, steps, opensFunction, Statement.visits, Visit.visits,
        Statement.allVisits_eq]
    | function name parameters body =>
      simp [visits, visit, steps, opensFunction, Statement.visits, Visit.visits,
        Binding.flatMap_function]
    | ifElse _ _ b =>
      cases b <;> simp [visits, visit, steps, opensFunction, Statement.visits, Visit.visits]
    | «return» _ e =>
      cases e <;> simp [visits, visit, steps, opensFunction, Statement.visits, Visit.visits]
    | var _ e =>
      cases e <;> simp [visits, visit, steps, opensFunction, Statement.visits, Visit.visits]
    | _ => simp [visits, visit, steps, opensFunction, Statement.visits, Visit.visits]

theorem Code.visits_eq (unit : Code) :
    unit.visits = unit.steps.flatMap (Visit.visits false) := by
  match unit with
  | .program ss => exact Statement.allVisits_eq ss false
  | .expression none => rfl
  | .expression (some e) => simp [visits, steps, Visit.visits]

/-- What a pass has found when it begins with the steps of code. -/
def Node.entered (n : Node) (p : Progress) : Progress :=
  { p with insideFunction := p.insideFunction || n.opensFunction }

@[simp] theorem Node.insideFunction_entered (n : Node) (p : Progress) :
    (n.entered p).insideFunction = (p.insideFunction || n.opensFunction) := rfl

theorem Node.entered_function {n : Node} (h : n.opensFunction = true) (p : Progress) :
    n.entered p = { p with insideFunction := true } := by
  simp [entered, h]

theorem Binding.run_function (room : Nat) (names : List Token) (body : List Statement)
    (p : Progress) :
    Binding.function (room + 1) names body p =
      (do functionScope room names body
          let _ ← enterFunction p.insideFunction) { p with insideFunction := true } := by
  rw [function_eq]
  rfl

/-- The pass over a function is the sequence of its steps, begun inside a function. What was set
before is set again behind them. -/
theorem Node.pass_function {n : Node} (h : n.opensFunction = true) (room : Nat) (p : Progress) :
    n.pass (room + 2) p =
      (do Binding.each (Visit.pass room) n.steps
          let _ ← Binding.enterFunction p.insideFunction) (n.entered p) := by
  rw [entered_function h]
  cases n with
  | expression e =>
    cases e with
    | function keyword names body =>
      rw [steps, Binding.each_function]
      exact Binding.run_function room names body p
    | _ => cases h
  | statement s =>
    cases s with
    | function name names body =>
      let front : List Visit := [.declare name, .settle name]
      have hfront (p : Progress) : Binding.each (Visit.pass room) front p = .ok () (walk front p) :=
        Binding.run_steps (by simp [front, Binding.Visit.Fits]) p
      have hleft : (Node.statement (.function name names body)).pass (room + 2) =
          (do Binding.each (Visit.pass room) front; Binding.function (room + 1) names body) := by
        simp [front, pass, visit, Visit.pass, Binding.statement, Binding.each]
      have hright : (Node.statement (.function name names body)).steps =
          front ++ Visit.function names (body.map .statement) := rfl
      rw [hleft, hright, Binding.each_append, Binding.each_function, bind_of_ok (hfront p),
        Binding.run_function, Binding.insideFunction_walk, bind_assoc, bind_of_ok (hfront _),
        Binding.walk_inside front p true]
    | _ => cases h

theorem Node.cost_le_depth (n : Node) : n.cost ≤ n.depth := by
  cases n with
  | expression e => cases e <;> simp [cost, opensFunction, depth, Expr.depth]
  | statement s =>
    cases s with
    | ifElse _ _ b => cases b <;> simp [cost, opensFunction, depth, Statement.depth]
    | «return» _ e => cases e <;> simp [cost, opensFunction, depth, Statement.depth]
    | var _ e => cases e <;> simp [cost, opensFunction, depth, Statement.depth]
    | _ => simp [cost, opensFunction, depth, Statement.depth]

theorem Node.cost_pos (n : Node) : 0 < n.cost := by
  unfold cost
  split <;> omega

theorem Node.fits_visit_iff (n : Node) (room : Nat) : n.visit.Fits room ↔ n.depth ≤ room := by
  cases n <;> exact Iff.rfl

/-- Where there is room for code, there is room for its steps. -/
theorem Node.fits_steps {n : Node} {room : Nat} (h : n.depth ≤ room + n.cost) :
    ∀ v ∈ n.steps, v.Fits room := by
  have hpass (room : Nat) (h : n.depth ≤ room) (p : Progress) :
      ∃ p', n.pass room p = .ok () p' := by
    have hlogs := Binding.logs_pass room n.visit p
    cases hrun : n.visit.pass room p with
    | ok u p' => exact ⟨p', hrun⟩
    | error e p' => exact absurd ((n.fits_visit_iff room).2 h) (hlogs.error hrun)
  obtain ⟨p', hrun⟩ := hpass _ h .start
  -- The pass has come to its end, and so have its steps.
  have hsteps : ∃ p p', Binding.each (Visit.pass room) n.steps p = .ok () p' := by
    cases hopens : n.opensFunction with
    | false =>
      rw [cost, if_neg (by simp [hopens]), pass_plain hopens] at hrun
      exact ⟨_, _, hrun⟩
    | true =>
      rw [cost, if_pos hopens, pass_function hopens] at hrun
      obtain ⟨_, p₁, hrun, -⟩ := ok_of_bind hrun
      exact ⟨_, _, hrun⟩
  obtain ⟨p, p', hrun⟩ := hsteps
  exact ((Binding.logs_steps room n.steps p).ok hrun).1

/-- Code that a pass is about to bind, the room that is left for it, and what was found by then. -/
structure Stop where
  room : Nat
  node : Node
  progress : Progress

/-- A pass over code makes the steps before one of the parts, and comes to the part. -/
inductive Stop.Comes : Stop → Stop → Prop where
  | part {n n' : Node} {before after : List Visit} {room : Nat} {p p' : Progress}
    (hsteps : n.steps = before ++ n'.visit :: after)
    (hrun : Binding.each (Visit.pass room) before (n.entered p) = .ok () p') :
    Comes ⟨room + n.cost, n, p⟩ ⟨room, n', p'⟩

/-- The pass over a unit of code makes the steps before one of the parts, and comes from there to
this stop. -/
def Code.ComesTo (unit : Code) (room : Nat) (stop : Stop) : Prop :=
  ∃ (n : Node) (before after : List Visit) (p : Progress),
    unit.steps = before ++ n.visit :: after ∧
    Binding.each (Visit.pass room) before .start = .ok () p ∧
    ReflTransGen Stop.Comes ⟨room, n, p⟩ stop

/-- The pass over a unit of code is the sequence of its steps. -/
theorem Code.pass_eq (unit : Code) (room : Nat) :
    Binding.code room unit = Binding.each (Visit.pass room) unit.steps := by
  match unit with
  | .program ss => simp [Binding.code, steps, Binding.each_mapped, Visit.pass]
  | .expression none => rfl
  | .expression (some e) => simp [Binding.code, steps, Binding.each, Visit.pass]

theorem Node.visits_visit (n : Node) (i : Bool) : n.visit.visits i = n.visits i := by
  cases n <;> rfl

/-- Only code has visits of code. -/
theorem exists_node_of_visit {v : Visit} {i : Bool} {n : Node} (h : n.visit ∈ v.visits i) :
    ∃ n' : Node, v = n'.visit := by
  cases v with
  | expression e => exact ⟨.expression e, rfl⟩
  | statement s => exact ⟨.statement s, rfl⟩
  | _ => cases n <;> simp [Visit.visits, Node.visit] at h

/-- A visit of code is among the visits of one of the steps, which is code as well. -/
theorem exists_step_of_visit {vs before after : List Visit} {i : Bool} {n : Node}
    (h : vs.flatMap (Visit.visits i) = before ++ n.visit :: after) :
    ∃ (front back pre post : List Visit) (n' : Node), vs = front ++ n'.visit :: back ∧
      n'.visits i = pre ++ n.visit :: post ∧
      before = front.flatMap (Visit.visits i) ++ pre := by
  induction vs generalizing before with
  | nil => simp at h
  | cons v vs ih =>
    rw [List.flatMap_cons] at h
    -- The visit is one of those of the first step, or it is behind them.
    obtain ⟨mid, rfl, hmid⟩ | ⟨mid, hmid, hafter⟩ := List.append_eq_append_iff.1 h
    · obtain ⟨front, back, pre, post, n', rfl, hn', rfl⟩ := ih hmid
      exact ⟨v :: front, back, pre, post, n', rfl, hn', by simp⟩
    · cases mid with
      | nil =>
        have hnext : vs.flatMap (Visit.visits i) = [] ++ n.visit :: after := hafter.symm
        obtain ⟨front, back, pre, post, n', rfl, hn', hpre⟩ := ih hnext
        refine ⟨v :: front, back, pre, post, n', rfl, hn', ?_⟩
        rw [List.flatMap_cons, List.append_assoc, ← hpre, hmid, List.append_nil, List.append_nil]
      | cons w mid =>
        obtain ⟨rfl, -⟩ := List.cons_eq_cons.1 hafter
        obtain ⟨n', rfl⟩ := exists_node_of_visit (hmid ▸ List.mem_append_right before (.head mid))
        exact ⟨[], vs, before, mid, n', rfl, n'.visits_visit i ▸ hmid, rfl⟩

section
variable {vs front back before after : List Visit} {room : Nat} {p p₁ : Progress} {m n : Node}

/-- With room enough, the steps before the one to which a visit belongs are made. -/
theorem exists_run_of_visit (hfits : ∀ v ∈ vs, v.Fits room)
    (h : vs.flatMap (Visit.visits p.insideFunction) = before ++ n.visit :: after) :
    ∃ (m : Node) (front back pre post : List Visit) (p₁ : Progress),
      vs = front ++ m.visit :: back ∧
      Binding.each (Visit.pass room) front p = .ok () p₁ ∧ m.depth ≤ room ∧
      m.visits p₁.insideFunction = pre ++ n.visit :: post ∧ walk pre p₁ = walk before p := by
  obtain ⟨front, back, pre, post, m, rfl, hm, rfl⟩ := exists_step_of_visit h
  obtain ⟨hfront, hback⟩ := List.forall_mem_append.1 hfits
  refine ⟨m, front, back, pre, post, _, rfl, Binding.run_steps hfront p, ?_, ?_, ?_⟩
  · exact (m.fits_visit_iff room).1 (List.forall_mem_cons.1 hback).1
  · rw [Binding.insideFunction_walk, hm]
  · rw [Binding.walk_append]

/-- A visit that belongs to a step is one of those of all the steps. -/
theorem exists_visit_of_run (hsteps : vs = front ++ m.visit :: back)
    (hrun : Binding.each (Visit.pass room) front p = .ok () p₁)
    (h : m.visits p₁.insideFunction = before ++ n.visit :: after) :
    ∃ us ws, vs.flatMap (Visit.visits p.insideFunction) = us ++ n.visit :: ws ∧
      walk us p = walk before p₁ := by
  obtain rfl := ((Binding.logs_steps room front p).ok hrun).2
  rw [Binding.insideFunction_walk] at h
  refine ⟨front.flatMap (Visit.visits p.insideFunction) ++ before,
    after ++ back.flatMap (Visit.visits p.insideFunction), ?_, Binding.walk_append _ _ _⟩
  simp [hsteps, m.visits_visit, h]

end

/-- The parts of code are less deep. -/
theorem Node.depth_lt_of_mem {n n' : Node} (h : n'.visit ∈ n.steps) : n'.depth < n.depth := by
  obtain ⟨left, hleft⟩ := Nat.exists_eq_add_of_le' n.cost_le_depth
  have hle := (n'.fits_visit_iff left).1 (n.fits_steps (Nat.le_of_eq hleft) _ h)
  have := n.cost_pos
  omega

/-- The walk from where the steps of code begin, but for what is set on the way. -/
theorem Node.walk_entered (n : Node) (visits : List Visit) (p : Progress) :
    walk visits (n.entered p) =
      { walk (n.visit :: visits) p with
        insideFunction := p.insideFunction || n.opensFunction } := by
  have hstep : n.visit.step p = p := by cases n <;> rfl
  rw [Binding.walk_cons, hstep]
  exact Binding.walk_inside visits p _

/-- A pass over code with room enough comes to every visit of code in it, with just the visits
before it made. -/
theorem Node.comes (n : Node) {n' : Node} {room : Nat} {before after : List Visit} {p : Progress}
    (hroom : n.depth ≤ room) (h : n.visits p.insideFunction = before ++ n'.visit :: after) :
    ∃ room' inside, n'.depth ≤ room' ∧ ReflTransGen Stop.Comes ⟨room, n, p⟩
      ⟨room', n', { walk before p with insideFunction := inside }⟩ := by
  rw [n.visits_eq] at h
  cases before with
  | nil =>
    obtain ⟨hvisit, -⟩ := List.cons_eq_cons.1 h
    obtain rfl := Node.visit_injective hvisit
    exact ⟨room, p.insideFunction, hroom, .refl⟩
  | cons v before =>
    obtain ⟨rfl, hafter⟩ := List.cons_eq_cons.1 h
    obtain ⟨left, rfl⟩ := Nat.exists_eq_add_of_le' (Nat.le_trans n.cost_le_depth hroom)
    rw [← n.insideFunction_entered p] at hafter
    obtain ⟨m, front, back, pre, post, p₁, hsteps, hrun, hleft, hvisits, hwalk⟩ :=
      exists_run_of_visit (n.fits_steps hroom) hafter
    have hdepth : m.depth < n.depth := n.depth_lt_of_mem (by simp [hsteps])
    obtain ⟨room', inside, hroom', hcomes⟩ := m.comes hleft hvisits
    rw [hwalk, n.walk_entered] at hcomes
    exact ⟨room', inside, hroom', .head (.part hsteps hrun) hcomes⟩
termination_by n.depth

/-- A unit with room enough for it has room for its steps. -/
theorem Code.fits_steps {unit : Code} {room : Nat} (h : unit.depth ≤ room) :
    ∀ v ∈ unit.steps, v.Fits room := by
  have hends := Binding.ends_code unit room
  rw [unit.pass_eq] at hends
  cases hrun : Binding.each (Visit.pass room) unit.steps .start with
  | ok u p => exact ((Binding.logs_steps room unit.steps .start).ok hrun).1
  | error e p => exact absurd h (hends.error hrun)

/-- Binding comes to every visit of code in a unit, with just the visits before it made. -/
theorem Code.exists_stop {unit : Code} {room : Nat} {n : Node} {before after : List Visit}
    (hroom : unit.depth ≤ room) (h : unit.visits = before ++ n.visit :: after) :
    ∃ room' inside, n.depth ≤ room' ∧
      unit.ComesTo room ⟨room', n, { walk before .start with insideFunction := inside }⟩ := by
  rw [unit.visits_eq] at h
  obtain ⟨m, front, back, pre, post, p, hsteps, hrun, hleft, hvisits, hwalk⟩ :=
    exists_run_of_visit (p := .start) (unit.fits_steps hroom) h
  obtain ⟨room', inside, hroom', hcomes⟩ := m.comes hleft hvisits
  rw [hwalk] at hcomes
  exact ⟨room', inside, hroom', m, front, back, p, hsteps, hrun, hcomes⟩

/-- Code that a pass comes to has a visit, and just the visits before it are made by then. -/
theorem Stop.exists_visit {stop stop' : Stop} (h : ReflTransGen Comes stop stop') :
    ∃ before after,
      stop.node.visits stop.progress.insideFunction = before ++ stop'.node.visit :: after ∧
      stop'.progress = { walk before stop.progress with
        insideFunction := stop'.progress.insideFunction } := by
  induction h using ReflTransGen.head_induction_on with
  | refl => exact ⟨[], _, stop'.node.visits_eq _, rfl⟩
  | head hstep _ ih =>
    obtain ⟨before, after, hvisits, hprogress⟩ := ih
    cases hstep with
    | @part n m front back room p p₁ hsteps hrun =>
      obtain ⟨us, ws, hus, hwalk⟩ := exists_visit_of_run hsteps hrun hvisits
      rw [← hwalk, n.walk_entered] at hprogress
      rw [n.insideFunction_entered] at hus
      exact ⟨n.visit :: us, ws, by rw [n.visits_eq, hus, List.cons_append], hprogress⟩

theorem Code.exists_visit {unit : Code} {room : Nat} {stop : Stop} (h : unit.ComesTo room stop) :
    ∃ before after, unit.visits = before ++ stop.node.visit :: after ∧
      stop.progress = { walk before .start with
        insideFunction := stop.progress.insideFunction } := by
  obtain ⟨m, front, back, p, hsteps, hrun, hcomes⟩ := h
  obtain ⟨before, after, hvisits, hprogress⟩ := Stop.exists_visit hcomes
  obtain ⟨us, ws, hus, hwalk⟩ := exists_visit_of_run hsteps hrun hvisits
  rw [← hwalk] at hprogress
  exact ⟨us, ws, unit.visits_eq.trans hus, hprogress⟩

/-- Code is visited with as many scopes open as the pass has open when it is about to bind it. -/
theorem visitedAt_iff {units : List Code} {room : Nat} (hroom : ∀ unit ∈ units, unit.depth ≤ room)
    (n : Node) (depth : Nat) :
    VisitedAt units n.visit depth ↔ ∃ unit ∈ units, ∃ stop, unit.ComesTo room stop ∧
      stop.node = n ∧ stop.progress.scopes.length = depth := by
  constructor
  · rintro ⟨unit, hunit, before, after, hvisits, hdepth⟩
    obtain ⟨room', inside, -, hcomes⟩ := Code.exists_stop (hroom unit hunit) hvisits
    exact ⟨unit, hunit, _, hcomes, rfl, hdepth⟩
  · rintro ⟨unit, hunit, stop, hcomes, rfl, hdepth⟩
    obtain ⟨before, after, hvisits, hprogress⟩ := Code.exists_visit hcomes
    rw [hprogress] at hdepth
    exact ⟨unit, hunit, before, after, hvisits, hdepth⟩

end Lox

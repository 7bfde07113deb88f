import Lox.Proofs.Scoping.Bound

/-!
# The log of a binding pass

A pass over a tree comes to its nodes, declarations and uses in a fixed order, in which scopes are
opened and closed like brackets. The order depends on the tree alone. `Expr.visits` and
`Statement.visits` write it down as a list, and `walk` says what one entry of the list after the
other does to the open scopes and to what was found. A pass is the walk along the visits of its
tree, and it gets to the end of the tree if there is room for the nesting of the tree.
-/
namespace Lox

namespace Binding

/-- Something that a pass over a tree comes to. -/
inductive Visit where
  | expression (e : Expr)
  | statement (s : Statement)
  /-- A scope begins: a block, or the parameters and the body of a function. -/
  | enter
  | leave
  /-- A declaration of a name begins; the name may not be read yet. -/
  | declare (name : Token)
  /-- A declaration is over, and its name may be read. -/
  | settle (name : Token)
  | use (kind : UseKind) (site : Site) (name : Token)
  /-- A `return`, inside a function or not. -/
  | leaveFunction (keyword : Token) (inside : Bool)

/-- The parameters of a function, declared one after the other. -/
def Visit.parameters (names : List Token) : List Visit :=
  names.flatMap fun name => [.declare name, .settle name]

/-- A function with the visits of its body. Parameters and body share a scope. -/
def Visit.function (names : List Token) (body : List Visit) : List Visit :=
  .enter :: (parameters names ++ body ++ [.leave])

end Binding

open Binding (Visit)

mutual

/-- The visits of an expression, which is inside a function or not. -/
def Expr.visits : Expr → (inside : Bool) → List Visit
  | .literal value, _ => [.expression (.literal value)]
  | .grouping inner, i => .expression (.grouping inner) :: inner.visits i
  | .unary operator operand, i => .expression (.unary operator operand) :: operand.visits i
  | .binary left operator right, i =>
    .expression (.binary left operator right) :: (left.visits i ++ right.visits i)
  | .logical left operator right, i =>
    .expression (.logical left operator right) :: (left.visits i ++ right.visits i)
  | .ternary condition thenBranch elseBranch, i =>
    .expression (.ternary condition thenBranch elseBranch) ::
      (condition.visits i ++ (thenBranch.visits i ++ elseBranch.visits i))
  | .access site name, _ => [.expression (.access site name), .use .access site name]
  | .assign site name value, i =>
    .expression (.assign site name value) :: (value.visits i ++ [.use .assignment site name])
  | .call callee paren arguments, i =>
    .expression (.call callee paren arguments) :: (callee.visits i ++ Expr.allVisits arguments i)
  | .function keyword parameters body, _ =>
    .expression (.function keyword parameters body) ::
      Visit.function parameters (Statement.allVisits body true)

def Expr.allVisits : List Expr → (inside : Bool) → List Visit
  | [], _ => []
  | e :: rest, i => e.visits i ++ Expr.allVisits rest i

def Statement.visits : Statement → (inside : Bool) → List Visit
  | .block statements, i =>
    .statement (.block statements) :: .enter :: (Statement.allVisits statements i ++ [.leave])
  | .expression value, i => .statement (.expression value) :: value.visits i
  | .function name parameters body, _ =>
    .statement (.function name parameters body) :: .declare name :: .settle name ::
      Visit.function parameters (Statement.allVisits body true)
  | .ifElse condition thenBranch none, i =>
    .statement (.ifElse condition thenBranch none) :: (condition.visits i ++ thenBranch.visits i)
  | .ifElse condition thenBranch (some elseBranch), i =>
    .statement (.ifElse condition thenBranch (some elseBranch)) ::
      (condition.visits i ++ (thenBranch.visits i ++ elseBranch.visits i))
  | .print value, i => .statement (.print value) :: value.visits i
  | .return keyword none, i => [.statement (.return keyword none), .leaveFunction keyword i]
  | .return keyword (some value), i =>
    .statement (.return keyword (some value)) :: .leaveFunction keyword i :: value.visits i
  | .var name none, _ => [.statement (.var name none), .declare name, .settle name]
  | .var name (some initializer), i =>
    .statement (.var name (some initializer)) :: .declare name ::
      (initializer.visits i ++ [.settle name])
  | .while condition body, i =>
    .statement (.while condition body) :: (condition.visits i ++ body.visits i)

def Statement.allVisits : List Statement → (inside : Bool) → List Visit
  | [], _ => []
  | s :: rest, i => s.visits i ++ Statement.allVisits rest i

end

/-- The visits of a unit of code, which is inside no function. -/
def Code.visits : Code → List Visit
  | .program statements => Statement.allVisits statements false
  | .expression none => []
  | .expression (some e) => e.visits false

mutual

/-- The room that a pass over an expression takes. -/
def Expr.depth : Expr → Nat
  | .literal _ => 1
  | .grouping inner => inner.depth + 1
  | .unary _ operand => operand.depth + 1
  | .binary left _ right => max left.depth right.depth + 1
  | .logical left _ right => max left.depth right.depth + 1
  | .ternary condition thenBranch elseBranch =>
    max condition.depth (max thenBranch.depth elseBranch.depth) + 1
  | .access _ _ => 1
  | .assign _ _ value => value.depth + 1
  | .call callee _ arguments => max callee.depth (Expr.depths arguments) + 1
  | .function _ _ body => Statement.depths body + 2

def Expr.depths : List Expr → Nat
  | [] => 0
  | e :: rest => max e.depth (Expr.depths rest)

def Statement.depth : Statement → Nat
  | .block statements => Statement.depths statements + 1
  | .expression value => value.depth + 1
  | .function _ _ body => Statement.depths body + 2
  | .ifElse condition thenBranch none => max condition.depth thenBranch.depth + 1
  | .ifElse condition thenBranch (some elseBranch) =>
    max condition.depth (max thenBranch.depth elseBranch.depth) + 1
  | .print value => value.depth + 1
  | .return _ none => 1
  | .return _ (some value) => value.depth + 1
  | .var _ none => 1
  | .var _ (some initializer) => initializer.depth + 1
  | .while condition body => max condition.depth body.depth + 1

def Statement.depths : List Statement → Nat
  | [] => 0
  | s :: rest => max s.depth (Statement.depths rest)

end

/-- The room that a pass over a unit of code takes. -/
def Code.depth : Code → Nat
  | .program statements => Statement.depths statements
  | .expression none => 0
  | .expression (some e) => e.depth

namespace Binding

/-- What a visit does to the open scopes and to what was found. -/
def Visit.step (p : Progress) : Visit → Progress
  | .expression _ => p
  | .statement _ => p
  | .enter => { p with scopes := [] :: p.scopes }
  | .leave => { p with scopes := p.scopes.tail }
  | .declare name =>
    { p with
      scopes := marked name.lexeme false p.scopes
      reports :=
        if p.declares name.lexeme then ⟨name, .alreadyDeclared name.lexeme⟩ :: p.reports
        else p.reports }
  | .settle name => { p with scopes := marked name.lexeme true p.scopes }
  | .use kind site name =>
    { p with
      entries :=
        match hops? name.lexeme p.scopes with
        | none => p.entries
        | some hops => ⟨kind, site, name, hops⟩ :: p.entries
      reports :=
        if kind = .access ∧ readable name.lexeme p.scopes = false then
          ⟨name, .readInInitializer⟩ :: p.reports
        else p.reports }
  | .leaveFunction keyword inside =>
    { p with
      reports := if inside then p.reports else ⟨keyword, .returnOutsideFunction⟩ :: p.reports }

/-- One visit after the other. -/
def walk (visits : List Visit) (p : Progress) : Progress := visits.foldl Visit.step p

@[simp] theorem walk_nil (p : Progress) : walk [] p = p := rfl

@[simp] theorem walk_cons (v : Visit) (visits : List Visit) (p : Progress) :
    walk (v :: visits) p = walk visits (v.step p) := rfl

@[simp] theorem walk_append (us vs : List Visit) (p : Progress) :
    walk (us ++ vs) p = walk vs (walk us p) := by
  simp [walk]

/-- No visit tells whether the pass is inside a function. -/
theorem Visit.step_inside (v : Visit) (p : Progress) (inside : Bool) :
    v.step { p with insideFunction := inside } = { v.step p with insideFunction := inside } := by
  cases v <;> rfl

theorem walk_inside (visits : List Visit) (p : Progress) (inside : Bool) :
    walk visits { p with insideFunction := inside } =
      { walk visits p with insideFunction := inside } := by
  induction visits generalizing p with
  | nil => rfl
  | cons v visits ih => rw [walk_cons, walk_cons, v.step_inside, ih]

/-- A walk ends inside a function just if it began there. -/
theorem walk_restored (visits : List Visit) (p : Progress) :
    { walk visits p with insideFunction := p.insideFunction } = walk visits p := by
  rw [← walk_inside]

@[simp] theorem insideFunction_walk (visits : List Visit) (p : Progress) :
    (walk visits p).insideFunction = p.insideFunction := by
  rw [← walk_restored visits p]

/-- An action of the pass walks along some visits, if a condition is met, and fails otherwise. -/
def Logs (act : Binder Unit) (fits : Prop) (visits : Bool → List Visit) : Prop :=
  ∀ p, Ends act p (fun _ p' => fits ∧ p' = walk (visits p.insideFunction) p) fun _ _ => ¬ fits

section
variable {act act' : Binder Unit} {fits fits' : Prop} {visits visits' : Bool → List Visit}

theorem Logs.cast (h : Logs act fits visits) (hf : fits ↔ fits')
    (hv : ∀ i p, walk (visits i) p = walk (visits' i) p) : Logs act fits' visits' := by
  intro p
  refine (h p).imp (fun _ p' hp => ⟨hf.1 hp.1, ?_⟩) fun _ _ hp => mt hf.2 hp
  rw [hp.2, hv]

theorem Logs.andThen (h : Logs act fits visits) (h' : Logs act' fits' visits') :
    Logs (do act; act') (fits ∧ fits') fun i => visits i ++ visits' i := by
  intro p
  rw [ends_bind]
  refine (h p).imp (fun _ p₁ h₁ => ?_) fun _ _ hn => fun hfit => hn hfit.1
  obtain ⟨hfit, rfl⟩ := h₁
  refine (h' _).imp (fun _ p₂ h₂ => ⟨⟨hfit, h₂.1⟩, ?_⟩) fun _ _ hn => fun hfit => hn hfit.2
  rw [h₂.2, insideFunction_walk, walk_append]

theorem Logs.of_eq (h : ∀ p, act p = .ok () (walk (visits p.insideFunction) p)) :
    Logs act True visits :=
  fun p => .of_ok (h p) ⟨trivial, rfl⟩

theorem logs_outOfRoom (h : ¬ fits) : Logs outOfRoom fits visits := fun _ => h

theorem logs_pure : Logs (pure ()) True fun _ => [] := .of_eq fun _ => rfl

theorem logs_openScope : Logs openScope True fun _ => [.enter] := .of_eq fun _ => rfl

theorem logs_closeScope : Logs closeScope True fun _ => [.leave] := .of_eq fun _ => rfl

theorem mark_eq (name : String) (ready : Bool) (p : Progress) :
    mark name ready p = .ok () { p with scopes := marked name ready p.scopes } := by
  obtain ⟨scopes, _, _, _⟩ := p
  cases scopes <;> rfl

theorem logs_declare (name : Token) : Logs (declare name) True fun _ => [.declare name] := by
  refine .of_eq fun p => ?_
  show (do
    if p.declares name.lexeme then report name (.alreadyDeclared name.lexeme)
    mark name.lexeme false : Binder Unit) p = _
  by_cases h : p.declares name.lexeme = true
  · rw [if_pos h]
    exact (mark_eq _ _ _).trans (by simp [Visit.step, h])
  · rw [if_neg h]
    exact (mark_eq _ _ _).trans (by simp [Visit.step, h])

theorem logs_define (name : Token) : Logs (define name) True fun _ => [.settle name] := by
  exact .of_eq fun p => mark_eq name.lexeme true p

/-- Reading a variable: whether it may be read comes first. -/
theorem logs_access (site : Site) (name : Token) :
    Logs (do checkReadable name; bind .access site name) True
      fun _ => [.use .access site name] := by
  refine .of_eq fun p => ?_
  by_cases h : readable name.lexeme p.scopes = true <;>
    cases hh : hops? name.lexeme p.scopes <;>
    simp [Bind.bind, EStateM.bind, checkReadable, Binding.bind, report, h, hh, Visit.step]

theorem logs_assignment (site : Site) (name : Token) :
    Logs (bind .assignment site name) True fun _ => [.use .assignment site name] := by
  refine .of_eq fun p => ?_
  cases hh : hops? name.lexeme p.scopes <;> simp [Binding.bind, hh, Visit.step]

theorem logs_checkReturn (keyword : Token) :
    Logs (checkReturn keyword) True fun i => [.leaveFunction keyword i] := by
  refine .of_eq fun p => ?_
  obtain ⟨scopes, inside, entries, reports⟩ := p
  cases inside <;> rfl

theorem logs_parameters (names : List Token) :
    Logs (each (fun name => do declare name; define name) names) True
      fun _ => Visit.parameters names := by
  induction names with
  | nil => exact logs_pure
  | cons name names ih =>
    exact (((logs_declare name).andThen (logs_define name)).andThen ih).cast (by simp)
      fun _ _ => by simp [Visit.parameters]

/-- What is bound in the scope of a function. -/
def functionScope (room : Nat) (names : List Token) (body : List Statement) : Binder Unit := do
  openScope
  each (fun name => do declare name; define name) names
  each (statement room) body
  closeScope

theorem function_eq (room : Nat) (names : List Token) (body : List Statement) :
    function (room + 1) names body = (do
      let outside ← enterFunction true
      functionScope room names body
      (do let _ ← enterFunction outside)) := by
  simp only [function, functionScope, bind_assoc]

/-- The body of a function is inside a function, and what was before is set again behind it. -/
theorem logs_function {room : Nat} {names : List Token} {body : List Statement}
    (h : ∀ room, Logs (each (statement room) body) (Statement.depths body ≤ room)
      (Statement.allVisits body)) :
    Logs (function room names body) (Statement.depths body + 1 ≤ room)
      fun _ => Visit.function names (Statement.allVisits body true) := by
  cases room with
  | zero => exact logs_outOfRoom (by omega)
  | succ room =>
    intro p
    have hscope : Logs (functionScope room names body) _ _ :=
      logs_openScope.andThen ((logs_parameters names).andThen ((h room).andThen logs_closeScope))
    rw [function_eq, ends_bind]
    refine .of_ok rfl ?_
    rw [ends_bind]
    refine (hscope _).imp (fun _ p₁ h₁ => ?_) fun _ _ hn => by simpa using hn
    obtain ⟨hfit, rfl⟩ := h₁
    refine .of_ok rfl ⟨by simpa using hfit, ?_⟩
    rw [walk_inside]
    refine (walk_restored _ p).trans ?_
    simp [Visit.function]

end

mutual

theorem logs_expression : (e : Expr) → (room : Nat) →
    Logs (expression room e) (e.depth ≤ room) e.visits
  | e, 0 => logs_outOfRoom (by cases e <;> simp [Expr.depth])
  | .literal _, room + 1 => logs_pure.cast (by simp [Expr.depth]) fun _ _ => rfl
  | .grouping inner, room + 1 =>
    (logs_expression inner room).cast (by simp [Expr.depth]) fun _ _ => rfl
  | .unary _ operand, room + 1 =>
    (logs_expression operand room).cast (by simp [Expr.depth]) fun _ _ => rfl
  | .binary left _ right, room + 1 =>
    ((logs_expression left room).andThen (logs_expression right room)).cast
      (by rw [Expr.depth]; omega) fun _ _ => rfl
  | .logical left _ right, room + 1 =>
    ((logs_expression left room).andThen (logs_expression right room)).cast
      (by rw [Expr.depth]; omega) fun _ _ => rfl
  | .ternary condition thenBranch elseBranch, room + 1 =>
    ((logs_expression condition room).andThen ((logs_expression thenBranch room).andThen
      (logs_expression elseBranch room))).cast (by rw [Expr.depth]; omega) fun _ _ => rfl
  | .access site name, room + 1 =>
    (logs_access site name).cast (by simp [Expr.depth]) fun _ _ => rfl
  | .assign site name value, room + 1 =>
    ((logs_expression value room).andThen (logs_assignment site name)).cast
      (by simp [Expr.depth]) fun _ _ => rfl
  | .call callee _ arguments, room + 1 =>
    ((logs_expression callee room).andThen (logs_expressions arguments room)).cast
      (by rw [Expr.depth]; omega) fun _ _ => rfl
  | .function _ parameters body, room + 1 =>
    (logs_function (logs_statements body)).cast (by simp [Expr.depth]) fun _ _ => rfl

theorem logs_expressions : (es : List Expr) → (room : Nat) →
    Logs (each (expression room) es) (Expr.depths es ≤ room) (Expr.allVisits es)
  | [], _ => logs_pure.cast (by simp [Expr.depths]) fun _ _ => rfl
  | e :: es, room =>
    ((logs_expression e room).andThen (logs_expressions es room)).cast
      (by rw [Expr.depths]; omega) fun _ _ => rfl

theorem logs_statement : (s : Statement) → (room : Nat) →
    Logs (statement room s) (s.depth ≤ room) s.visits
  | s, 0 => logs_outOfRoom (by
      cases s with
      | ifElse _ _ e => cases e <;> simp [Statement.depth]
      | «return» _ e => cases e <;> simp [Statement.depth]
      | var _ e => cases e <;> simp [Statement.depth]
      | _ => simp [Statement.depth])
  | .block ss, room + 1 =>
    (logs_openScope.andThen ((logs_statements ss room).andThen logs_closeScope)).cast
      (by simp [Statement.depth]) fun _ _ => rfl
  | .expression value, room + 1 =>
    (logs_expression value room).cast (by simp [Statement.depth]) fun _ _ => rfl
  | .function name parameters body, room + 1 =>
    ((logs_declare name).andThen ((logs_define name).andThen
      (logs_function (logs_statements body)))).cast (by simp [Statement.depth]) fun _ _ => rfl
  | .ifElse condition thenBranch none, room + 1 =>
    ((logs_expression condition room).andThen ((logs_statement thenBranch room).andThen
      logs_pure)).cast (by rw [Statement.depth, and_true]; omega)
        fun _ _ => by simp [Statement.visits, Visit.step]
  | .ifElse condition thenBranch (some elseBranch), room + 1 =>
    ((logs_expression condition room).andThen ((logs_statement thenBranch room).andThen
      (logs_statement elseBranch room))).cast (by rw [Statement.depth]; omega) fun _ _ => rfl
  | .print value, room + 1 =>
    (logs_expression value room).cast (by simp [Statement.depth]) fun _ _ => rfl
  | .return keyword none, room + 1 =>
    ((logs_checkReturn keyword).andThen logs_pure).cast (by simp [Statement.depth])
      fun _ _ => rfl
  | .return keyword (some value), room + 1 =>
    ((logs_checkReturn keyword).andThen (logs_expression value room)).cast
      (by simp [Statement.depth]) fun _ _ => rfl
  | .var name none, room + 1 =>
    ((logs_declare name).andThen (logs_pure.andThen (logs_define name))).cast
      (by simp [Statement.depth]) fun _ _ => rfl
  | .var name (some initializer), room + 1 =>
    ((logs_declare name).andThen ((logs_expression initializer room).andThen
      (logs_define name))).cast (by simp [Statement.depth]) fun _ _ => rfl
  | .while condition body, room + 1 =>
    ((logs_expression condition room).andThen (logs_statement body room)).cast
      (by rw [Statement.depth]; omega) fun _ _ => rfl

theorem logs_statements : (ss : List Statement) → (room : Nat) →
    Logs (each (statement room) ss) (Statement.depths ss ≤ room) (Statement.allVisits ss)
  | [], _ => logs_pure.cast (by simp [Statement.depths]) fun _ _ => rfl
  | s :: ss, room =>
    ((logs_statement s room).andThen (logs_statements ss room)).cast
      (by rw [Statement.depths]; omega) fun _ _ => rfl

end

theorem ends_code (unit : Code) (room : Nat) :
    Ends (code room unit) .start
      (fun _ p => unit.depth ≤ room ∧ p = walk unit.visits .start)
      fun _ _ => ¬ unit.depth ≤ room := by
  match unit with
  | .program ss => exact logs_statements ss room .start
  | .expression none => exact ⟨Nat.zero_le room, rfl⟩
  | .expression (some e) => exact logs_expression e room .start

/-- A unit is resolved to its end just if there is room for its nesting. -/
theorem resolve_complete_iff (unit : Code) (room : Nat) :
    (resolve room unit).complete = true ↔ unit.depth ≤ room := by
  have h := ends_code unit room
  cases hrun : code room unit .start with
  | ok _ p => simpa [resolve, hrun, Resolved.ofProgress] using (h.ok hrun).1
  | error _ p => simpa [resolve, hrun, Resolved.ofProgress] using h.error hrun

/-- What is found in a unit is what the walk along its visits finds. -/
theorem resolve_eq_walk {unit : Code} {room : Nat} (h : unit.depth ≤ room) :
    resolve room unit = .ofProgress (walk unit.visits .start) true := by
  have hends := ends_code unit room
  cases hrun : code room unit .start with
  | ok _ p => rw [resolve, hrun, (hends.ok hrun).2]
  | error _ p => exact absurd h (hends.error hrun)

end Binding
end Lox

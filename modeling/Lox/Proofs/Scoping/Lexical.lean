import Lox.Eval
import Lox.Session

/-!
# Static scoping

Programs evaluated with environments instead of scopes. An environment maps names to memory cells
and never changes: inside a block or a function every declaration extends it, by a new cell, for the
rest of that block. A variable has its cell while it is initialized, but the cell is empty until
then. A function keeps the environment of the place where it was made. A name that the environment
does not have is global, and is looked up in the globals when it is used.

Nothing here knows of hops, tables or chains of scopes. `fuel` bounds the depth of an evaluation and
`rounds` its loops; there is no error for a stack that is too small.
-/
namespace Lox.Lexical

abbrev Cell := Nat

/-- The names around a place of the program with their cells, latest first. At the top level there
are none, and declarations are global. -/
structure Env where
  inside : Bool
  cells : List (String × Cell)

namespace Env

def top : Env := ⟨false, []⟩

/-- The environment in which a block or a function begins. -/
def enter (env : Env) : Env := { env with inside := true }

def extend (env : Env) (name : String) (cell : Cell) : Env :=
  { env with cells := (name, cell) :: env.cells }

end Env

/-- What evaluation changes. The scope of a closure is the number under which its environment is
captured. -/
structure State where
  /-- What each cell holds, if it has been filled. -/
  memory : Array (Option Value)
  globals : Values Value
  captured : Array Env
  /-- The printed texts, newest first. -/
  output : List String
  nextIdentity : Nat
  clock : Clock

abbrev Action := EStateM Failure State

namespace State

/-- The state before a program, with the functions of the host as globals. -/
def start (hosts : List HostFunction) (clock : Clock) : State where
  memory := #[]
  globals := hosts.foldl (fun vs h => vs.put h.name (.function (.host h))) []
  captured := #[]
  output := []
  nextIdentity := 0
  clock := clock

/-- The value of a name, if it has a cell that is filled or, without a cell, a global. -/
def value? (s : State) (env : Env) (name : String) : Option Value :=
  match env.cells.lookup name with
  | some cell => s.memory[cell]?.join
  | none => s.globals.lookup name

/-- Gives a name a value, in its cell or as a global. -/
def put (s : State) (env : Env) (name : String) (value : Value) : State :=
  match env.cells.lookup name with
  | some cell => { s with memory := s.memory.setIfInBounds cell (some value) }
  | none => { s with globals := s.globals.put name value }

end State

def abort {α : Type} (a : Abort) : Action α := fun s => .error (.abort a) s

def fail {α : Type} (token : Token) (fault : RuntimeFault) : Action α := fun s =>
  .error (.error ⟨token, fault⟩) s

def read (env : Env) (name : Token) : Action Value := fun s =>
  match s.value? env name.lexeme with
  | some value => .ok value s
  | none => .error (.error ⟨name, .undefinedVariable name.lexeme⟩) s

/-- An empty cell cannot be assigned to. -/
def write (env : Env) (name : Token) (value : Value) : Action Unit := fun s =>
  if (s.value? env name.lexeme).isSome then .ok () (s.put env name.lexeme value)
  else .error (.error ⟨name, .undefinedVariable name.lexeme⟩) s

/-- The environment behind the start of a declaration: at the top level the same one, elsewhere one
with a new cell that is empty. -/
def declare (env : Env) (name : String) : Action Env := fun s =>
  if env.inside then
    .ok (env.extend name s.memory.size) { s with memory := s.memory.push none }
  else .ok env s

/-- Ends a declaration. -/
def fill (env : Env) (name : String) (value : Value) : Action Unit := fun s =>
  .ok () (s.put env name value)

def print (text : String) : Action Unit := fun s => .ok () { s with output := text :: s.output }

/-- A function of the program that captures an environment. -/
def close (env : Env) (name : Option String) (parameters : List Token) (body : List Statement) :
    Action Value := fun s =>
  let c : Closure := ⟨s.nextIdentity, name, parameters, body, s.captured.size⟩
  .ok (.function (.closure c))
    { s with captured := s.captured.push env, nextIdentity := s.nextIdentity + 1 }

/-- The environment that a function captured. -/
def environmentOf (c : Closure) : Action Env := fun s => .ok (s.captured.getD c.scope .top) s

/-- Gives every parameter a cell with its argument. -/
def bindParameters (env : Env) : List (Token × Value) → Action Env
  | [] => pure env
  | (parameter, argument) :: rest => do
    let env ← declare env parameter.lexeme
    fill env parameter.lexeme argument
    bindParameters env rest

def callHost (h : HostFunction) (arguments : List Value) : Action Value := fun s =>
  match h.action with
  | .clock => .ok (.number s.clock.reading) { s with clock := s.clock.next }
  | .give none => .ok .nil s
  | .give (some i) =>
    match arguments[i]? with
    | some value => .ok value s
    | none => .error (.abort .missingArgument) s

def resultAt (operator : Token) : Except RuntimeFault Value → Action Value
  | .ok value => pure value
  | .error fault => fail operator fault

def evaluateAll (evaluate : Expr → Action Value) : List Expr → Action (List Value)
  | [] => pure []
  | e :: rest => do
    let value ← evaluate e
    let values ← evaluateAll evaluate rest
    pure (value :: values)

/-- Executes statements, each in the environment that the one before it left. -/
def executeAll (execute : Env → Statement → Action (Completion × Env)) :
    Env → List Statement → Action Completion
  | _, [] => pure .normal
  | env, s :: rest => do
    match ← execute env s with
    | (.normal, env) => executeAll execute env rest
    | (.returned value, _) => pure (.returned value)

def repeatWhile (condition : Action Value) (body : Action (Completion × Env)) :
    (rounds : Nat) → Action Completion
  | 0 => abort .roundsExhausted
  | rounds + 1 => do
    if (← condition).truthy then
      match ← body with
      | (.normal, _) => repeatWhile condition body rounds
      | (.returned value, _) => pure (.returned value)
    else pure .normal

section
variable (rounds : Nat)

mutual

def evaluate : (fuel : Nat) → Env → Expr → Action Value
  | 0, _, _ => abort .stackExhausted
  | _ + 1, _, .literal value => pure value.value
  | fuel + 1, env, .grouping inner => evaluate fuel env inner
  | fuel + 1, env, .unary operator operand => do
    let value ← evaluate fuel env operand
    resultAt operator (Eval.unaryResult operator value)
  | fuel + 1, env, .binary left operator right => do
    let x ← evaluate fuel env left
    let y ← evaluate fuel env right
    resultAt operator (Eval.binaryResult operator x y)
  | fuel + 1, env, .logical left operator right => do
    let value ← evaluate fuel env left
    if Eval.decides operator value then pure value else evaluate fuel env right
  | fuel + 1, env, .ternary condition thenBranch elseBranch => do
    if (← evaluate fuel env condition).truthy then evaluate fuel env thenBranch
    else evaluate fuel env elseBranch
  | _ + 1, env, .access _ name => read env name
  | fuel + 1, env, .assign _ name e => do
    let value ← evaluate fuel env e
    write env name value
    pure value
  | fuel + 1, env, .call callee paren arguments => do
    let value ← evaluate fuel env callee
    let values ← evaluateAll (evaluate fuel env) arguments
    match value with
    | .function f =>
      if values.length = f.arity then invoke fuel f values
      else fail paren (.wrongArity f.arity values.length)
    | _ => fail paren .notCallable
  | _ + 1, env, .function _ parameters body => close env none parameters body

/-- The body of a function begins in the environment that the function captured, extended by the
parameters. -/
def invoke : (fuel : Nat) → Function → List Value → Action Value
  | 0, _, _ => abort .stackExhausted
  | _ + 1, .host h, arguments => callHost h arguments
  | fuel + 1, .closure c, arguments => do
    let captured ← environmentOf c
    let env ← bindParameters captured.enter (c.parameters.zip arguments)
    match ← executeAll (execute fuel) env c.body with
    | .normal => pure .nil
    | .returned value => pure value

/-- Executes a statement and answers the environment behind it. -/
def execute : (fuel : Nat) → Env → Statement → Action (Completion × Env)
  | 0, _, _ => abort .stackExhausted
  | fuel + 1, env, .block statements => do
    let completion ← executeAll (execute fuel) env.enter statements
    pure (completion, env)
  | fuel + 1, env, .expression e => do
    let _ ← evaluate fuel env e
    pure (.normal, env)
  | _ + 1, env, .function name parameters body => do
    let env ← declare env name.lexeme
    let f ← close env (some name.lexeme) parameters body
    fill env name.lexeme f
    pure (.normal, env)
  | fuel + 1, env, .ifElse condition thenBranch elseBranch => do
    if (← evaluate fuel env condition).truthy then execute fuel env thenBranch
    else match elseBranch with
      | none => pure (.normal, env)
      | some s => execute fuel env s
  | fuel + 1, env, .print e => do
    print (← evaluate fuel env e).display
    pure (.normal, env)
  | _ + 1, env, .return _ none => pure (.returned .nil, env)
  | fuel + 1, env, .return _ (some e) => do
    pure (.returned (← evaluate fuel env e), env)
  | _ + 1, env, .var name none => do
    let env ← declare env name.lexeme
    fill env name.lexeme .nil
    pure (.normal, env)
  | fuel + 1, env, .var name (some e) => do
    let env ← declare env name.lexeme
    let value ← evaluate fuel env e
    fill env name.lexeme value
    pure (.normal, env)
  | fuel + 1, env, .while condition body => do
    let completion ← repeatWhile (evaluate fuel env condition) (execute fuel env body) rounds
    pure (completion, env)

end

end

/-- Runs a program from the top level. -/
def run (limits : Limits) (statements : List Statement) : Action Unit := do
  let _ ← executeAll (execute limits.rounds limits.room) .top statements

end Lox.Lexical

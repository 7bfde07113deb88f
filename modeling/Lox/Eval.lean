import Lox.Machine

/-!
# Evaluation

Expressions have values and statements have effects. `room` is the stack that is left: each of the
functions below spends one unit of it on itself and hands the rest to its parts. `rounds` limits
every loop of a program, as nothing else would.

An exhausted stack stops an evaluation, but a unary or binary operator whose operands exhaust it, or
a call whose function does, fails with an error of the program instead.
-/
namespace Lox

/-- How a statement ends: normally, or by a `return` that leaves the function around it. -/
inductive Completion where
  | normal
  | returned (value : Value)

namespace Eval

/-- The value of a unary operator, or what is wrong with it. -/
def unaryResult (operator : Token) (operand : Value) : Except RuntimeFault Value :=
  match operator.kind with
  | .minus =>
    match operand with
    | .number x => .ok (.number (-x))
    | _ => .error .operandNotNumber
  | .bang => .ok (.bool (!operand.truthy))
  | _ => .error (.unknownUnary operator.lexeme)

def plusResult : Value → Value → Except RuntimeFault Value
  | .number x, .number y => .ok (.number (x + y))
  | .string s, .string t => .ok (.string (s ++ t))
  | _, _ => .error .operandsNotAddable

/-- The value of an operator that takes numbers only. -/
def numericResult (operator : Token) (x y : Float) : Except RuntimeFault Value :=
  match operator.kind with
  | .minus => .ok (.number (x - y))
  | .star => .ok (.number (x * y))
  | .slash => if y == 0.0 then .error .divisionByZero else .ok (.number (x / y))
  | .greater => .ok (.bool (y < x))
  | .greaterEqual => .ok (.bool (y ≤ x))
  | .less => .ok (.bool (x < y))
  | .lessEqual => .ok (.bool (x ≤ y))
  | _ => .error (.unknownBinary operator.lexeme)

/-- The value of a binary operator, or what is wrong with it. -/
def binaryResult (operator : Token) (left right : Value) : Except RuntimeFault Value :=
  match operator.kind with
  | .equalEqual => .ok (.bool (left.equal right))
  | .bangEqual => .ok (.bool (!left.equal right))
  | .plus => plusResult left right
  | _ =>
    match left, right with
    | .number x, .number y => numericResult operator x y
    | _, _ => .error (.operandsNotNumbers operator.lexeme left.typeName right.typeName)

/-- Whether a logical operator is decided by its left operand: `or` by a true one, any other by a
false one. -/
def decides (operator : Token) (left : Value) : Bool :=
  if operator.kind = .or then left.truthy else !left.truthy

/-- The result of an operator as an action that fails at its token. -/
def resultAt (operator : Token) : Except RuntimeFault Value → Run Value
  | .ok value => pure value
  | .error fault => Run.fail operator fault

/-- The values of all elements, in order. -/
def evaluateAll (evaluate : Expr → Run Value) : List Expr → Run (List Value)
  | [] => pure []
  | e :: rest => do
    let value ← evaluate e
    let values ← evaluateAll evaluate rest
    pure (value :: values)

/-- Executes statements in order, up to one that returns. -/
def executeAll (execute : Statement → Run Completion) : List Statement → Run Completion
  | [] => pure .normal
  | s :: rest => do
    match ← execute s with
    | .normal => executeAll execute rest
    | .returned value => pure (.returned value)

/-- Executes a body as long as a condition is true and the body does not return. -/
def repeatWhile (condition : Run Value) (body : Run Completion) : (rounds : Nat) → Run Completion
  | 0 => Run.abort .roundsExhausted
  | rounds + 1 => do
    if (← condition).truthy then
      match ← body with
      | .normal => repeatWhile condition body rounds
      | .returned value => pure (.returned value)
    else pure .normal

section
variable (rounds : Nat)

mutual

def evaluate : (room : Nat) → Expr → Run Value
  | 0, _ => Run.abort .stackExhausted
  | _ + 1, .literal value => pure value.value
  | room + 1, .grouping inner => evaluate room inner
  | room + 1, .unary operator operand => unary room operator operand
  | room + 1, .binary left operator right => binary room left operator right
  | room + 1, .logical left operator right => logical room left operator right
  | room + 1, .ternary condition thenBranch elseBranch => do
    if (← evaluate room condition).truthy then evaluate room thenBranch
    else evaluate room elseBranch
  | _ + 1, .access site name => Run.lookUp site name
  | room + 1, .assign site name value => assign room site name value
  | room + 1, .call callee paren arguments => call room callee paren arguments
  | _ + 1, .function _ parameters body => Run.close none parameters body

def unary : (room : Nat) → Token → Expr → Run Value
  | 0, _, _ => Run.abort .stackExhausted
  | room + 1, operator, operand => do
    let value ← Run.guardStack operator (evaluate room operand)
    resultAt operator (unaryResult operator value)

def binary : (room : Nat) → Expr → Token → Expr → Run Value
  | 0, _, _, _ => Run.abort .stackExhausted
  | room + 1, left, operator, right => do
    let x ← Run.guardStack operator (evaluate room left)
    let y ← Run.guardStack operator (evaluate room right)
    resultAt operator (binaryResult operator x y)

/-- The deciding operand itself is the value, and the right one is evaluated only if it decides. -/
def logical : (room : Nat) → Expr → Token → Expr → Run Value
  | 0, _, _, _ => Run.abort .stackExhausted
  | room + 1, left, operator, right => do
    let value ← evaluate room left
    if decides operator value then pure value else evaluate room right

def assign : (room : Nat) → Site → Token → Expr → Run Value
  | 0, _, _, _ => Run.abort .stackExhausted
  | room + 1, site, name, e => do
    let value ← evaluate room e
    Run.assign site name value
    pure value

/-- The function comes before the arguments, and both before anything is said about them. The list
of arguments costs a unit of its own. -/
def call : (room : Nat) → Expr → Token → List Expr → Run Value
  | room + 2, callee, paren, arguments => do
    let value ← evaluate (room + 1) callee
    let values ← evaluateAll (evaluate room) arguments
    match value with
    | .function f =>
      if values.length = f.arity then Run.guardStack paren (invoke (room + 1) f values)
      else Run.fail paren (.wrongArity f.arity values.length)
    | _ => Run.fail paren .notCallable
  | _, _, _, _ => Run.abort .stackExhausted

/-- Runs a function on arguments, without regard to their number. -/
def invoke : (room : Nat) → Function → List Value → Run Value
  | 0, _, _ => Run.abort .stackExhausted
  | _ + 1, .host h, arguments => Run.callHost h arguments
  | room + 1, .closure c, arguments => do
    let frame ← Run.openFrame c.scope c.parameters arguments
    match ← block room frame c.body with
    | .normal => pure .nil
    | .returned value => pure value

/-- Executes statements in a scope of their own. -/
def block : (room : Nat) → ScopeId → List Statement → Run Completion
  | 0, _, _ => Run.abort .stackExhausted
  | room + 1, scope, statements => Run.within scope (executeAll (execute room) statements)

def execute : (room : Nat) → Statement → Run Completion
  | 0, _ => Run.abort .stackExhausted
  | room + 1, .block statements => do
    let inner ← Run.fork (← Run.here)
    block room inner statements
  | room + 1, .expression e => do
    let _ ← evaluate room e
    pure .normal
  | _ + 1, .function name parameters body => do
    let f ← Run.close (some name.lexeme) parameters body
    Run.define name.lexeme f
    pure .normal
  | room + 1, .ifElse condition thenBranch elseBranch => do
    if (← evaluate room condition).truthy then execute room thenBranch
    else match elseBranch with
      | none => pure .normal
      | some s => execute room s
  | room + 1, .print e => do
    Run.print (← evaluate room e).display
    pure .normal
  | _ + 1, .return _ none => pure (.returned .nil)
  | room + 1, .return _ (some e) => do
    pure (.returned (← evaluate room e))
  | _ + 1, .var name none => do
    Run.define name.lexeme .nil
    pure .normal
  | room + 1, .var name (some e) => do
    Run.define name.lexeme (← evaluate room e)
    pure .normal
  | room + 1, .while condition body =>
    repeatWhile (evaluate room condition) (execute room body) rounds

end

end

end Eval
end Lox

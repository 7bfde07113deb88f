import Lox.Binding
import Lox.Value

/-!
# The machine that runs programs

Its state: the scopes, the scope that is current, the table of bound uses, what was printed, and the
next free function identity. An action of the machine ends with a result or a failure, and with the
state that it left behind in either case. A failure is an error of the program, which is reported,
or something that ends the whole run.
-/
namespace Lox

/-- What went wrong in a program that was running. -/
inductive RuntimeFault where
  | stackOverflow
  | operandNotNumber
  | operandsNotNumbers (operator left right : String)
  | operandsNotAddable
  | divisionByZero
  | unknownUnary (operator : String)
  | unknownBinary (operator : String)
  | notCallable
  | wrongArity (expected given : Nat)
  | undefinedVariable (name : String)
  deriving Repr, DecidableEq

def RuntimeFault.message : RuntimeFault → String
  | .stackOverflow => "Stack overflow."
  | .operandNotNumber => "Operand must be a number."
  | .operandsNotNumbers operator left right =>
    "Operands of '" ++ operator ++ "' must be numbers, got " ++ left ++ " and " ++ right ++ "."
  | .operandsNotAddable => "Operands must be two numbers or two strings."
  | .divisionByZero => "Division by zero."
  | .unknownUnary operator => "Unknown unary operator '" ++ operator ++ "'."
  | .unknownBinary operator => "Unknown binary operator '" ++ operator ++ "'."
  | .notCallable => "Can only call functions."
  | .wrongArity expected given =>
    "Expected " ++ toString expected ++ " arguments but got " ++ toString given ++ "."
  | .undefinedVariable name => "Undefined variable '" ++ name ++ "'."

/-- An error of a program, at the token that caused it. -/
structure RuntimeError where
  token : Token
  fault : RuntimeFault
  deriving Repr, DecidableEq

def RuntimeError.diagnostic (e : RuntimeError) : Diagnostic :=
  .runtime e.token.line e.fault.message

/-- What ends a run without being an error of the program. -/
inductive Abort where
  /-- The nesting needs more stack than there is. -/
  | stackExhausted
  /-- A loop took more rounds than it may. -/
  | roundsExhausted
  /-- A variable was looked for outside of the global scope. -/
  | pastGlobal
  /-- A host function asked for an argument that it was not given. -/
  | missingArgument
  /-- A token was looked at behind the last one. -/
  | missingToken
  /-- Something that is no function was used as one. -/
  | noFunction
  deriving Repr, DecidableEq

inductive Failure where
  | error (e : RuntimeError)
  | abort (a : Abort)
  deriving Repr, DecidableEq

/-- What every reading of the clock gives, in seconds, and how often it was read. -/
structure Clock where
  readings : Nat → Float
  taken : Nat

namespace Clock

/-- What the next reading gives. -/
def reading (c : Clock) : Float := c.readings c.taken

/-- The clock when it was read once more. -/
def next (c : Clock) : Clock := { c with taken := c.taken + 1 }

/-- A clock that goes on by a hundredth of a millisecond from one reading to the next. -/
def steady (first : Float) : Clock := ⟨fun n => first + n.toFloat * 0.00001, 0⟩

/-- A number stands for the clock that goes on from it. -/
instance : OfScientific Clock :=
  ⟨fun mantissa negative exponent => steady (OfScientific.ofScientific mantissa negative exponent)⟩

instance {n : Nat} : OfNat Clock n := ⟨steady (OfNat.ofNat n)⟩

end Clock

structure Machine where
  store : Store Value
  scope : ScopeId
  table : Binding.Table
  /-- The printed texts, newest first. -/
  output : List String
  nextIdentity : Nat
  clock : Clock

abbrev Run := EStateM Failure Machine

namespace Machine

/-- A machine before its first program, with the functions of the host as globals. -/
def start (hosts : List HostFunction) (clock : Clock) : Machine where
  store := hosts.foldl
    (fun s h => s.define Store.global h.name (.function (.host h))) Store.initial
  scope := Store.global
  table := []
  output := []
  nextIdentity := 0
  clock := clock

/-- The printed texts in the order in which they were printed. -/
def printed (m : Machine) : List String := m.output.reverse

end Machine

namespace Run

def abort {α : Type} (a : Abort) : Run α := fun m => .error (.abort a) m

def fail {α : Type} (token : Token) (fault : RuntimeFault) : Run α := fun m =>
  .error (.error ⟨token, fault⟩) m

/-- The failure of an access to the variable of this name. -/
def accessFailure (name : Token) : AccessFault → Failure
  | .undefined => .error ⟨name, .undefinedVariable name.lexeme⟩
  | .pastGlobal => .abort .pastGlobal

/-- The scope that holds the variable of a use: the one that the table says, or the global one. -/
def holder (m : Machine) (site : Site) (name : Token) : Except AccessFault ScopeId :=
  match m.table.lookup site with
  | some hops => m.store.holderAt hops m.scope name.lexeme
  | none => m.store.holder Store.global name.lexeme

/-- The value of a use. -/
def lookUp (site : Site) (name : Token) : Run Value := fun m =>
  match holder m site name >>= fun scope => m.store.getIn scope name.lexeme with
  | .ok value => .ok value m
  | .error fault => .error (accessFailure name fault) m

/-- Assigns to a use. -/
def assign (site : Site) (name : Token) (value : Value) : Run Unit := fun m =>
  match holder m site name with
  | .ok scope => .ok () { m with store := m.store.define scope name.lexeme value }
  | .error fault => .error (accessFailure name fault) m

/-- Defines a name in the current scope. -/
def define (name : String) (value : Value) : Run Unit := fun m =>
  .ok () { m with store := m.store.define m.scope name value }

def print (text : String) : Run Unit := fun m => .ok () { m with output := text :: m.output }

/-- A function of the program that closes over the current scope. -/
def close (name : Option String) (parameters : List Token) (body : List Statement) : Run Value :=
  fun m =>
    let c : Closure := ⟨m.nextIdentity, name, parameters, body, m.scope⟩
    .ok (.function (.closure c)) { m with nextIdentity := m.nextIdentity + 1 }

/-- The current scope. -/
def here : Run ScopeId := fun m => .ok m.scope m

/-- Opens a scope inside another one and answers its number. -/
def fork (parent : ScopeId) : Run ScopeId := fun m =>
  .ok m.store.size { m with store := m.store.fork parent }

/-- Opens the scope of a call: inside the scope of the function, with a value for every parameter
that has an argument. -/
def openFrame (parent : ScopeId) (parameters : List Token) (arguments : List Value) :
    Run ScopeId := fun m =>
  let frame := m.store.size
  let store := (parameters.zip arguments).foldl
    (fun s pair => s.define frame pair.1.lexeme pair.2) (m.store.fork parent)
  .ok frame { m with store := store }

/-- Does something in another scope and comes back to the current one, however it ends. -/
def within {α : Type} (scope : ScopeId) (act : Run α) : Run α := fun m =>
  let previous := m.scope
  match act { m with scope := scope } with
  | .ok a m => .ok a { m with scope := previous }
  | .error e m => .error e { m with scope := previous }

/-- Turns an exhausted stack into an error of the program at a token. -/
def guardStack {α : Type} (token : Token) (act : Run α) : Run α := fun m =>
  match act m with
  | .error (.abort .stackExhausted) m => .error (.error ⟨token, .stackOverflow⟩) m
  | r => r

/-- What a function of the host does with its arguments. -/
def callHost (h : HostFunction) (arguments : List Value) : Run Value := fun m =>
  match h.action with
  | .clock => .ok (.number m.clock.reading) { m with clock := m.clock.next }
  | .give none => .ok .nil m
  | .give (some i) =>
    match arguments[i]? with
    | some value => .ok value m
    | none => .error (.abort .missingArgument) m

end Run
end Lox

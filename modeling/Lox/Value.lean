import Lox.Ast
import Lox.Store

/-!
# Values

What a program computes with: nil, truth values, numbers, strings and functions. A function of the
program remembers the scope that it was made in. Every function has an identity of its own, and
two functions are equal only if they are the same one.
-/
namespace Lox

/-- A function made by a program. -/
structure Closure where
  identity : Nat
  name : Option String
  parameters : List Token
  body : List Statement
  scope : ScopeId

/-- What a function of the host does. -/
inductive HostAction where
  /-- Reads the clock. -/
  | clock
  /-- Returns the argument at this place, or nil. -/
  | give (argument : Option Nat)
  deriving Repr, DecidableEq

/-- A function that the host of a program offers. -/
structure HostFunction where
  identity : Nat
  name : String
  arity : Nat
  action : HostAction
  deriving Repr, DecidableEq

inductive Function where
  | closure (c : Closure)
  | host (h : HostFunction)

namespace Function

/-- The number of arguments that a call has to have. -/
def arity : Function → Nat
  | closure c => c.parameters.length
  | host h => h.arity

/-- Whether two functions are one and the same. -/
def same : Function → Function → Bool
  | closure a, closure b => a.identity = b.identity
  | host a, host b => a.identity = b.identity
  | _, _ => false

def text : Function → String
  | closure c => "<fn " ++ c.name.getD "anonymous" ++ ">"
  | host _ => "<native fn>"

end Function

inductive Value where
  | nil
  | bool (b : Bool)
  | number (x : Float)
  | string (s : String)
  | function (f : Function)

instance : Inhabited Value := ⟨.nil⟩

def Literal.value : Literal → Value
  | .nil => .nil
  | .bool b => .bool b
  | .number x => .number x
  | .string s => .string s

namespace Value

def isNumber : Value → Bool
  | number _ => true
  | _ => false

/-- Nil, false, zero and the empty string count as false, all else as true. -/
def truthy : Value → Bool
  | nil => false
  | bool b => b
  | number x => !(x == 0.0)
  | string s => s != ""
  | function _ => true

/-- Values of different types are never equal, nor is the number that is none equal to itself. -/
def equal : Value → Value → Bool
  | nil, nil => true
  | bool a, bool b => a == b
  | number a, number b => a == b
  | string a, string b => a == b
  | function f, function g => f.same g
  | _, _ => false

def typeName : Value → String
  | nil => "nil"
  | bool _ => "boolean"
  | number _ => "number"
  | string _ => "string"
  | function _ => "function"

/-- What a program prints for a value. -/
def display : Value → String
  | nil => "nil"
  | bool true => "true"
  | bool false => "false"
  | number x => Number.display x
  | string s => s
  | function f => f.text

end Value
end Lox

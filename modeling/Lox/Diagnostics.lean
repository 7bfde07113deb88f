import Lox.Token

/-!
# Diagnostics

Everything that is wrong with a program ends up here, in the order in which it is found. Static
entries come from reading a program, run-time entries from executing it; static ones decide the exit
status, and once there is one nothing is executed.
-/
namespace Lox

inductive Diagnostic where
  /-- Found before execution: the line, where on it, and what. -/
  | static (line : Int) (place : String) (message : String)
  /-- The failure that ended an execution. -/
  | runtime (line : Int) (message : String)
  deriving Repr, DecidableEq

namespace Diagnostic

/-- How a token is pointed at within its line. -/
def placeOf (t : Token) : String :=
  if t.kind = .eof then " at end" else " at '" ++ t.lexeme ++ "'"

/-- A static diagnostic at a token. -/
def atToken (t : Token) (message : String) : Diagnostic := .static t.line (placeOf t) message

def text : Diagnostic → String
  | .static line place message => "[line " ++ toString line ++ "] Error" ++ place ++ ": " ++ message
  | .runtime line message => message ++ "\n[line " ++ toString line ++ "]"

def isStatic : Diagnostic → Bool
  | .static _ _ _ => true
  | .runtime _ _ => false

end Diagnostic

/-- The diagnostics so far, newest first. -/
structure Diagnostics where
  newest : List Diagnostic
  deriving Repr, DecidableEq, Inhabited

namespace Diagnostics

def empty : Diagnostics := ⟨[]⟩

def add (d : Diagnostics) (entry : Diagnostic) : Diagnostics := ⟨entry :: d.newest⟩

def addAll (d : Diagnostics) (entries : List Diagnostic) : Diagnostics := entries.foldl add d

/-- The diagnostics in the order in which they were found. -/
def toList (d : Diagnostics) : List Diagnostic := d.newest.reverse

def hasStatic (d : Diagnostics) : Bool := d.newest.any Diagnostic.isStatic

def hasRuntime (d : Diagnostics) : Bool := d.newest.any (!·.isStatic)

/-- The status of a process that ends with these diagnostics. -/
def exitStatus (d : Diagnostics) : Nat :=
  if d.hasStatic then 65 else if d.hasRuntime then 70 else 0

def texts (d : Diagnostics) : List String := d.toList.map Diagnostic.text

@[simp] theorem toList_empty : empty.toList = [] := rfl

@[simp] theorem toList_add (d : Diagnostics) (e : Diagnostic) :
    (d.add e).toList = d.toList ++ [e] := by
  simp [add, toList]

@[simp] theorem toList_addAll (d : Diagnostics) (es : List Diagnostic) :
    (d.addAll es).toList = d.toList ++ es := by
  induction es generalizing d with
  | nil => simp [addAll]
  | cons e es ih => simpa [addAll] using ih (d.add e)

@[simp] theorem hasStatic_add (d : Diagnostics) (e : Diagnostic) :
    (d.add e).hasStatic = (e.isStatic || d.hasStatic) := by
  simp [add, hasStatic]

@[simp] theorem hasRuntime_add (d : Diagnostics) (e : Diagnostic) :
    (d.add e).hasRuntime = (!e.isStatic || d.hasRuntime) := by
  simp [add, hasRuntime]

end Diagnostics
end Lox

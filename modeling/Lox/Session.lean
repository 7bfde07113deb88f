import Lox.Code
import Lox.Eval

/-!
# Sessions

A session runs one unit of code after another on the same machine, and collects their diagnostics.
A unit is read, its names are bound, and only if there is no static diagnostic by then, from this
unit or an earlier one, it is executed. A run-time error ends its unit and becomes a diagnostic.
-/
namespace Lox

/-- How much stack there is, and how many rounds a loop may take. -/
structure Limits where
  room : Nat
  rounds : Nat
  deriving Repr, DecidableEq

def Limits.standard : Limits := ⟨10000, Nat.pow 10 18⟩

structure Session where
  machine : Machine
  diagnostics : Diagnostics
  nextSite : Site

/-- The clock as a function of every program. -/
def clockFunction : HostFunction := ⟨0, "clock", 0, .clock⟩

/-- An action on a session; what ends it early is not a diagnostic. -/
abbrev Step := EStateM Failure Session

namespace Session

/-- A session before its first unit, with more functions of the host beside the clock. -/
def start (clock : Clock) (hosts : List HostFunction) : Session :=
  ⟨Machine.start (clockFunction :: hosts) clock, .empty, 0⟩

/-- Whether nothing may be executed. -/
def blocked : Step Bool := fun s => .ok s.diagnostics.hasStatic s

def addAll (entries : List Diagnostic) : Step Unit := fun s =>
  .ok () { s with diagnostics := s.diagnostics.addAll entries }

/-- Starts a new list of diagnostics. -/
def clearDiagnostics : Step Unit := fun s => .ok () { s with diagnostics := .empty }

/-- Does something on the machine. -/
def onMachine {α : Type} (act : Run α) : Step α := fun ⟨machine, diagnostics, nextSite⟩ =>
  match act machine with
  | .ok a machine => .ok a ⟨machine, diagnostics, nextSite⟩
  | .error e machine => .error e ⟨machine, diagnostics, nextSite⟩

/-- Turns an error of the program into a diagnostic and a missing result. -/
def reporting {α : Type} (act : Step (Option α)) : Step (Option α) := fun s =>
  match act s with
  | .error (.error e) s => .ok none { s with diagnostics := s.diagnostics.add e.diagnostic }
  | r => r

/-- Reads a unit of code; its variable uses get sites that no earlier unit has. -/
def read (limits : Limits) (mode : Mode) (source : String) : Step Code := fun s =>
  match Code.ofSource? mode limits.room s.nextSite source with
  | none => .error (.abort .missingToken) s
  | some r => .ok r.code
      { s with diagnostics := s.diagnostics.addAll r.diagnostics, nextSite := r.nextSite }

/-- Adds the bound uses of a unit to the table. -/
def install (entries : List Binding.Entry) : Step Unit := onMachine fun m =>
  .ok () { m with table := m.table.install entries }

/-- Binds the names of a unit. All or nothing of it gets into the table. -/
def bindNames (limits : Limits) (unit : Code) : Step Unit := do
  let resolved := Binding.resolve limits.room unit
  addAll (resolved.reports.map (·.diagnostic))
  if resolved.complete then install resolved.entries
  else onMachine (Run.abort .stackExhausted)

/-- Executes a unit whose names are bound. An expression has its text as result, which is printed
too. -/
def interpret (limits : Limits) (unit : Code) : Step (Option String) :=
  reporting <| onMachine <|
    match unit with
    | .program statements => do
      let _ ← Eval.executeAll (Eval.execute limits.rounds limits.room) statements
      pure none
    | .expression none => pure none
    | .expression (some e) => do
      let text := (← Eval.evaluate limits.rounds limits.room e).display
      Run.print text
      pure (some text)

/-- Reads, binds and executes a source text, as far as there is no static diagnostic. -/
def perform (limits : Limits) (mode : Mode) (source : String) : Step (Option String) := do
  let unit ← read limits mode source
  if ← blocked then pure none
  else if unit.isMissing then pure none
  else
    bindNames limits unit
    if ← blocked then pure none else interpret limits unit

/-- Runs a program. -/
def run (limits : Limits) (source : String) : Step Unit := do
  let _ ← perform limits .program source

/-- Evaluates an expression; the result is the text that it printed, if any. -/
def evaluate (limits : Limits) (source : String) : Step (Option String) :=
  perform limits .expression source

/-- Defines a global variable. -/
def define (name : String) (value : Value) : Step Unit := onMachine fun m =>
  .ok () { m with store := m.store.define Store.global name value }

/-- The token that stands for a name that no program text holds. -/
def outsideName (name : String) : Token := ⟨.identifier, name, .nil, 0⟩

/-- The value of a global variable. -/
def value (name : String) : Step Value := onMachine fun m =>
  match m.store.get Store.global name with
  | .ok value => .ok value m
  | .error fault => .error (Run.accessFailure (outsideName name) fault) m

/-- The function that a global variable holds. -/
def function (name : String) : Step Function := do
  match ← value name with
  | .function f => pure f
  | _ => onMachine (Run.abort .noFunction)

def arity (name : String) : Step Nat := do
  pure (← function name).arity

/-- Calls a global function on any number of arguments. -/
def call (limits : Limits) (name : String) (arguments : List Value) : Step Value := do
  let f ← function name
  onMachine (Eval.invoke limits.rounds limits.room f arguments)

/-- Whether a global is the clock that every session begins with. -/
def isBuiltIn : String × Value → Bool
  | (name, .function f) => name == clockFunction.name && f.same (.host clockFunction)
  | _ => false

/-- The globals by name, without the clock unless it was replaced. -/
def globals (s : Session) : List (String × Value) :=
  let values := ((s.machine.store.scope? Store.global).map (·.values)).getD []
  (values.filter (!isBuiltIn ·)).mergeSort (fun a b => decide (a.1 ≤ b.1))

def atGlobalScope (s : Session) : Bool := s.machine.scope = Store.global

end Session
end Lox

import Lox.Ast
import Lox.Grammar.Fault

/-!
# Reading along a list of tokens

A `Reader` moves a cursor over tokens, collects reports and numbers the uses of variables. It ends
with a value or is stopped, and even then keeps the cursor where it was, so that reading can go on
from there.
-/
namespace Lox.Grammar

/-- A fault and the token that it is reported at. -/
structure Report where
  token : Token
  fault : Fault
  deriving Repr, DecidableEq

/-- The tokens that are left, the token that stands for every place past them, the reports so far
with the newest first, and the next free site. -/
structure Cursor where
  rest : List Token
  last : Token
  reports : List Report
  nextSite : Site
  deriving Repr, DecidableEq

namespace Cursor

def current (c : Cursor) : Token := c.rest.headD c.last

/-- The token after the current one. -/
def second (c : Cursor) : Token := c.rest.tail.headD c.last

def atEnd (c : Cursor) : Bool := c.current.kind = .eof

/-- Moves past the current token; the end token is never passed. -/
def advance (c : Cursor) : Cursor := if c.atEnd then c else { c with rest := c.rest.tail }

def report (c : Cursor) (token : Token) (fault : Fault) : Cursor :=
  { c with reports := ⟨token, fault⟩ :: c.reports }

/-- As many elements as there can be rounds in a loop that reads a token in each. -/
def ahead (c : Cursor) : List Token := c.last :: c.rest

@[simp] theorem current_report (c : Cursor) (t : Token) (f : Fault) :
    (c.report t f).current = c.current := rfl

theorem advance_of_atEnd {c : Cursor} (h : c.atEnd = true) : c.advance = c := by
  simp [advance, h]

theorem advance_rest {c : Cursor} (h : c.atEnd = false) : c.advance.rest = c.rest.tail := by
  simp [advance, h]

end Cursor

/-- Why a reader was stopped: a fault that is already reported, or nesting too deep to go on. -/
inductive Stop where
  | fault
  | tooDeep
  deriving Repr, DecidableEq

abbrev Reader := EStateM Stop Cursor

def current : Reader Token := fun c => .ok c.current c

/-- The bound of a loop that starts here. -/
def ahead : Reader (List Token) := fun c => .ok c.ahead c

def advance : Reader Token := fun c => .ok c.current c.advance

def report (token : Token) (fault : Fault) : Reader Unit := fun c => .ok () (c.report token fault)

def tooDeep {α : Type} : Reader α := fun c => .error .tooDeep c

/-- Reports a fault at the current token and stops. -/
def fail {α : Type} (fault : Fault) : Reader α := fun c => .error .fault (c.report c.current fault)

/-- A site that no other use of a variable has. -/
def freshSite : Reader Site := fun c => .ok c.nextSite { c with nextSite := c.nextSite + 1 }

/-- Whether the current token is of this kind, which is not the kind of the end token. -/
def check (kind : Token.Kind) : Reader Bool := fun c => .ok (c.current.kind = kind) c

/-- Reads a token of one of these kinds if there is one. -/
def accept (kinds : List Token.Kind) : Reader (Option Token) := fun c =>
  if c.current.kind ∈ kinds then .ok (some c.current) c.advance else .ok none c

/-- Reads a token of this kind or fails. -/
def expect (kind : Token.Kind) (what : Expected) : Reader Token := fun c =>
  if c.current.kind = kind then .ok c.current c.advance
  else .error .fault (c.report c.current (.expected what))

end Lox.Grammar

import Lox.Ast.Print
import Lox.Diagnostics
import Lox.Grammar
import Lox.Token.Scan

/-!
# Code from text

Reading a source text as a program or as a single expression: scanning, then the grammar. Faults of
both become diagnostics, those of the scanner first.
-/
namespace Lox

/-- What a text is read as. -/
inductive Mode where
  | program
  | expression
  deriving Repr, DecidableEq

def Token.Fault.diagnostic (line : Int) (fault : Token.Fault) : Diagnostic :=
  .static line "" fault.message

def Grammar.Report.diagnostic (r : Grammar.Report) : Diagnostic := .atToken r.token r.fault.message

namespace Code

/-- What was read, what was wrong with it, and the next free site. -/
structure Reading where
  code : Code
  diagnostics : List Diagnostic
  nextSite : Site

/-- Reads code from tokens. No answer means that the tokens have no end token and were looked at
past their end. -/
def ofTokens? (mode : Mode) (room : Nat) (nextSite : Site) (tokens : List Token) :
    Option Reading :=
  match mode with
  | .program => (Grammar.program? room nextSite tokens).map fun p =>
      ⟨.program p.tree, p.reports.map (·.diagnostic), p.nextSite⟩
  | .expression => (Grammar.expression? room nextSite tokens).map fun p =>
      ⟨.expression p.tree, p.reports.map (·.diagnostic), p.nextSite⟩

/-- The diagnostics of a scan. -/
def scanDiagnostics (scanned : Token.Scanned) : List Diagnostic :=
  scanned.faults.map fun (line, fault) => fault.diagnostic line

/-- Reads code from a source text. -/
def ofSource? (mode : Mode) (room : Nat) (nextSite : Site) (source : String) : Option Reading :=
  let scanned := Token.scan source
  (ofTokens? mode room nextSite scanned.tokens).map fun r =>
    { r with diagnostics := scanDiagnostics scanned ++ r.diagnostics }

/-- Whether there is nothing to bind or execute because an expression could not be read. -/
def isMissing : Code → Bool
  | .expression none => true
  | _ => false

/-- The text of each statement, or of the expression; a missing expression has the empty text. -/
def print? (room : Nat) : Code → Option (List String)
  | .program statements => statements.mapM (·.print? room)
  | .expression none => some [""]
  | .expression (some e) => (e.print? room).map ([·])

end Code
end Lox

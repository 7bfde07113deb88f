/-!
# What can be wrong with the grammar of a program

Each fault is reported at a token. Most name something that should have stood there.
-/
namespace Lox.Grammar

/-- What should have come next. -/
inductive Expected where
  | expression
  | variableName
  | parameterName
  | parenAfterFun
  | parenAfterFunctionName
  | parenAfterParameters
  | braceBeforeBody
  | semicolonAfterVariable
  | braceAfterBlock
  | parenAfterFor
  | semicolonAfterLoopCondition
  | parenAfterForClauses
  | parenAfterIf
  | parenAfterIfCondition
  | parenAfterWhile
  | parenAfterWhileCondition
  | semicolonAfterReturn
  | semicolonAfterPrint
  | semicolonAfterExpression
  | colonInTernary
  | parenAfterArguments
  | parenAfterGrouping
  deriving Repr, DecidableEq

def Expected.text : Expected → String
  | .expression => "expression"
  | .variableName => "variable name"
  | .parameterName => "parameter name"
  | .parenAfterFun => "'(' after 'fun'"
  | .parenAfterFunctionName => "'(' after function name"
  | .parenAfterParameters => "')' after parameters"
  | .braceBeforeBody => "'\x7b' before function body"
  | .semicolonAfterVariable => "';' after variable declaration"
  | .braceAfterBlock => "'\x7d' after block"
  | .parenAfterFor => "'(' after 'for'"
  | .semicolonAfterLoopCondition => "';' after loop condition"
  | .parenAfterForClauses => "')' after for clauses"
  | .parenAfterIf => "'(' after 'if'"
  | .parenAfterIfCondition => "')' after if condition"
  | .parenAfterWhile => "'(' after 'while'"
  | .parenAfterWhileCondition => "')' after condition"
  | .semicolonAfterReturn => "';' after return value"
  | .semicolonAfterPrint => "';' after value"
  | .semicolonAfterExpression => "';' after expression"
  | .colonInTernary => "':' after then branch of ternary operator"
  | .parenAfterArguments => "')' after arguments"
  | .parenAfterGrouping => "')' after expression"

/-- The greatest number of arguments or parameters without a report. -/
def maxArguments : Nat := 255

inductive Fault where
  | expected (what : Expected)
  | invalidAssignmentTarget
  | tooManyParameters
  | tooManyArguments
  | tooMuchNesting
  deriving Repr, DecidableEq

def Fault.message : Fault → String
  | .expected what => "Expect " ++ what.text ++ "."
  | .invalidAssignmentTarget => "Invalid assignment target."
  | .tooManyParameters => "Can't have more than " ++ toString maxArguments ++ " parameters."
  | .tooManyArguments => "Can't have more than " ++ toString maxArguments ++ " arguments."
  | .tooMuchNesting => "Too much nesting."

end Lox.Grammar

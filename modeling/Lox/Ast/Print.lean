import Lox.Ast

/-!
# Trees as text

Each node is written as a parenthesised head followed by its parts; names and literals stand for
themselves. `frames` is the number of nested calls that writing a tree takes, one for a node and one
more for a list of children.
-/
namespace Lox

/-- `(head part part …)`. -/
def parenthesized (head : String) (parts : List String) : String :=
  "(" ++ " ".intercalate (head :: parts) ++ ")"

def Literal.text : Literal → String
  | .nil => "nil"
  | .bool true => "true"
  | .bool false => "false"
  | .number x => Number.literal x
  | .string s => s

/-- A function is written with its name, its parameters and the statements of its body. -/
def functionText (name : String) (parameters : List Token) (body : List String) : String :=
  parenthesized "fun" (name :: ("(" ++ " ".intercalate (parameters.map (·.lexeme)) ++ ")") :: body)

mutual

def Expr.text : Expr → String
  | .literal value => value.text
  | .grouping inner => parenthesized "group" [inner.text]
  | .unary operator operand => parenthesized operator.lexeme [operand.text]
  | .binary left operator right => parenthesized operator.lexeme [left.text, right.text]
  | .logical left operator right => parenthesized operator.lexeme [left.text, right.text]
  | .ternary condition thenBranch elseBranch =>
    parenthesized "?:" [condition.text, thenBranch.text, elseBranch.text]
  | .access _ name => name.lexeme
  | .assign _ name value => parenthesized "=" [name.lexeme, value.text]
  | .call callee _ arguments => parenthesized "call" (callee.text :: Expr.texts arguments)
  | .function _ parameters body => functionText "anonymous" parameters (Statement.texts body)

def Expr.texts : List Expr → List String
  | [] => []
  | e :: rest => e.text :: Expr.texts rest

def Statement.text : Statement → String
  | .block statements => parenthesized "block" (Statement.texts statements)
  | .expression value => parenthesized "expr" [value.text]
  | .function name parameters body =>
    functionText name.lexeme parameters (Statement.texts body)
  | .ifElse condition thenBranch none => parenthesized "if" [condition.text, thenBranch.text]
  | .ifElse condition thenBranch (some elseBranch) =>
    parenthesized "if" [condition.text, thenBranch.text, elseBranch.text]
  | .print value => parenthesized "print" [value.text]
  | .return _ none => "(return)"
  | .return _ (some value) => parenthesized "return" [value.text]
  | .var name none => parenthesized "var" [name.lexeme]
  | .var name (some value) => parenthesized "var" [name.lexeme, value.text]
  | .while condition body => parenthesized "while" [condition.text, body.text]

def Statement.texts : List Statement → List String
  | [] => []
  | s :: rest => s.text :: Statement.texts rest

end

mutual

def Expr.frames : Expr → Nat
  | .literal _ => 1
  | .grouping inner => inner.frames + 1
  | .unary _ operand => operand.frames + 1
  | .binary left _ right => max left.frames right.frames + 1
  | .logical left _ right => max left.frames right.frames + 1
  | .ternary condition thenBranch elseBranch =>
    max condition.frames (max thenBranch.frames elseBranch.frames) + 1
  | .access _ _ => 1
  | .assign _ _ value => value.frames + 1
  | .call callee _ arguments => max callee.frames (Expr.listFrames arguments + 1) + 1
  | .function _ _ body => Statement.listFrames body + 3

def Expr.listFrames : List Expr → Nat
  | [] => 0
  | e :: rest => max e.frames (Expr.listFrames rest)

def Statement.frames : Statement → Nat
  | .block statements => Statement.listFrames statements + 2
  | .expression value => value.frames + 1
  | .function _ _ body => Statement.listFrames body + 3
  | .ifElse condition thenBranch none => max condition.frames thenBranch.frames + 1
  | .ifElse condition thenBranch (some elseBranch) =>
    max condition.frames (max thenBranch.frames elseBranch.frames) + 1
  | .print value => value.frames + 1
  | .return _ none => 1
  | .return _ (some value) => value.frames + 1
  | .var _ none => 1
  | .var _ (some value) => value.frames + 1
  | .while condition body => max condition.frames body.frames + 1

def Statement.listFrames : List Statement → Nat
  | [] => 0
  | s :: rest => max s.frames (Statement.listFrames rest)

end

/-- The text of an expression, unless writing it takes more stack than there is. -/
def Expr.print? (room : Nat) (e : Expr) : Option String :=
  if e.frames ≤ room then some e.text else none

def Statement.print? (room : Nat) (s : Statement) : Option String :=
  if s.frames ≤ room then some s.text else none

end Lox

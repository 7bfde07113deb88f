import Lox.Token

/-!
# Syntax trees

Expressions and statements. A tree keeps the tokens that later messages point at: names, operators,
closing parentheses and keywords. Every use of a variable carries a site, a number that no other
use shares, so that two uses spelled alike are still two different uses.
-/
namespace Lox

/-- Identifies one use of a variable among all trees of a session. -/
abbrev Site := Nat

mutual

inductive Expr where
  | literal (value : Literal)
  | grouping (inner : Expr)
  | unary (operator : Token) (operand : Expr)
  | binary (left : Expr) (operator : Token) (right : Expr)
  | logical (left : Expr) (operator : Token) (right : Expr)
  | ternary (condition thenBranch elseBranch : Expr)
  | access (site : Site) (name : Token)
  | assign (site : Site) (name : Token) (value : Expr)
  | call (callee : Expr) (paren : Token) (arguments : List Expr)
  | function (keyword : Token) (parameters : List Token) (body : List Statement)

inductive Statement where
  | block (statements : List Statement)
  | expression (value : Expr)
  | function (name : Token) (parameters : List Token) (body : List Statement)
  | ifElse (condition : Expr) (thenBranch : Statement) (elseBranch : Option Statement)
  | print (value : Expr)
  | return (keyword : Token) (value : Option Expr)
  | var (name : Token) (initializer : Option Expr)
  | while (condition : Expr) (body : Statement)

end

instance : Inhabited Expr := ⟨.literal .nil⟩
instance : Inhabited Statement := ⟨.block []⟩

/-- One unit of code: a list of statements, or a single expression that may be missing. -/
inductive Code where
  | program (statements : List Statement)
  | expression (value : Option Expr)
  deriving Inhabited

end Lox

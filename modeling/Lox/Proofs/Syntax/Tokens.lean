import Lox.Ast

/-!
# The tokens of a tree

The tokens that a tree keeps, in the order of its parts.
-/
namespace Lox

mutual

def Expr.tokens : Expr → List Token
  | .literal _ => []
  | .grouping inner => inner.tokens
  | .unary operator operand => operator :: operand.tokens
  | .binary left operator right => left.tokens ++ operator :: right.tokens
  | .logical left operator right => left.tokens ++ operator :: right.tokens
  | .ternary condition thenBranch elseBranch =>
    condition.tokens ++ (thenBranch.tokens ++ elseBranch.tokens)
  | .access _ name => [name]
  | .assign _ name value => name :: value.tokens
  | .call callee paren arguments => callee.tokens ++ (Expr.allTokens arguments ++ [paren])
  | .function keyword parameters body => keyword :: (parameters ++ Statement.allTokens body)

def Expr.allTokens : List Expr → List Token
  | [] => []
  | e :: rest => e.tokens ++ Expr.allTokens rest

def Statement.tokens : Statement → List Token
  | .block statements => Statement.allTokens statements
  | .expression value => value.tokens
  | .function name parameters body => name :: (parameters ++ Statement.allTokens body)
  | .ifElse condition thenBranch none => condition.tokens ++ thenBranch.tokens
  | .ifElse condition thenBranch (some elseBranch) =>
    condition.tokens ++ (thenBranch.tokens ++ elseBranch.tokens)
  | .print value => value.tokens
  | .return keyword none => [keyword]
  | .return keyword (some value) => keyword :: value.tokens
  | .var name none => [name]
  | .var name (some initializer) => name :: initializer.tokens
  | .while condition body => condition.tokens ++ body.tokens

def Statement.allTokens : List Statement → List Token
  | [] => []
  | s :: rest => s.tokens ++ Statement.allTokens rest

end

theorem Expr.allTokens_eq_flatMap (es : List Expr) :
    Expr.allTokens es = es.flatMap Expr.tokens := by
  induction es with
  | nil => rfl
  | cons e es ih => simp [Expr.allTokens, ih]

theorem Statement.allTokens_eq_flatMap (ss : List Statement) :
    Statement.allTokens ss = ss.flatMap Statement.tokens := by
  induction ss with
  | nil => rfl
  | cons s ss ih => simp [Statement.allTokens, ih]

end Lox

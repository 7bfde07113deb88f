import Lox.Ast

/-!
# The shape of a tree

Two trees have the same shape if they differ in nothing but the sites of the uses of variables.
-/
namespace Lox

mutual

/-- The tree with all its sites forgotten. -/
def Expr.shape : Expr → Expr
  | .literal value => .literal value
  | .grouping inner => .grouping inner.shape
  | .unary operator operand => .unary operator operand.shape
  | .binary left operator right => .binary left.shape operator right.shape
  | .logical left operator right => .logical left.shape operator right.shape
  | .ternary condition thenBranch elseBranch =>
    .ternary condition.shape thenBranch.shape elseBranch.shape
  | .access _ name => .access 0 name
  | .assign _ name value => .assign 0 name value.shape
  | .call callee paren arguments => .call callee.shape paren (Expr.shapes arguments)
  | .function keyword parameters body => .function keyword parameters (Statement.shapes body)

def Expr.shapes : List Expr → List Expr
  | [] => []
  | e :: rest => e.shape :: Expr.shapes rest

def Statement.shape : Statement → Statement
  | .block statements => .block (Statement.shapes statements)
  | .expression value => .expression value.shape
  | .function name parameters body => .function name parameters (Statement.shapes body)
  | .ifElse condition thenBranch none => .ifElse condition.shape thenBranch.shape none
  | .ifElse condition thenBranch (some elseBranch) =>
    .ifElse condition.shape thenBranch.shape (some elseBranch.shape)
  | .print value => .print value.shape
  | .return keyword none => .return keyword none
  | .return keyword (some value) => .return keyword (some value.shape)
  | .var name none => .var name none
  | .var name (some initializer) => .var name (some initializer.shape)
  | .while condition body => .while condition.shape body.shape

def Statement.shapes : List Statement → List Statement
  | [] => []
  | s :: rest => s.shape :: Statement.shapes rest

end

theorem Expr.shapes_eq_map (es : List Expr) : Expr.shapes es = es.map Expr.shape := by
  induction es with
  | nil => rfl
  | cons e es ih => simp [Expr.shapes, ih]

theorem Statement.shapes_eq_map (ss : List Statement) :
    Statement.shapes ss = ss.map Statement.shape := by
  induction ss with
  | nil => rfl
  | cons s ss ih => simp [Statement.shapes, ih]

end Lox

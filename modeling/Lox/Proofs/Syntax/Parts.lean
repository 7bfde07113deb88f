import Lox.Grammar
import Lox.Proofs.Evaluation.Keeping
import Lox.Proofs.Scanning.Lexemes
import Mathlib.Logic.Relation

/-!
# What lies within a tree

A node lies within another if it is that node, or a part of it at any depth. What is said of every
node within a tree is said of its parts again, and follows from what is said of the tree's own node
and of its parts.
-/
namespace Lox

namespace Node

variable {P : Node → Prop} {n p : Node} {k : Nat}

/-- The second node is the first one, or a part of it at any depth. -/
def Within : Node → Node → Prop := Relation.ReflTransGen fun n p => ∃ k, n.Part k p

/-- Every node within a tree is so. -/
def Everywhere (P : Node → Prop) (n : Node) : Prop := ∀ p, n.Within p → P p

theorem Everywhere.here (h : n.Everywhere P) : P n := h n .refl

theorem Everywhere.part (h : n.Everywhere P) (hp : n.Part k p) : p.Everywhere P :=
  fun q hq => h q (.head ⟨k, hp⟩ hq)

theorem Everywhere.of_parts (hn : P n) (hp : ∀ k p, n.Part k p → p.Everywhere P) :
    n.Everywhere P := by
  intro q hq
  rcases Relation.ReflTransGen.cases_head hq with rfl | ⟨p, ⟨k, hpart⟩, hrest⟩
  · exact hn
  · exact hp k p hpart q hrest

end Node

/-- The nodes of a unit. -/
def Code.Has : Code → Node → Prop
  | .program ss, n => ∃ s ∈ ss, (Node.statement s).Within n
  | .expression e, n => ∃ e' ∈ e, (Node.expression e').Within n

namespace Grammar.Level

/-- The operators of all levels that evaluate both operands. -/
def strictOperators : List Token.Kind :=
  equality.operators ++ comparison.operators ++ term.operators ++ factor.operators

def logicalOperators : List Token.Kind := or.operators ++ and.operators

end Grammar.Level

/-- The tokens that a node keeps are of the kinds that the grammar has at their places. -/
def Node.Fits : Node → Prop
  | .expression (.unary operator _) => operator.Fits [.bang, .minus]
  | .expression (.binary _ operator _) => operator.Fits Grammar.Level.strictOperators
  | .expression (.logical _ operator _) => operator.Fits Grammar.Level.logicalOperators
  | .expression (.access _ name) => name.Fits [.identifier]
  | .expression (.assign _ name _) => name.Fits [.identifier]
  | .expression (.call _ paren _) => paren.Fits [.rightParen]
  | .expression (.function keyword parameters _) =>
    keyword.Fits [.fun] ∧ ∀ name ∈ parameters, name.Fits [.identifier]
  | .statement (.function name parameters _) =>
    name.Fits [.identifier] ∧ ∀ name ∈ parameters, name.Fits [.identifier]
  | .statement (.return keyword _) => keyword.Fits [.return]
  | .statement (.var name _) => name.Fits [.identifier]
  | _ => True

/-- Every token that an expression keeps belongs where it is kept. -/
abbrev Expr.Fits (e : Expr) : Prop := (Node.expression e).Everywhere Node.Fits

abbrev Statement.Fits (s : Statement) : Prop := (Node.statement s).Everywhere Node.Fits

end Lox

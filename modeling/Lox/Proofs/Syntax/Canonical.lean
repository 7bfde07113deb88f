import Lox.Grammar

/-!
# Canonical trees

A tree is canonical if it can be written without parentheses beyond those of its groupings: every
operand binds at least as tightly as its place asks for, every branch of a statement is a statement
and no declaration, and an `else` belongs to the nearest `if` before it. The tokens that the tree
keeps are of the kinds that the grammar has at their places.
-/
namespace Lox

namespace Grammar.Level

/-- The place of a level among all tightnesses, which begin with 0 for `?:` and `=`. -/
def tightness : Level → Nat
  | or => 1
  | and => 2
  | equality => 3
  | comparison => 4
  | term => 5
  | factor => 6

/-- Whether the operators of a level may leave their right operand out of the evaluation. -/
def isLogical : Level → Bool
  | or => true
  | and => true
  | _ => false

/-- The level that has an operator of this kind. -/
def ofKind? (kind : Token.Kind) : Option Level :=
  [or, and, equality, comparison, term, factor].find? (kind ∈ ·.operators)

theorem ofKind?_of_mem {level : Level} {kind : Token.Kind} (h : kind ∈ level.operators) :
    ofKind? kind = some level := by
  cases level <;> simp only [operators, List.mem_cons, List.not_mem_nil, or_false] at h <;>
    rcases h with rfl | rfl | rfl | rfl <;> decide

end Grammar.Level

/-- The tightness of an operator that stands between its operands. -/
def Token.tightness (operator : Token) : Nat :=
  ((Grammar.Level.ofKind? operator.kind).map (·.tightness)).getD 0

/-- How tightly the parts of an expression are held together: 0 for `?:` and `=`, 1 to 6 for the
levels of operators, 7 for signs, 8 for calls and 9 for what cannot be taken apart. -/
def Expr.tightness : Expr → Nat
  | .ternary _ _ _ => 0
  | .assign _ _ _ => 0
  | .logical _ operator _ => operator.tightness
  | .binary _ operator _ => operator.tightness
  | .unary _ _ => 7
  | .call _ _ _ => 8
  | _ => 9

def Statement.isDeclaration : Statement → Bool
  | .var _ _ => true
  | .function _ _ _ => true
  | _ => false

/-- Whether a statement ends in an `if` without an `else`, so that an `else` behind it would belong
to that one. -/
def Statement.endsOpen : Statement → Bool
  | .ifElse _ _ none => true
  | .ifElse _ _ (some elseBranch) => elseBranch.endsOpen
  | .while _ body => body.endsOpen
  | _ => false

/-- Whether an operator is one of the level, with operands that are tight enough for it: the left
one may be of the same level, the right one may not. -/
def Grammar.Level.Joins (level : Grammar.Level) (left : Expr) (operator : Token) (right : Expr) :
    Prop :=
  operator.kind ∈ level.operators ∧ level.tightness ≤ left.tightness ∧
    level.tightness < right.tightness

mutual

def Expr.Canonical : Expr → Prop
  | .literal _ => True
  | .grouping inner => inner.Canonical
  | .unary operator operand =>
    operator.kind ∈ [Token.Kind.bang, .minus] ∧ operand.Canonical ∧ 7 ≤ operand.tightness
  | .binary left operator right =>
    left.Canonical ∧ right.Canonical ∧
      ∃ level : Grammar.Level, level.isLogical = false ∧ level.Joins left operator right
  | .logical left operator right =>
    left.Canonical ∧ right.Canonical ∧
      ∃ level : Grammar.Level, level.isLogical = true ∧ level.Joins left operator right
  | .ternary condition thenBranch elseBranch =>
    condition.Canonical ∧ 1 ≤ condition.tightness ∧ thenBranch.Canonical ∧ elseBranch.Canonical
  | .access _ name => name.kind = .identifier
  | .assign _ name value => name.kind = .identifier ∧ value.Canonical
  | .call callee paren arguments =>
    callee.Canonical ∧ 8 ≤ callee.tightness ∧ paren.kind = .rightParen ∧
      Expr.AllCanonical arguments
  | .function keyword parameters body =>
    keyword.kind = .fun ∧ (∀ name ∈ parameters, name.kind = .identifier) ∧
      Statement.AllCanonical body

def Expr.AllCanonical : List Expr → Prop
  | [] => True
  | e :: rest => e.Canonical ∧ Expr.AllCanonical rest

def Statement.Canonical : Statement → Prop
  | .block statements => Statement.AllCanonical statements
  | .expression value => value.Canonical
  | .function name parameters body =>
    name.kind = .identifier ∧ (∀ name ∈ parameters, name.kind = .identifier) ∧
      Statement.AllCanonical body
  | .ifElse condition thenBranch none =>
    condition.Canonical ∧ thenBranch.Canonical ∧ thenBranch.isDeclaration = false
  | .ifElse condition thenBranch (some elseBranch) =>
    condition.Canonical ∧ thenBranch.Canonical ∧ thenBranch.isDeclaration = false ∧
      thenBranch.endsOpen = false ∧ elseBranch.Canonical ∧ elseBranch.isDeclaration = false
  | .print value => value.Canonical
  | .return keyword none => keyword.kind = .return
  | .return keyword (some value) => keyword.kind = .return ∧ value.Canonical
  | .var name none => name.kind = .identifier
  | .var name (some initializer) => name.kind = .identifier ∧ initializer.Canonical
  | .while condition body =>
    condition.Canonical ∧ body.Canonical ∧ body.isDeclaration = false

def Statement.AllCanonical : List Statement → Prop
  | [] => True
  | s :: rest => s.Canonical ∧ Statement.AllCanonical rest

end

theorem Expr.allCanonical_iff {es : List Expr} :
    Expr.AllCanonical es ↔ ∀ e ∈ es, e.Canonical := by
  induction es with
  | nil => simp [Expr.AllCanonical]
  | cons e es ih => simp [Expr.AllCanonical, ih]

theorem Statement.allCanonical_iff {ss : List Statement} :
    Statement.AllCanonical ss ↔ ∀ s ∈ ss, s.Canonical := by
  induction ss with
  | nil => simp [Statement.AllCanonical]
  | cons s ss ih => simp [Statement.AllCanonical, ih]

namespace Grammar.Level

theorem tightness_of_mem {level : Level} {operator : Token} (h : operator.kind ∈ level.operators) :
    operator.tightness = level.tightness := by
  simp [Token.tightness, ofKind?_of_mem h]

theorem one_le_tightness (level : Level) : 1 ≤ level.tightness := by
  cases level <;> decide

theorem tightness_le_six (level : Level) : level.tightness ≤ 6 := by
  cases level <;> decide

theorem eq_of_tightness_eq {level level' : Level} (h : level.tightness = level'.tightness) :
    level = level' := by
  cases level <;> cases level' <;> first | rfl | cases h

/-- What the loop over the operators of a level builds. -/
theorem tightness_combine {level : Level} {left right : Expr} {operator : Token}
    (h : operator.kind ∈ level.operators) :
    (level.combine left operator right).tightness = level.tightness := by
  cases level <;> exact tightness_of_mem h

theorem canonical_combine {level : Level} {left right : Expr} {operator : Token}
    (hl : left.Canonical) (hr : right.Canonical) (h : level.Joins left operator right) :
    (level.combine left operator right).Canonical := by
  cases level <;> exact ⟨hl, hr, _, rfl, h⟩

end Grammar.Level

theorem Expr.tightness_le_nine {e : Expr} (h : e.Canonical) : e.tightness ≤ 9 := by
  cases e with
  | binary left operator right | logical left operator right =>
    obtain ⟨-, -, level, -, hmem, -⟩ := h
    have hle := level.tightness_le_six
    rw [Expr.tightness, Grammar.Level.tightness_of_mem hmem]
    omega
  | _ => simp [Expr.tightness]

end Lox

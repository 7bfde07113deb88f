import Lox.Grammar
import Mathlib.Algebra.GroupWithZero.Nat

/-!
# What reading a tree takes

`need` is the room that has to be left where the reading of a tree begins, counted in the nested
readers that the tree asks for: the parts of one chain of operators are read side by side and need
no more than the one that needs most, while every construct inside another adds to the need.
`excess` is the number of arguments and parameters that lie beyond the greatest number of them in
their list. Each of these is reported, and read nevertheless.
-/
namespace Lox

/-- The items of a list that are beyond the greatest number. -/
def excessOf (count : Nat) : Nat := count - Grammar.maxArguments

mutual

/-- The room for reading an expression of any tightness. -/
def Expr.need : Expr → Nat
  | .literal _ => 20
  | .grouping inner => inner.need + 18
  | .unary _ operand => operand.need + 1
  | .binary left _ right => max left.need right.need
  | .logical left _ right => max left.need right.need
  | .ternary condition thenBranch elseBranch =>
    max condition.need (max thenBranch.need elseBranch.need + 2)
  | .access _ _ => 20
  | .assign _ _ value => value.need + 3
  | .call callee _ arguments => max callee.need (Expr.needs arguments + 18)
  | .function _ _ body => Statement.needs body + 20

def Expr.needs : List Expr → Nat
  | [] => 0
  | e :: rest => max e.need (Expr.needs rest)

/-- The room for reading a statement where a declaration may stand. -/
def Statement.need : Statement → Nat
  | .block statements => max 4 (Statement.needs statements + 3)
  | .expression value => value.need + 3
  | .function _ _ body => Statement.needs body + 4
  | .ifElse condition thenBranch none => max (condition.need + 3) (thenBranch.need + 2)
  | .ifElse condition thenBranch (some elseBranch) =>
    max (condition.need + 3) (max thenBranch.need elseBranch.need + 2)
  | .print value => value.need + 3
  | .return _ none => 4
  | .return _ (some value) => value.need + 3
  | .var _ none => 4
  | .var _ (some initializer) => initializer.need + 2
  | .while condition body => max (condition.need + 3) (body.need + 2)

def Statement.needs : List Statement → Nat
  | [] => 0
  | s :: rest => max s.need (Statement.needs rest)

end

mutual

def Expr.excess : Expr → Nat
  | .literal _ => 0
  | .grouping inner => inner.excess
  | .unary _ operand => operand.excess
  | .binary left _ right => left.excess + right.excess
  | .logical left _ right => left.excess + right.excess
  | .ternary condition thenBranch elseBranch =>
    condition.excess + thenBranch.excess + elseBranch.excess
  | .access _ _ => 0
  | .assign _ _ value => value.excess
  | .call callee _ arguments =>
    callee.excess + (Expr.totalExcess arguments + excessOf arguments.length)
  | .function _ parameters body => excessOf parameters.length + Statement.totalExcess body

def Expr.totalExcess : List Expr → Nat
  | [] => 0
  | e :: rest => e.excess + Expr.totalExcess rest

def Statement.excess : Statement → Nat
  | .block statements => Statement.totalExcess statements
  | .expression value => value.excess
  | .function _ parameters body => excessOf parameters.length + Statement.totalExcess body
  | .ifElse condition thenBranch none => condition.excess + thenBranch.excess
  | .ifElse condition thenBranch (some elseBranch) =>
    condition.excess + thenBranch.excess + elseBranch.excess
  | .print value => value.excess
  | .return _ none => 0
  | .return _ (some value) => value.excess
  | .var _ none => 0
  | .var _ (some initializer) => initializer.excess
  | .while condition body => condition.excess + body.excess

def Statement.totalExcess : List Statement → Nat
  | [] => 0
  | s :: rest => s.excess + Statement.totalExcess rest

end

theorem Expr.need_le_needs {e : Expr} {es : List Expr} (h : e ∈ es) : e.need ≤ Expr.needs es := by
  induction es with
  | nil => simp at h
  | cons e' es ih =>
    rw [Expr.needs]
    rcases List.mem_cons.1 h with rfl | h
    · exact Nat.le_max_left _ _
    · exact Nat.le_trans (ih h) (Nat.le_max_right _ _)

theorem Statement.need_le_needs {s : Statement} {ss : List Statement} (h : s ∈ ss) :
    s.need ≤ Statement.needs ss := by
  induction ss with
  | nil => simp at h
  | cons s' ss ih =>
    rw [Statement.needs]
    rcases List.mem_cons.1 h with rfl | h
    · exact Nat.le_max_left _ _
    · exact Nat.le_trans (ih h) (Nat.le_max_right _ _)

/-- The operands of a chain need no room for each other. -/
theorem Grammar.Level.need_combine (level : Grammar.Level) (left : Expr) (operator : Token)
    (right : Expr) : (level.combine left operator right).need = max left.need right.need := by
  cases level <;> rfl

theorem Expr.totalExcess_eq_sum (es : List Expr) :
    Expr.totalExcess es = (es.map Expr.excess).sum := by
  induction es with
  | nil => rfl
  | cons e es ih => simp [Expr.totalExcess, ih]

theorem Expr.twenty_le_need : (e : Expr) → 20 ≤ e.need
  | .literal _ | .access _ _ => Nat.le_refl _
  | .grouping inner => by
    have h := inner.twenty_le_need
    simp only [Expr.need]
    omega
  | .unary _ operand => by
    have h := operand.twenty_le_need
    simp only [Expr.need]
    omega
  | .binary left _ _ | .logical left _ _ => by
    have h := left.twenty_le_need
    simp only [Expr.need]
    omega
  | .ternary condition _ _ => by
    have h := condition.twenty_le_need
    simp only [Expr.need]
    omega
  | .assign _ _ value => by
    have h := value.twenty_le_need
    simp only [Expr.need]
    omega
  | .call callee _ _ => by
    have h := callee.twenty_le_need
    simp only [Expr.need]
    omega
  | .function _ _ _ => by
    simp only [Expr.need]
    omega

theorem Statement.four_le_need (s : Statement) : 4 ≤ s.need := by
  have h (e : Expr) : 20 ≤ e.need := e.twenty_le_need
  cases s with
  | block | function => simp only [Statement.need]; omega
  | expression value | print value => have := h value; simp only [Statement.need]; omega
  | «while» condition _ => have := h condition; simp only [Statement.need]; omega
  | ifElse condition _ elseBranch =>
    have := h condition
    cases elseBranch <;> simp only [Statement.need] <;> omega
  | «return» _ value | var _ value =>
    cases value with
    | none => exact Nat.le_refl _
    | some e => have := h e; simp only [Statement.need]; omega

end Lox

import Lox.Ast
import Mathlib.Data.List.Forall2

/-!
# Trees written as tokens

A tree is written by putting its parts in the order of the grammar, with the punctuation and the
keywords that the grammar fixes between them. A tree keeps some of its tokens: names, operators, the
closing parenthesis of a call, and the keywords of `return` and of a function without a name. These
stand in the written tree as they are; of every other place only the kind is said.
-/
namespace Lox

/-- One place of a written tree. -/
inductive Terminal where
  /-- A token that the tree keeps. -/
  | kept (token : Token)
  | constant (value : Literal)
  /-- Punctuation, or a keyword that the tree does not keep. -/
  | fixed (kind : Token.Kind)
  deriving Repr, DecidableEq

def Literal.kind : Literal → Token.Kind
  | .nil => .nil
  | .bool false => .false
  | .bool true => .true
  | .number _ => .number
  | .string _ => .string

namespace Terminal

def kind : Terminal → Token.Kind
  | .kept t => t.kind
  | .constant v => v.kind
  | .fixed k => k

/-- Whether a token may stand at a place. Only numbers and strings carry their constant. -/
def Admits : Terminal → Token → Prop
  | .kept u, t => t = u
  | .constant v, t => t.kind = v.kind ∧ (v.kind = .number ∨ v.kind = .string → t.literal = v)
  | .fixed k, t => t.kind = k

theorem Admits.kind_eq {x : Terminal} {t : Token} (h : x.Admits t) : t.kind = x.kind := by
  cases x with
  | kept u => exact congrArg Token.kind h
  | constant v => exact h.1
  | fixed k => exact h

end Terminal

/-- Whether tokens spell out what is written, place by place. -/
abbrev Spells : List Terminal → List Token → Prop := List.Forall₂ Terminal.Admits

theorem Spells.append {xs ys : List Terminal} {ts us : List Token} (h : Spells xs ts)
    (h' : Spells ys us) : Spells (xs ++ ys) (ts ++ us) :=
  List.rel_append h h'

/-- What spells two parts falls into two parts. -/
theorem Spells.split {xs ys : List Terminal} {ts : List Token} (h : Spells (xs ++ ys) ts) :
    ∃ us vs, ts = us ++ vs ∧ Spells xs us ∧ Spells ys vs := by
  induction xs generalizing ts with
  | nil => exact ⟨[], ts, rfl, .nil, h⟩
  | cons x xs ih =>
    cases h with
    | cons hx hrest =>
      obtain ⟨us, vs, rfl, hus, hvs⟩ := ih hrest
      exact ⟨_ :: us, vs, rfl, .cons hx hus, hvs⟩

theorem Spells.kinds {xs : List Terminal} {ts : List Token} (h : Spells xs ts) :
    ts.map Token.kind = xs.map Terminal.kind := by
  induction h with
  | nil => rfl
  | cons hx _ ih => simp [hx.kind_eq, ih]

/-- Items one after the other, with a comma between any two. -/
def separated : List (List Terminal) → List Terminal
  | [] => []
  | [item] => item
  | item :: more => item ++ .fixed .comma :: separated more

/-- What is written behind the first of some items. -/
def moreWritten {α : Type} (write : α → List Terminal) (xs : List α) : List Terminal :=
  xs.flatMap fun x => .fixed .comma :: write x

theorem separated_cons {α : Type} (write : α → List Terminal) (x : α) (xs : List α) :
    separated (write x :: xs.map write) = write x ++ moreWritten write xs := by
  induction xs generalizing x with
  | nil => simp [separated, moreWritten]
  | cons y ys ih => simpa [separated, moreWritten] using ih y

def writtenNames (names : List Token) : List Terminal := separated (names.map fun t => [.kept t])

mutual

def Expr.written : Expr → List Terminal
  | .literal value => [.constant value]
  | .grouping inner => .fixed .leftParen :: inner.written ++ [.fixed .rightParen]
  | .unary operator operand => .kept operator :: operand.written
  | .binary left operator right => left.written ++ .kept operator :: right.written
  | .logical left operator right => left.written ++ .kept operator :: right.written
  | .ternary condition thenBranch elseBranch =>
    condition.written ++ .fixed .question :: thenBranch.written ++
      .fixed .colon :: elseBranch.written
  | .access _ name => [.kept name]
  | .assign _ name value => .kept name :: .fixed .equal :: value.written
  | .call callee paren arguments =>
    callee.written ++ .fixed .leftParen :: separated (Expr.eachWritten arguments) ++ [.kept paren]
  | .function keyword parameters body =>
    .kept keyword :: .fixed .leftParen :: writtenNames parameters ++
      .fixed .rightParen :: .fixed .leftBrace :: Statement.allWritten body ++ [.fixed .rightBrace]

def Expr.eachWritten : List Expr → List (List Terminal)
  | [] => []
  | e :: rest => e.written :: Expr.eachWritten rest

def Statement.written : Statement → List Terminal
  | .block statements =>
    .fixed .leftBrace :: Statement.allWritten statements ++ [.fixed .rightBrace]
  | .expression value => value.written ++ [.fixed .semicolon]
  | .function name parameters body =>
    .fixed .fun :: .kept name :: .fixed .leftParen :: writtenNames parameters ++
      .fixed .rightParen :: .fixed .leftBrace :: Statement.allWritten body ++ [.fixed .rightBrace]
  | .ifElse condition thenBranch none =>
    .fixed .if :: .fixed .leftParen :: condition.written ++ .fixed .rightParen :: thenBranch.written
  | .ifElse condition thenBranch (some elseBranch) =>
    .fixed .if :: .fixed .leftParen :: condition.written ++
      .fixed .rightParen :: thenBranch.written ++ .fixed .else :: elseBranch.written
  | .print value => .fixed .print :: value.written ++ [.fixed .semicolon]
  | .return keyword none => [.kept keyword, .fixed .semicolon]
  | .return keyword (some value) => .kept keyword :: value.written ++ [.fixed .semicolon]
  | .var name none => [.fixed .var, .kept name, .fixed .semicolon]
  | .var name (some initializer) =>
    .fixed .var :: .kept name :: .fixed .equal :: initializer.written ++ [.fixed .semicolon]
  | .while condition body =>
    .fixed .while :: .fixed .leftParen :: condition.written ++ .fixed .rightParen :: body.written

/-- Statements one after the other. -/
def Statement.allWritten : List Statement → List Terminal
  | [] => []
  | s :: rest => s.written ++ Statement.allWritten rest

end

/-- What is written of a function behind its opening parenthesis. -/
def functionWritten (f : List Token × List Statement) : List Terminal :=
  writtenNames f.1 ++ .fixed .rightParen :: .fixed .leftBrace :: Statement.allWritten f.2 ++
    [.fixed .rightBrace]

theorem Expr.eachWritten_eq_map (es : List Expr) : Expr.eachWritten es = es.map Expr.written := by
  induction es with
  | nil => rfl
  | cons e es ih => simp [Expr.eachWritten, ih]

theorem Statement.written_ne_nil (s : Statement) : s.written ≠ [] := by
  cases s with
  | ifElse _ _ elseBranch => cases elseBranch <;> simp [Statement.written]
  | «return» _ value => cases value <;> simp [Statement.written]
  | var _ initializer => cases initializer <;> simp [Statement.written]
  | _ => simp [Statement.written]

/-- The text `a = f(b, 1);`. -/
example (a f b paren : Token) (x : Float) :
    (Statement.expression (.assign 0 a
      (.call (.access 1 f) paren [.access 2 b, .literal (.number x)]))).written =
      [.kept a, .fixed .equal, .kept f, .fixed .leftParen, .kept b, .fixed .comma,
        .constant (.number x), .kept paren, .fixed .semicolon] := rfl

end Lox

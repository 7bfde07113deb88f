import Lox.Grammar.Cursor

/-!
# The grammar

Reading trees from tokens by recursive descent. `room` is the stack that is left, in nested calls;
a reader that has none stops with `tooDeep`, so depth costs room while length costs nothing. Every
construct that is read inside another one costs a unit: an argument list, the rest of a function, a
block, a clause of a statement. Loops over operands, arguments and statements take the readers of
their parts as arguments, with the room that is left for them.

`program?` reads declarations up to the end token. After a fault it skips to the next place where a
statement may begin and goes on from there.
-/
namespace Lox.Grammar

/-- The levels of left-associative operators, loosest first. -/
inductive Level where
  | or | and | equality | comparison | term | factor
  deriving Repr, DecidableEq

namespace Level

def operators : Level → List Token.Kind
  | or => [.or]
  | and => [.and]
  | equality => [.bangEqual, .equalEqual]
  | comparison => [.greater, .greaterEqual, .less, .lessEqual]
  | term => [.minus, .plus]
  | factor => [.slash, .star]

/-- The level that the operands of a level are read at, if it is not the unary one. -/
def tighter : Level → Option Level
  | or => some and
  | and => some equality
  | equality => some comparison
  | comparison => some term
  | term => some factor
  | factor => none

def combine : Level → Expr → Token → Expr → Expr
  | or => .logical
  | and => .logical
  | _ => .binary

end Level

/-- Extends `left` by an operator of the level and an operand, as long as there is an operator. -/
def chain (level : Level) (operand : Reader Expr) : List Token → Expr → Reader Expr
  | [], left => pure left
  | _ :: bound, left => do
    match ← accept level.operators with
    | none => pure left
    | some operator =>
      let right ← operand
      chain level operand bound (level.combine left operator right)

/-- The items after the first one, each behind a comma. Every item beyond the greatest number is
reported where it begins. -/
def moreItems {α : Type} (tooMany : Fault) (item : Reader α) :
    List Token → Nat → Reader (List α)
  | [], _ => pure []
  | _ :: bound, count => do
    match ← accept [.comma] with
    | none => pure []
    | some _ =>
      if maxArguments ≤ count then report (← current) tooMany
      let x ← item
      let xs ← moreItems tooMany item bound (count + 1)
      pure (x :: xs)

/-- Items between parentheses, separated by commas; the closing parenthesis is left unread. -/
def items {α : Type} (tooMany : Fault) (item : Reader α) : Reader (List α) := do
  if ← check .rightParen then pure []
  else
    let first ← item
    let rest ← moreItems tooMany item (← ahead) 1
    pure (first :: rest)

/-- Extends `callee` by argument lists, as long as there are any. -/
def calls (argument : Reader Expr) : List Token → Expr → Reader Expr
  | [], callee => pure callee
  | _ :: bound, callee => do
    match ← accept [.leftParen] with
    | none => pure callee
    | some _ =>
      let arguments ← items .tooManyArguments argument
      let paren ← expect .rightParen .parenAfterArguments
      calls argument bound (.call callee paren arguments)

/-- Declarations up to a closing brace or the end. -/
def declarations (declaration : Reader Statement) : List Token → Reader (List Statement)
  | [] => pure []
  | _ :: bound => fun c =>
    if c.current.kind = .rightBrace ∨ c.current.kind = .eof then .ok [] c
    else (do
      let first ← declaration
      let rest ← declarations declaration bound
      pure (first :: rest) : Reader (List Statement)) c

/-- The rest of a block whose opening brace is read. -/
def blockRest (declaration : Reader Statement) : Reader (List Statement) := do
  let statements ← declarations declaration (← ahead)
  let _ ← expect .rightBrace .braceAfterBlock
  pure statements

/-- The parameters and the body of a function whose opening parenthesis is read. -/
def functionRest (declaration : Reader Statement) : Reader (List Token × List Statement) := do
  let parameters ← items .tooManyParameters (expect .identifier .parameterName)
  let _ ← expect .rightParen .parenAfterParameters
  let _ ← expect .leftBrace .braceBeforeBody
  let body ← blockRest declaration
  pure (parameters, body)

/-- A declaration of a variable whose keyword is read. -/
def variableRest (expression : Reader Expr) : Reader Statement := do
  let name ← expect .identifier .variableName
  let initializer ← match ← accept [.equal] with
    | none => pure none
    | some _ => some <$> expression
  let _ ← expect .semicolon .semicolonAfterVariable
  pure (.var name initializer)

def expressionStatement (expression : Reader Expr) : Reader Statement := do
  let value ← expression
  let _ ← expect .semicolon .semicolonAfterExpression
  pure (.expression value)

/-- An expression that is missing if a token of this kind comes first. -/
def unlessNext (kind : Token.Kind) (expression : Reader Expr) : Reader (Option Expr) := do
  if ← check kind then pure none else some <$> expression

/-- The tree of a `for` statement: a `while` statement that runs the increment after its body, in a
block with the initializer if there is one. -/
def forTree (initializer : Option Statement) (condition increment : Option Expr)
    (body : Statement) : Statement :=
  let body := match increment with
    | none => body
    | some e => .block [body, .expression e]
  let loop := .while (condition.getD (.literal (.bool true))) body
  match initializer with
  | none => loop
  | some s => .block [s, loop]

/-- The first clause of a `for` statement, its semicolon included. -/
def forInitializer (expression : Reader Expr) : Reader (Option Statement) := do
  match ← accept [.semicolon, .var] with
  | none => some <$> expressionStatement expression
  | some t => if t.kind = .var then some <$> variableRest expression else pure none

/-- A `for` statement whose keyword is read. The first clause is a construct of its own, so its
expression is read by a reader with less room. -/
def forRest (first expression : Reader Expr) (statement : Reader Statement) : Reader Statement := do
  let _ ← expect .leftParen .parenAfterFor
  let initializer ← forInitializer first
  let condition ← unlessNext .semicolon expression
  let _ ← expect .semicolon .semicolonAfterLoopCondition
  let increment ← unlessNext .rightParen expression
  let _ ← expect .rightParen .parenAfterForClauses
  let body ← statement
  pure (forTree initializer condition increment body)

def ifRest (expression : Reader Expr) (statement : Reader Statement) : Reader Statement := do
  let _ ← expect .leftParen .parenAfterIf
  let condition ← expression
  let _ ← expect .rightParen .parenAfterIfCondition
  let thenBranch ← statement
  let elseBranch ← match ← accept [.else] with
    | none => pure none
    | some _ => some <$> statement
  pure (.ifElse condition thenBranch elseBranch)

def returnRest (expression : Reader Expr) (keyword : Token) : Reader Statement := do
  let value ← unlessNext .semicolon expression
  let _ ← expect .semicolon .semicolonAfterReturn
  pure (.return keyword value)

def printRest (expression : Reader Expr) : Reader Statement := do
  let value ← expression
  let _ ← expect .semicolon .semicolonAfterPrint
  pure (.print value)

def whileRest (expression : Reader Expr) (statement : Reader Statement) : Reader Statement := do
  let _ ← expect .leftParen .parenAfterWhile
  let condition ← expression
  let _ ← expect .rightParen .parenAfterWhileCondition
  let body ← statement
  pure (.while condition body)

/-- The kinds that begin a statement with a keyword or a brace of its own. -/
def statementStarts : List Token.Kind := [.for, .if, .return, .print, .while, .leftBrace]

/-- The kinds that begin a primary expression. -/
def primaryStarts : List Token.Kind :=
  [.false, .true, .nil, .number, .string, .identifier, .fun, .leftParen]

mutual

/-- An expression of any level. -/
def expression : (room : Nat) → Reader Expr
  | room + 2 => do
    let condition ← assignment room
    match ← accept [.question] with
    | none => pure condition
    | some _ =>
      let thenBranch ← expression room
      let _ ← expect .colon .colonInTernary
      let elseBranch ← expression room
      pure (.ternary condition thenBranch elseBranch)
  | _ => tooDeep

/-- An assignment, or an operator of any level. A target that is no name is reported, and what was
to be assigned is read and dropped. -/
def assignment : (room : Nat) → Reader Expr
  | room + 1 => do
    let target ← operator room .or
    match ← accept [.equal] with
    | none => pure target
    | some equals =>
      let value ← expression room
      match target with
      | .access site name => pure (.assign site name value)
      | _ =>
        report equals .invalidAssignmentTarget
        pure target
  | 0 => tooDeep

/-- Operands joined by the operators of this level or a tighter one. -/
def operator : (room : Nat) → Level → Reader Expr
  | room + 2, level => do
    let operand := match level.tighter with
      | some tighter => operator room tighter
      | none => unary room
    let left ← operand
    chain level operand (← ahead) left
  | _, _ => tooDeep

def unary : (room : Nat) → Reader Expr
  | room + 1 => do
    match ← accept [.bang, .minus] with
    | none => call room
    | some sign => Expr.unary sign <$> unary room
  | 0 => tooDeep

def call : (room : Nat) → Reader Expr
  | room + 2 => do
    let callee ← primary (room + 1)
    calls (expression room) (← ahead) callee
  | _ => tooDeep

def primary : (room : Nat) → Reader Expr
  | room + 3 => do
    match ← accept primaryStarts with
    | none => fail (.expected .expression)
    | some t =>
      match t.kind with
      | .false => pure (.literal (.bool false))
      | .true => pure (.literal (.bool true))
      | .nil => pure (.literal .nil)
      | .identifier => do pure (.access (← freshSite) t)
      | .fun =>
        let _ ← expect .leftParen .parenAfterFun
        let (parameters, body) ← functionRest (declaration room)
        pure (.function t parameters body)
      | .leftParen =>
        let inner ← expression (room + 2)
        let _ ← expect .rightParen .parenAfterGrouping
        pure (.grouping inner)
      | _ => pure (.literal t.literal)
  | _ => tooDeep

/-- A function with a name, a variable, or a statement. The keyword `fun` begins a declaration only
if a name follows it. -/
def declaration : (room : Nat) → Reader Statement
  | room + 4 => fun c =>
    if c.current.kind = .fun ∧ c.second.kind = .identifier then (do
      let _ ← advance
      let name ← advance
      let _ ← expect .leftParen .parenAfterFunctionName
      let (parameters, body) ← functionRest (declaration room)
      pure (.function name parameters body) : Reader Statement) c
    else (do
      match ← accept [.var] with
      | some _ => variableRest (expression (room + 2))
      | none => statement (room + 3) : Reader Statement) c
  | _ => tooDeep

def statement : (room : Nat) → Reader Statement
  | room + 3 => do
    match ← accept statementStarts with
    | none => expressionStatement (expression (room + 1))
    | some t =>
      match t.kind with
      | .for => forRest (expression room) (expression (room + 1)) (statement (room + 1))
      | .if => ifRest (expression (room + 1)) (statement (room + 1))
      | .return => returnRest (expression (room + 1)) t
      | .print => printRest (expression (room + 1))
      | .while => whileRest (expression (room + 1)) (statement (room + 1))
      | _ => Statement.block <$> blockRest (declaration (room + 1))
  | _ => tooDeep

end

/-- Whether a token of this kind begins a statement or a declaration by itself. -/
def startsStatement (kind : Token.Kind) : Bool :=
  kind ∈ [.classKeyword, .fun, .var, .for, .if, .while, .print, .return]

/-- Skips to the next token behind a semicolon or in front of a statement. There is no such place
when the tokens run out without an end token. -/
def skipFrom (previous : Token) : List Token → Option (List Token)
  | [] =>
    if previous.kind = .semicolon ∨ startsStatement previous.kind then some [] else none
  | t :: rest =>
    if t.kind = .eof ∨ previous.kind = .semicolon ∨ startsStatement t.kind then some (t :: rest)
    else skipFrom t rest

/-- Where reading goes on after a fault at the first of these tokens, which is skipped in any
case. -/
def recover : List Token → Option (List Token)
  | [] => none
  | t :: rest => if t.kind = .eof then some (t :: rest) else skipFrom t rest

/-- What was read, the reports in the order in which they were made, and the next free site. -/
structure Parsed (α : Type) where
  tree : α
  reports : List Report
  nextSite : Site

/-- The cursor at the first of these tokens; there has to be one. -/
def start? (tokens : List Token) (nextSite : Site) : Option Cursor :=
  tokens.getLast?.map fun last => ⟨tokens, last, [], nextSite⟩

/-- The report that a stopped reader leaves behind: a fault is reported where it arises, nesting
too deep where reading ended. -/
def afterStop (stop : Stop) (c : Cursor) : Cursor :=
  match stop with
  | .fault => c
  | .tooDeep => c.report c.current .tooMuchNesting

/-- Declarations up to the end token, and the cursor there. -/
def programFrom (room : Nat) : List Token → Cursor → Option (List Statement × Cursor)
  | [], c => some ([], c)
  | _ :: bound, c =>
    if c.atEnd then some ([], c)
    else
      match declaration room c with
      | .ok s c => (programFrom room bound c).map fun (rest, c) => (s :: rest, c)
      | .error stop c =>
        let c := afterStop stop c
        (recover c.rest).bind fun rest => programFrom room bound { c with rest := rest }

/-- Reads a whole program. There is no answer only if tokens without an end token are looked at past
their end. -/
def program? (room : Nat) (nextSite : Site) (tokens : List Token) :
    Option (Parsed (List Statement)) := do
  let c ← start? tokens nextSite
  let (statements, c) ← programFrom room c.ahead c
  pure ⟨statements, c.reports.reverse, c.nextSite⟩

/-- Reads one expression from the front of the tokens; what follows it is not looked at. No tree
comes of an expression with a fault that stops the reader. -/
def expression? (room : Nat) (nextSite : Site) (tokens : List Token) :
    Option (Parsed (Option Expr)) := do
  let c ← start? tokens nextSite
  match expression room c with
  | .ok e c => pure ⟨some e, c.reports.reverse, c.nextSite⟩
  | .error stop c =>
    let c := afterStop stop c
    if stop = .fault then
      let _ ← recover c.rest
    pure ⟨none, c.reports.reverse, c.nextSite⟩

end Lox.Grammar

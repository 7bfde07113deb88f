import Lox.Ast
import Lox.Diagnostics

/-!
# Binding names to scopes

Before a program runs, every use of a local variable is bound: the table says how many scopes lie
between the use and the scope that declares its name. One pass over the tree keeps the names
declared so far in each open scope. Blocks and functions open scopes; the top level is none, so
global names are not bound here and are looked up when they are used.
-/
namespace Lox.Binding

/-- The two ways of using a variable. -/
inductive UseKind where
  | access
  | assignment
  deriving Repr, DecidableEq

/-- A use of a variable, and the number of scopes between it and the declaration. -/
structure Entry where
  kind : UseKind
  site : Site
  name : Token
  hops : Nat
  deriving Repr, DecidableEq

/-- What is wrong with the names of a program. -/
inductive Fault where
  | alreadyDeclared (name : String)
  | readInInitializer
  | returnOutsideFunction
  deriving Repr, DecidableEq

def Fault.message : Fault → String
  | .alreadyDeclared name => "Variable '" ++ name ++ "' already declared in this scope."
  | .readInInitializer => "Can't read local variable in its own initializer."
  | .returnOutsideFunction => "Can't return from top-level code."

structure Report where
  token : Token
  fault : Fault
  deriving Repr, DecidableEq

def Report.diagnostic (r : Report) : Diagnostic := .atToken r.token r.fault.message

/-- The names declared in a scope, latest first, each with whether it may be read already. -/
abbrev Names := List (String × Bool)

/-- The open scopes, innermost first, whether a function is open, and what was found so far, newest
first. -/
structure Progress where
  scopes : List Names
  insideFunction : Bool
  entries : List Entry
  reports : List Report
  deriving Repr, DecidableEq

/-- Tells that the stack does not suffice for the nesting of a tree. -/
inductive OutOfRoom where
  | outOfRoom
  deriving Repr, DecidableEq

abbrev Binder := EStateM OutOfRoom Progress

def outOfRoom : Binder Unit := fun p => .error .outOfRoom p

def report (token : Token) (fault : Fault) : Binder Unit := fun p =>
  .ok () { p with reports := ⟨token, fault⟩ :: p.reports }

/-- Marks a name in the innermost scope, if there is one. -/
def mark (name : String) (ready : Bool) : Binder Unit := fun p =>
  match p.scopes with
  | [] => .ok () p
  | names :: outer => .ok () { p with scopes := ((name, ready) :: names) :: outer }

/-- Whether the innermost scope declares a name. -/
def Progress.declares (p : Progress) (name : String) : Bool :=
  (p.scopes.head?.bind (·.lookup name)).isSome

/-- Declares a name in the innermost scope; it may not be read yet. -/
def declare (name : Token) : Binder Unit := fun p =>
  (do
    if p.declares name.lexeme then report name (.alreadyDeclared name.lexeme)
    mark name.lexeme false : Binder Unit) p

/-- Lets a declared name be read. -/
def define (name : Token) : Binder Unit := mark name.lexeme true

/-- The number of scopes around the innermost one up to the first that declares a name. -/
def hops? (name : String) (scopes : List Names) : Option Nat :=
  scopes.findIdx? fun names => (names.lookup name).isSome

/-- Whether the nearest declaration of a name, if there is one, lets it be read. -/
def readable (name : String) (scopes : List Names) : Bool :=
  (scopes.findSome? (·.lookup name)).getD true

/-- Records the scope that a use refers to, unless it refers to a global. -/
def bind (kind : UseKind) (site : Site) (name : Token) : Binder Unit := fun p =>
  match hops? name.lexeme p.scopes with
  | none => .ok () p
  | some hops => .ok () { p with entries := ⟨kind, site, name, hops⟩ :: p.entries }

def checkReadable (name : Token) : Binder Unit := fun p =>
  if readable name.lexeme p.scopes then .ok () p else report name .readInInitializer p

def checkReturn (keyword : Token) : Binder Unit := fun p =>
  if p.insideFunction then .ok () p else report keyword .returnOutsideFunction p

def openScope : Binder Unit := fun p => .ok () { p with scopes := [] :: p.scopes }

def closeScope : Binder Unit := fun p => .ok () { p with scopes := p.scopes.tail }

/-- Sets whether a function is open, and answers what was set before. -/
def enterFunction (inside : Bool) : Binder Bool := fun p =>
  .ok p.insideFunction { p with insideFunction := inside }

/-- Does something for each element in turn. -/
def each {α : Type} (visit : α → Binder Unit) : List α → Binder Unit
  | [] => pure ()
  | x :: xs => do
    visit x
    each visit xs

mutual

/-- Binds the uses in an expression. What is assigned comes before the target. -/
def expression : (room : Nat) → Expr → Binder Unit
  | 0, _ => outOfRoom
  | _ + 1, .literal _ => pure ()
  | room + 1, .grouping inner => expression room inner
  | room + 1, .unary _ operand => expression room operand
  | room + 1, .binary left _ right => do
    expression room left
    expression room right
  | room + 1, .logical left _ right => do
    expression room left
    expression room right
  | room + 1, .ternary condition thenBranch elseBranch => do
    expression room condition
    expression room thenBranch
    expression room elseBranch
  | _ + 1, .access site name => do
    checkReadable name
    bind .access site name
  | room + 1, .assign site name value => do
    expression room value
    bind .assignment site name
  | room + 1, .call callee _ arguments => do
    expression room callee
    each (expression room) arguments
  | room + 1, .function _ parameters body => function room parameters body

/-- Binds the uses in a statement. A function may be used in its own body, a variable not yet in its
initializer. -/
def statement : (room : Nat) → Statement → Binder Unit
  | 0, _ => outOfRoom
  | room + 1, .block statements => do
    openScope
    each (statement room) statements
    closeScope
  | room + 1, .expression value => expression room value
  | room + 1, .function name parameters body => do
    declare name
    define name
    function room parameters body
  | room + 1, .ifElse condition thenBranch elseBranch => do
    expression room condition
    statement room thenBranch
    match elseBranch with
    | none => pure ()
    | some s => statement room s
  | room + 1, .print value => expression room value
  | room + 1, .return keyword value => do
    checkReturn keyword
    match value with
    | none => pure ()
    | some e => expression room e
  | room + 1, .var name initializer => do
    declare name
    match initializer with
    | none => pure ()
    | some e => expression room e
    define name
  | room + 1, .while condition body => do
    expression room condition
    statement room body

/-- Binds the uses in a function. Its parameters and the declarations of its body share a scope. -/
def function : (room : Nat) → List Token → List Statement → Binder Unit
  | 0, _, _ => outOfRoom
  | room + 1, parameters, body => do
    let outside ← enterFunction true
    openScope
    each (fun name => do declare name; define name) parameters
    each (statement room) body
    closeScope
    let _ ← enterFunction outside

end

/-- Where every pass starts. -/
def Progress.start : Progress := ⟨[], false, [], []⟩

def code (room : Nat) : Code → Binder Unit
  | .program statements => each (statement room) statements
  | .expression none => pure ()
  | .expression (some e) => expression room e

/-- The entries and the reports of a pass in the order in which they were made, and whether the pass
got to the end of the tree. -/
structure Resolved where
  entries : List Entry
  reports : List Report
  complete : Bool
  deriving Repr, DecidableEq

def Resolved.ofProgress (p : Progress) (complete : Bool) : Resolved :=
  ⟨p.entries.reverse, p.reports.reverse, complete⟩

/-- Binds the uses of variables in a unit of code. -/
def resolve (room : Nat) (unit : Code) : Resolved :=
  match code room unit .start with
  | .ok _ p => .ofProgress p true
  | .error _ p => .ofProgress p false

/-- The hops of every bound use of a session, found by its site. -/
abbrev Table := List (Site × Nat)

/-- The table extended by the entries of another unit. -/
def Table.install (t : Table) (entries : List Entry) : Table :=
  entries.foldl (fun t e => (e.site, e.hops) :: t) t

end Lox.Binding

import Lox.Proofs.Scoping.Bound
import Lox.Proofs.Syntax.Tokens

/-!
# Other names for local variables

The variable that a scope declares under one name may be given another name: in its declaration, and
in the uses that the table leads to this scope. `Expr.rename` and `Statement.rename` do this for one
scope, which is told by how many scopes are opened before it. `Renames` says what remains of a tree
when this is done in any of its scopes, as long as the new name is not in the way: evaluation and
binding are followed through it, as the scopes to which a use leads are all that matters there.
-/
namespace Lox

open Binding (Table)

/-- Some variables are to be called `new` instead of `old`. -/
structure Renaming where
  old : String
  new : String

namespace Renaming

variable (ρ : Renaming)

/-- What is written for a name of a scope, which is chosen or not. -/
def name (chosen : Bool) (name : String) : String :=
  if chosen = true ∧ name = ρ.old then ρ.new else name

def token (chosen : Bool) (t : Token) : Token := { t with lexeme := ρ.name chosen t.lexeme }

/-- What a token of a text may become: a name that is the old one may become the new one. -/
inductive Rewrites : Token → Token → Prop where
  | same (t : Token) : Rewrites t t
  | renamed {t : Token} (hk : t.kind = .identifier) (hx : t.lexeme = ρ.old) :
    Rewrites t { t with lexeme := ρ.new }

/-- In a chosen scope nothing has the new name. -/
def Fits (chosen : Bool) (t : Token) : Prop := chosen = true → t.lexeme ≠ ρ.new

variable {ρ}

theorem Rewrites.kind_eq {t t' : Token} (h : ρ.Rewrites t t') : t'.kind = t.kind := by
  cases h <;> rfl

theorem Rewrites.of_token {t : Token} (hk : t.kind = .identifier) (chosen : Bool) :
    ρ.Rewrites t (ρ.token chosen t) := by
  unfold token name
  split
  · next h => exact .renamed hk h.2
  · exact .same t

@[simp] theorem name_false (name : String) : ρ.name false name = name := by
  simp [Renaming.name]

@[simp] theorem token_false (t : Token) : ρ.token false t = t := by
  simp [token]

@[simp] theorem map_token_false (ts : List Token) : ts.map (ρ.token false) = ts :=
  (List.map_congr_left fun t _ => token_false t).trans (List.map_id ts)

theorem fits_of_eq_false {chosen : Bool} (h : chosen = false) (t : Token) : ρ.Fits chosen t :=
  fun hchosen => absurd (h.symm.trans hchosen) Bool.false_ne_true

theorem token_of_eq_false {chosen : Bool} (h : chosen = false) (t : Token) :
    ρ.token chosen t = t := by
  rw [h, token_false]

/-- Names that are not the new one stay apart. -/
theorem name_inj {chosen : Bool} {a b : String} (ha : chosen = true → a ≠ ρ.new)
    (hb : chosen = true → b ≠ ρ.new) : ρ.name chosen a = ρ.name chosen b ↔ a = b := by
  refine ⟨fun h => ?_, congrArg _⟩
  cases chosen with
  | false => simpa using h
  | true =>
    have ha := ha rfl
    have hb := hb rfl
    simp only [Renaming.name, true_and] at h
    split at h <;> split at h <;> simp_all

end Renaming

/-- Whether the table leads a use to a chosen one of the scopes around it, innermost first. -/
def leadsToChosen (t : Table) (marks : List Bool) (site : Site) : Bool :=
  (t.lookup site).elim false fun hops => marks.getD hops false

theorem leadsToChosen_eq_false {t : Table} {marks : List Bool}
    (h : ∀ chosen ∈ marks, chosen = false) (site : Site) : leadsToChosen t marks site = false := by
  unfold leadsToChosen
  cases t.lookup site with
  | none => rfl
  | some hops =>
    rw [Option.elim_some, List.getD_eq_getElem?_getD]
    cases hget : marks[hops]? with
    | none => rfl
    | some chosen => exact h chosen (List.mem_of_getElem? hget)

theorem headD_eq_false {marks : List Bool} (h : ∀ chosen ∈ marks, chosen = false) :
    marks.headD false = false := by
  cases marks with
  | nil => rfl
  | cons chosen marks => exact h chosen List.mem_cons_self

mutual

/-- How many scopes are opened in an expression. -/
def Expr.opened : Expr → Nat
  | .literal _ => 0
  | .grouping inner => inner.opened
  | .unary _ operand => operand.opened
  | .binary left _ right => left.opened + right.opened
  | .logical left _ right => left.opened + right.opened
  | .ternary condition thenBranch elseBranch =>
    condition.opened + thenBranch.opened + elseBranch.opened
  | .access _ _ => 0
  | .assign _ _ value => value.opened
  | .call callee _ arguments => callee.opened + Expr.allOpened arguments
  | .function _ _ body => Statement.allOpened body + 1

def Expr.allOpened : List Expr → Nat
  | [] => 0
  | e :: rest => e.opened + Expr.allOpened rest

def Statement.opened : Statement → Nat
  | .block statements => Statement.allOpened statements + 1
  | .expression value => value.opened
  | .function _ _ body => Statement.allOpened body + 1
  | .ifElse condition thenBranch none => condition.opened + thenBranch.opened
  | .ifElse condition thenBranch (some elseBranch) =>
    condition.opened + thenBranch.opened + elseBranch.opened
  | .print value => value.opened
  | .return _ none => 0
  | .return _ (some value) => value.opened
  | .var _ none => 0
  | .var _ (some initializer) => initializer.opened
  | .while condition body => condition.opened + body.opened

def Statement.allOpened : List Statement → Nat
  | [] => 0
  | s :: rest => s.opened + Statement.allOpened rest

end

/-- Whether a scope has a parameter of this name, or a variable that is declared in its body. -/
def declaresVariable (name : String) (parameters : List Token) (body : List Statement) : Bool :=
  parameters.any (·.lexeme = name) || body.any fun
    | .var declared _ => declared.lexeme = name
    | _ => false

section
variable (ρ : Renaming) (t : Table) (k : Nat)

/-- Whether a scope, with `n` scopes opened before it, is the chosen one. -/
def Renaming.chosen (n : Nat) (parameters : List Token) (body : List Statement) : Bool :=
  n == k && declaresVariable ρ.old parameters body

mutual

/-- Renames the variable of the scope with `k` scopes opened before it. There are `n` scopes opened
before the expression, and `marks` tells which ones around it are chosen. -/
def Expr.rename (marks : List Bool) (n : Nat) : Expr → Expr
  | .literal value => .literal value
  | .grouping inner => .grouping (inner.rename marks n)
  | .unary operator operand => .unary operator (operand.rename marks n)
  | .binary left operator right =>
    .binary (left.rename marks n) operator (right.rename marks (n + left.opened))
  | .logical left operator right =>
    .logical (left.rename marks n) operator (right.rename marks (n + left.opened))
  | .ternary condition thenBranch elseBranch =>
    .ternary (condition.rename marks n) (thenBranch.rename marks (n + condition.opened))
      (elseBranch.rename marks (n + condition.opened + thenBranch.opened))
  | .access site name => .access site (ρ.token (leadsToChosen t marks site) name)
  | .assign site name value =>
    .assign site (ρ.token (leadsToChosen t marks site) name) (value.rename marks n)
  | .call callee paren arguments =>
    .call (callee.rename marks n) paren (Expr.renameAll marks (n + callee.opened) arguments)
  | .function keyword parameters body =>
    let chosen := ρ.chosen k n parameters body
    .function keyword (parameters.map (ρ.token chosen))
      (Statement.renameAll (chosen :: marks) (n + 1) body)

def Expr.renameAll (marks : List Bool) (n : Nat) : List Expr → List Expr
  | [] => []
  | e :: rest => e.rename marks n :: Expr.renameAll marks (n + e.opened) rest

/-- A function keeps the name that it is declared with, as it is part of its text. -/
def Statement.rename (marks : List Bool) (n : Nat) : Statement → Statement
  | .block statements =>
    .block (Statement.renameAll (ρ.chosen k n [] statements :: marks) (n + 1) statements)
  | .expression value => .expression (value.rename marks n)
  | .function name parameters body =>
    let chosen := ρ.chosen k n parameters body
    .function name (parameters.map (ρ.token chosen))
      (Statement.renameAll (chosen :: marks) (n + 1) body)
  | .ifElse condition thenBranch none =>
    .ifElse (condition.rename marks n) (thenBranch.rename marks (n + condition.opened)) none
  | .ifElse condition thenBranch (some elseBranch) =>
    .ifElse (condition.rename marks n) (thenBranch.rename marks (n + condition.opened))
      (some (elseBranch.rename marks (n + condition.opened + thenBranch.opened)))
  | .print value => .print (value.rename marks n)
  | .return keyword none => .return keyword none
  | .return keyword (some value) => .return keyword (some (value.rename marks n))
  | .var name none => .var (ρ.token (marks.headD false) name) none
  | .var name (some initializer) =>
    .var (ρ.token (marks.headD false) name) (some (initializer.rename marks n))
  | .while condition body =>
    .while (condition.rename marks n) (body.rename marks (n + condition.opened))

def Statement.renameAll (marks : List Bool) (n : Nat) : List Statement → List Statement
  | [] => []
  | s :: rest => s.rename marks n :: Statement.renameAll marks (n + s.opened) rest

end

end

section
variable {ρ : Renaming} {t u : Table} {k : Nat}

mutual

/-- Only where the table leads the uses of the tree matters. -/
theorem Expr.rename_congr {marks : List Bool} {n : Nat} : (e : Expr) →
    (∀ site ∈ e.sites, t.lookup site = u.lookup site) →
    e.rename ρ t k marks n = e.rename ρ u k marks n
  | .literal _, _ => rfl
  | .grouping inner, h => congrArg Expr.grouping (inner.rename_congr h)
  | .unary operator operand, h => congrArg (Expr.unary operator) (operand.rename_congr h)
  | .binary left _ right, h => by
    obtain ⟨hl, hr⟩ := List.forall_mem_append.1 h
    rw [Expr.rename, Expr.rename, left.rename_congr hl, right.rename_congr hr]
  | .logical left _ right, h => by
    obtain ⟨hl, hr⟩ := List.forall_mem_append.1 h
    rw [Expr.rename, Expr.rename, left.rename_congr hl, right.rename_congr hr]
  | .ternary condition a b, h => by
    obtain ⟨hc, hb⟩ := List.forall_mem_append.1 h
    obtain ⟨hc, ha⟩ := List.forall_mem_append.1 hc
    rw [Expr.rename, Expr.rename, condition.rename_congr hc, a.rename_congr ha, b.rename_congr hb]
  | .access site name, h => by
    rw [Expr.rename, Expr.rename, leadsToChosen, leadsToChosen, h site List.mem_cons_self]
  | .assign site name value, h => by
    obtain ⟨hsite, hvalue⟩ := List.forall_mem_cons.1 h
    rw [Expr.rename, Expr.rename, leadsToChosen, leadsToChosen, hsite, value.rename_congr hvalue]
  | .call callee _ arguments, h => by
    obtain ⟨hc, ha⟩ := List.forall_mem_append.1 h
    rw [Expr.rename, Expr.rename, callee.rename_congr hc, Expr.renameAll_congr arguments ha]
  | .function keyword parameters body, h =>
    congrArg (Expr.function keyword _) (Statement.renameAll_congr body h)

theorem Expr.renameAll_congr {marks : List Bool} {n : Nat} : (es : List Expr) →
    (∀ site ∈ Expr.allSites es, t.lookup site = u.lookup site) →
    Expr.renameAll ρ t k marks n es = Expr.renameAll ρ u k marks n es
  | [], _ => rfl
  | e :: es, h => by
    obtain ⟨he, hes⟩ := List.forall_mem_append.1 h
    rw [Expr.renameAll, Expr.renameAll, e.rename_congr he, Expr.renameAll_congr es hes]

theorem Statement.rename_congr {marks : List Bool} {n : Nat} : (s : Statement) →
    (∀ site ∈ s.sites, t.lookup site = u.lookup site) →
    s.rename ρ t k marks n = s.rename ρ u k marks n
  | .block ss, h => congrArg Statement.block (Statement.renameAll_congr ss h)
  | .expression e, h => congrArg Statement.expression (e.rename_congr h)
  | .function name parameters body, h =>
    congrArg (Statement.function name _) (Statement.renameAll_congr body h)
  | .ifElse condition a none, h => by
    obtain ⟨hc, ha⟩ := List.forall_mem_append.1 h
    rw [Statement.rename, Statement.rename, condition.rename_congr hc, a.rename_congr ha]
  | .ifElse condition a (some b), h => by
    obtain ⟨hc, hb⟩ := List.forall_mem_append.1 h
    obtain ⟨hc, ha⟩ := List.forall_mem_append.1 hc
    rw [Statement.rename, Statement.rename, condition.rename_congr hc, a.rename_congr ha,
      b.rename_congr hb]
  | .print e, h => congrArg Statement.print (e.rename_congr h)
  | .return _ none, _ => rfl
  | .return keyword (some e), h =>
    congrArg (fun e => Statement.return keyword (some e)) (e.rename_congr h)
  | .var _ none, _ => rfl
  | .var _ (some e), h => congrArg (fun e => Statement.var _ (some e)) (e.rename_congr h)
  | .while condition body, h => by
    obtain ⟨hc, hb⟩ := List.forall_mem_append.1 h
    rw [Statement.rename, Statement.rename, condition.rename_congr hc, body.rename_congr hb]

theorem Statement.renameAll_congr {marks : List Bool} {n : Nat} : (ss : List Statement) →
    (∀ site ∈ Statement.allSites ss, t.lookup site = u.lookup site) →
    Statement.renameAll ρ t k marks n ss = Statement.renameAll ρ u k marks n ss
  | [], _ => rfl
  | s :: ss, h => by
    obtain ⟨hs, hss⟩ := List.forall_mem_append.1 h
    rw [Statement.renameAll, Statement.renameAll, s.rename_congr hs,
      Statement.renameAll_congr ss hss]

end

end

section
variable (ρ : Renaming) (t : Table)

mutual

/-- The second expression is the first one, with variables of chosen scopes renamed. -/
inductive Expr.Renames : List Bool → Expr → Expr → Prop where
  | literal {marks value} : Expr.Renames marks (.literal value) (.literal value)
  | grouping {marks e e'} (h : Expr.Renames marks e e') :
    Expr.Renames marks (.grouping e) (.grouping e')
  | unary {marks operator e e'} (h : Expr.Renames marks e e') :
    Expr.Renames marks (.unary operator e) (.unary operator e')
  | binary {marks operator left right left' right'} (hl : Expr.Renames marks left left')
    (hr : Expr.Renames marks right right') :
    Expr.Renames marks (.binary left operator right) (.binary left' operator right')
  | logical {marks operator left right left' right'} (hl : Expr.Renames marks left left')
    (hr : Expr.Renames marks right right') :
    Expr.Renames marks (.logical left operator right) (.logical left' operator right')
  | ternary {marks condition a b condition' a' b'} (hc : Expr.Renames marks condition condition')
    (ha : Expr.Renames marks a a') (hb : Expr.Renames marks b b') :
    Expr.Renames marks (.ternary condition a b) (.ternary condition' a' b')
  | access {marks site name} (h : ρ.Fits (leadsToChosen t marks site) name) :
    Expr.Renames marks (.access site name)
      (.access site (ρ.token (leadsToChosen t marks site) name))
  | assign {marks site name e e'} (h : ρ.Fits (leadsToChosen t marks site) name)
    (he : Expr.Renames marks e e') :
    Expr.Renames marks (.assign site name e)
      (.assign site (ρ.token (leadsToChosen t marks site) name) e')
  | call {marks e e' paren es es'} (he : Expr.Renames marks e e')
    (hes : Expr.RenamesAll marks es es') :
    Expr.Renames marks (.call e paren es) (.call e' paren es')
  | function {marks chosen keyword names body body'} (hn : ∀ name ∈ names, ρ.Fits chosen name)
    (hb : Statement.RenamesAll (chosen :: marks) body body') :
    Expr.Renames marks (.function keyword names body)
      (.function keyword (names.map (ρ.token chosen)) body')

inductive Expr.RenamesAll : List Bool → List Expr → List Expr → Prop where
  | nil {marks} : Expr.RenamesAll marks [] []
  | cons {marks e e' es es'} (he : Expr.Renames marks e e') (hes : Expr.RenamesAll marks es es') :
    Expr.RenamesAll marks (e :: es) (e' :: es')

/-- The second statement is the first one, with variables of chosen scopes renamed. -/
inductive Statement.Renames : List Bool → Statement → Statement → Prop where
  | block {marks ss ss'} (chosen : Bool) (hss : Statement.RenamesAll (chosen :: marks) ss ss') :
    Statement.Renames marks (.block ss) (.block ss')
  | expression {marks e e'} (h : Expr.Renames marks e e') :
    Statement.Renames marks (.expression e) (.expression e')
  | function {marks chosen name names body body'} (hfits : ρ.Fits (marks.headD false) name)
    (hname : ρ.token (marks.headD false) name = name) (hn : ∀ name ∈ names, ρ.Fits chosen name)
    (hb : Statement.RenamesAll (chosen :: marks) body body') :
    Statement.Renames marks (.function name names body)
      (.function name (names.map (ρ.token chosen)) body')
  | ifThen {marks condition condition' a a'} (hc : Expr.Renames marks condition condition')
    (ha : Statement.Renames marks a a') :
    Statement.Renames marks (.ifElse condition a none) (.ifElse condition' a' none)
  | ifElse {marks condition condition' a a' b b'} (hc : Expr.Renames marks condition condition')
    (ha : Statement.Renames marks a a') (hb : Statement.Renames marks b b') :
    Statement.Renames marks (.ifElse condition a (some b)) (.ifElse condition' a' (some b'))
  | print {marks e e'} (h : Expr.Renames marks e e') :
    Statement.Renames marks (.print e) (.print e')
  | returnNone {marks keyword} :
    Statement.Renames marks (.return keyword none) (.return keyword none)
  | returnSome {marks keyword e e'} (h : Expr.Renames marks e e') :
    Statement.Renames marks (.return keyword (some e)) (.return keyword (some e'))
  | varNone {marks name} (hn : ρ.Fits (marks.headD false) name) :
    Statement.Renames marks (.var name none) (.var (ρ.token (marks.headD false) name) none)
  | varSome {marks name e e'} (hn : ρ.Fits (marks.headD false) name)
    (he : Expr.Renames marks e e') :
    Statement.Renames marks (.var name (some e)) (.var (ρ.token (marks.headD false) name) (some e'))
  | while {marks condition condition' body body'} (hc : Expr.Renames marks condition condition')
    (hb : Statement.Renames marks body body') :
    Statement.Renames marks (.while condition body) (.while condition' body')

inductive Statement.RenamesAll : List Bool → List Statement → List Statement → Prop where
  | nil {marks} : Statement.RenamesAll marks [] []
  | cons {marks s s' ss ss'} (hs : Statement.Renames marks s s')
    (hss : Statement.RenamesAll marks ss ss') :
    Statement.RenamesAll marks (s :: ss) (s' :: ss')

end

end

section
variable {ρ : Renaming} {t : Table}

mutual

/-- Where nothing is chosen, every tree may stay as it is. -/
theorem Expr.renames_self {marks : List Bool} (h : ∀ chosen ∈ marks, chosen = false) :
    (e : Expr) → e.Renames ρ t marks e
  | .literal _ => .literal
  | .grouping inner => .grouping (inner.renames_self h)
  | .unary _ operand => .unary (operand.renames_self h)
  | .binary left _ right => .binary (left.renames_self h) (right.renames_self h)
  | .logical left _ right => .logical (left.renames_self h) (right.renames_self h)
  | .ternary condition a b =>
    .ternary (condition.renames_self h) (a.renames_self h) (b.renames_self h)
  | .access site name => by
    have hleads := leadsToChosen_eq_false h site (t := t)
    have haccess : (Expr.access site name).Renames ρ t marks
        (.access site (ρ.token (leadsToChosen t marks site) name)) :=
      .access (Renaming.fits_of_eq_false hleads name)
    rwa [Renaming.token_of_eq_false hleads] at haccess
  | .assign site name value => by
    have hleads := leadsToChosen_eq_false h site (t := t)
    have hassign : (Expr.assign site name value).Renames ρ t marks
        (.assign site (ρ.token (leadsToChosen t marks site) name) value) :=
      .assign (Renaming.fits_of_eq_false hleads name) (value.renames_self h)
    rwa [Renaming.token_of_eq_false hleads] at hassign
  | .call callee _ arguments =>
    .call (callee.renames_self h) (Expr.renamesAll_self h arguments)
  | .function keyword names body => by
    have hmarks : ∀ chosen ∈ false :: marks, chosen = false := List.forall_mem_cons.2 ⟨rfl, h⟩
    have hfunction : (Expr.function keyword names body).Renames ρ t marks
        (.function keyword (names.map (ρ.token false)) body) :=
      .function (fun name _ => Renaming.fits_of_eq_false rfl name)
        (Statement.renamesAll_self hmarks body)
    rwa [Renaming.map_token_false] at hfunction

theorem Expr.renamesAll_self {marks : List Bool} (h : ∀ chosen ∈ marks, chosen = false) :
    (es : List Expr) → Expr.RenamesAll ρ t marks es es
  | [] => .nil
  | e :: es => .cons (e.renames_self h) (Expr.renamesAll_self h es)

theorem Statement.renames_self {marks : List Bool} (h : ∀ chosen ∈ marks, chosen = false) :
    (s : Statement) → s.Renames ρ t marks s
  | .block ss => .block false (Statement.renamesAll_self (List.forall_mem_cons.2 ⟨rfl, h⟩) ss)
  | .expression e => .expression (e.renames_self h)
  | .function name names body => by
    have hmarks : ∀ chosen ∈ false :: marks, chosen = false := List.forall_mem_cons.2 ⟨rfl, h⟩
    have hhead := headD_eq_false h
    have hfunction : (Statement.function name names body).Renames ρ t marks
        (.function name (names.map (ρ.token false)) body) :=
      .function (Renaming.fits_of_eq_false hhead name) (Renaming.token_of_eq_false hhead name)
        (fun name _ => Renaming.fits_of_eq_false rfl name) (Statement.renamesAll_self hmarks body)
    rwa [Renaming.map_token_false] at hfunction
  | .ifElse condition a none => .ifThen (condition.renames_self h) (a.renames_self h)
  | .ifElse condition a (some b) =>
    .ifElse (condition.renames_self h) (a.renames_self h) (b.renames_self h)
  | .print e => .print (e.renames_self h)
  | .return _ none => .returnNone
  | .return _ (some e) => .returnSome (e.renames_self h)
  | .var name none => by
    have hhead := headD_eq_false h
    have hvar : (Statement.var name none).Renames ρ t marks
        (.var (ρ.token (marks.headD false) name) none) :=
      .varNone (Renaming.fits_of_eq_false hhead name)
    rwa [Renaming.token_of_eq_false hhead] at hvar
  | .var name (some e) => by
    have hhead := headD_eq_false h
    have hvar : (Statement.var name (some e)).Renames ρ t marks
        (.var (ρ.token (marks.headD false) name) (some e)) :=
      .varSome (Renaming.fits_of_eq_false hhead name) (e.renames_self h)
    rwa [Renaming.token_of_eq_false hhead] at hvar
  | .while condition body => .while (condition.renames_self h) (body.renames_self h)

theorem Statement.renamesAll_self {marks : List Bool} (h : ∀ chosen ∈ marks, chosen = false) :
    (ss : List Statement) → Statement.RenamesAll ρ t marks ss ss
  | [] => .nil
  | s :: ss => .cons (s.renames_self h) (Statement.renamesAll_self h ss)

end

end

open Binding (Names declaredIn declaring marked withParameters)

/-- The name that a statement declares. -/
def Statement.declared? : Statement → Option Token
  | .var name _ => some name
  | .function name _ _ => some name
  | _ => none

section
variable {t : Table} {Γ : List Names} {x : String}

theorem declaredIn_scopesAfter (s : Statement) (h : declaredIn x Γ = true) :
    declaredIn x (s.scopesAfter Γ) = true := by
  have hdeclaring (name : String) : declaredIn x (declaring name Γ) = true :=
    Binding.declaredIn_marked_of_declaredIn (Binding.declaredIn_marked_of_declaredIn h)
  cases s with
  | var name _ => exact hdeclaring name.lexeme
  | function name _ _ => exact hdeclaring name.lexeme
  | _ => exact h

theorem declaredIn_declaring (name : String) (names : Names) :
    declaredIn name (declaring name (names :: Γ)) = true := by
  refine Binding.declaredIn_marked_of_declaredIn ?_
  rw [Binding.declaredIn_marked]
  simp

/-- A name is declared where it was not. -/
theorem Statement.Bound.declaredIn_eq_false {s : Statement} {name : Token} (h : s.Bound t Γ)
    (hs : s.declared? = some name) : declaredIn name.lexeme Γ = false := by
  cases s with
  | var declared initializer =>
    obtain rfl := Option.some.inj hs
    cases initializer with
    | none => exact h
    | some e => exact h.1
  | function declared parameters body =>
    obtain rfl := Option.some.inj hs
    exact h.1
  | _ => cases hs

/-- Once it is declared, a name is not declared again. -/
theorem Statement.AllBound.ne_of_declaredIn {ss : List Statement} (h : Statement.AllBound t ss Γ)
    (hx : declaredIn x Γ = true) {s : Statement} (hs : s ∈ ss) {name : Token}
    (hname : s.declared? = some name) : name.lexeme ≠ x := by
  induction ss generalizing Γ with
  | nil => cases hs
  | cons first rest ih =>
    rcases List.mem_cons.1 hs with rfl | hs
    · rintro rfl
      exact Bool.false_ne_true ((h.1.declaredIn_eq_false hname).symm.trans hx)
    · exact ih h.2 (declaredIn_scopesAfter first hx) hs

theorem isSome_lookup_withParameters {parameters : List Token} {names : Names}
    (h : (∃ p ∈ parameters, p.lexeme = x) ∨ (names.lookup x).isSome = true) :
    ((withParameters parameters names).lookup x).isSome = true := by
  induction parameters generalizing names with
  | nil => exact h.resolve_left (by simp)
  | cons first rest ih =>
    refine ih ?_
    by_cases hfirst : x = first.lexeme
    · exact .inr (by simp [hfirst])
    · rcases h with ⟨p, hp, hx⟩ | hnames
      · exact .inl ⟨p, (List.mem_cons.1 hp).resolve_left fun heq => hfirst (heq ▸ hx.symm), hx⟩
      · exact .inr (by simpa [List.lookup_cons, beq_false_of_ne hfirst] using hnames)

theorem exists_scopesAfter (s : Statement) (names : Names) :
    ∃ names', s.scopesAfter (names :: Γ) = names' :: Γ := by
  cases s <;> exact ⟨_, rfl⟩

/-- A scope that declares a variable under a name has no function of this name. -/
theorem Statement.AllBound.ne_of_declaresVariable {parameters : List Token} {ss : List Statement}
    {names : Names} (h : Statement.AllBound t ss (names :: Γ))
    (hnames : ∀ p ∈ parameters, (names.lookup p.lexeme).isSome = true)
    (hx : declaresVariable x parameters ss = true) {name : Token} {ps : List Token}
    {body : List Statement} (hs : .function name ps body ∈ ss) : name.lexeme ≠ x := by
  simp only [declaresVariable, Bool.or_eq_true, List.any_eq_true, decide_eq_true_eq] at hx
  rcases hx with ⟨p, hp, rfl⟩ | ⟨s, hmem, hvar⟩
  · exact h.ne_of_declaredIn (hnames p hp) hs (by rfl)
  · obtain ⟨declared, initializer, rfl, rfl⟩ :
        ∃ declared initializer, s = .var declared initializer ∧ declared.lexeme = x := by
      cases s <;> simp_all
    clear hvar hnames
    -- Whichever of the two comes first, the other one finds its name declared.
    induction ss generalizing names with
    | nil => cases hs
    | cons first rest ih =>
      rcases List.mem_cons.1 hs with rfl | hslater
      · have hrest : .var declared initializer ∈ rest :=
          (List.mem_cons.1 hmem).resolve_left fun heq => by cases heq
        exact (h.2.ne_of_declaredIn (declaredIn_declaring _ _) hrest (by rfl)).symm
      · rcases List.mem_cons.1 hmem with rfl | hlater
        · exact h.2.ne_of_declaredIn (declaredIn_declaring _ _) hslater (by rfl)
        · obtain ⟨names', hafter⟩ := exists_scopesAfter first names (Γ := Γ)
          have hrest := h.2
          rw [hafter] at hrest
          exact ih hrest hslater hlater

end

section
variable {ρ : Renaming} {t : Table} {k : Nat}

/-- Nothing among some tokens has the new name. -/
def Renaming.Unused (ρ : Renaming) (tokens : List Token) : Prop :=
  ∀ token ∈ tokens, token.lexeme ≠ ρ.new

/-- Functions that are declared in a chosen scope keep their names. -/
def Renaming.Spares (ρ : Renaming) (marks : List Bool) (ss : List Statement) : Prop :=
  marks.headD false = true → ∀ name parameters body, .function name parameters body ∈ ss →
    name.lexeme ≠ ρ.old

namespace Renaming

theorem Unused.left {us vs : List Token} (h : ρ.Unused (us ++ vs)) : ρ.Unused us :=
  fun token hmem => h token (List.mem_append_left _ hmem)

theorem Unused.right {us vs : List Token} (h : ρ.Unused (us ++ vs)) : ρ.Unused vs :=
  fun token hmem => h token (List.mem_append_right _ hmem)

theorem Unused.tail {u : Token} {us : List Token} (h : ρ.Unused (u :: us)) : ρ.Unused us :=
  fun token hmem => h token (List.mem_cons_of_mem _ hmem)

theorem Unused.fits {chosen : Bool} {u : Token} {us : List Token} (h : ρ.Unused us)
    (hu : u ∈ us) : ρ.Fits chosen u :=
  fun _ => h u hu

theorem token_of_ne {chosen : Bool} {u : Token} (h : chosen = true → u.lexeme ≠ ρ.old) :
    ρ.token chosen u = u := by
  cases chosen with
  | false => exact token_false u
  | true => simp [token, Renaming.name, h rfl]

/-- A scope is chosen for the variable that it declares. -/
theorem spares_chosen {n : Nat} {parameters : List Token} {ss : List Statement}
    {names : Names} {Γ : List Names} {marks : List Bool}
    (h : Statement.AllBound t ss (names :: Γ))
    (hnames : ∀ p ∈ parameters, (names.lookup p.lexeme).isSome = true) :
    ρ.Spares (ρ.chosen k n parameters ss :: marks) ss := by
  intro hchosen name ps body hmem
  have hx := (Bool.and_eq_true_iff.1 hchosen).2
  exact h.ne_of_declaresVariable hnames hx hmem

end Renaming

open Renaming (Unused Spares)

theorem lookup_parameters {parameters : List Token} :
    ∀ p ∈ parameters, ((withParameters parameters []).lookup p.lexeme).isSome = true :=
  fun p hp => isSome_lookup_withParameters (.inl ⟨p, hp, rfl⟩)

theorem spares_branch {s : Statement} (h : s.isDeclaration = false) (marks : List Bool) :
    ρ.Spares marks [s] := by
  intro _ name parameters body hmem
  obtain rfl := List.mem_singleton.1 hmem
  cases h

mutual

/-- In a bound tree without the new name, the variable of one scope can be renamed. -/
theorem Expr.renames_rename {marks : List Bool} {Γ : List Names} (n : Nat) : (e : Expr) →
    e.Bound t Γ → ρ.Unused e.tokens → e.Renames ρ t marks (e.rename ρ t k marks n)
  | .literal _, _, _ => .literal
  | .grouping inner, hb, hu => .grouping (inner.renames_rename n hb hu)
  | .unary _ operand, hb, hu => .unary (operand.renames_rename n hb hu.tail)
  | .binary left _ right, hb, hu =>
    .binary (left.renames_rename n hb.1 hu.left) (right.renames_rename _ hb.2 hu.right.tail)
  | .logical left _ right, hb, hu =>
    .logical (left.renames_rename n hb.1 hu.left) (right.renames_rename _ hb.2 hu.right.tail)
  | .ternary condition a b, hb, hu =>
    .ternary (condition.renames_rename n hb.1 hu.left)
      (a.renames_rename _ hb.2.1 hu.right.left) (b.renames_rename _ hb.2.2 hu.right.right)
  | .access _ _, _, hu => .access (hu.fits List.mem_cons_self)
  | .assign _ _ value, hb, hu =>
    .assign (hu.fits List.mem_cons_self) (value.renames_rename n hb.1 hu.tail)
  | .call callee _ arguments, hb, hu =>
    .call (callee.renames_rename n hb.1 hu.left)
      (Expr.renamesAll_rename _ arguments hb.2 hu.right.left)
  | .function _ _ body, hb, hu =>
    .function (fun _ hp => hu.tail.left.fits hp)
      (Statement.renamesAll_rename _ body hb.2 hu.tail.right
        (Renaming.spares_chosen hb.2 lookup_parameters))

theorem Expr.renamesAll_rename {marks : List Bool} {Γ : List Names} (n : Nat) :
    (es : List Expr) → Expr.AllBound t es Γ → ρ.Unused (Expr.allTokens es) →
    Expr.RenamesAll ρ t marks es (Expr.renameAll ρ t k marks n es)
  | [], _, _ => .nil
  | e :: es, hb, hu =>
    .cons (e.renames_rename n hb.1 hu.left) (Expr.renamesAll_rename _ es hb.2 hu.right)

theorem Statement.renames_rename {marks : List Bool} {Γ : List Names} (n : Nat) :
    (s : Statement) → s.Bound t Γ → ρ.Unused s.tokens → ρ.Spares marks [s] →
    s.Renames ρ t marks (s.rename ρ t k marks n)
  | .block ss, hb, hu, _ =>
    .block _ (Statement.renamesAll_rename _ ss hb hu (Renaming.spares_chosen hb nofun))
  | .expression e, hb, hu, _ => .expression (e.renames_rename n hb hu)
  | .function _ _ body, hb, hu, hs =>
    .function (hu.fits List.mem_cons_self)
      (Renaming.token_of_ne fun hhead => hs hhead _ _ _ (List.mem_singleton.2 rfl))
      (fun _ hp => hu.tail.left.fits hp)
      (Statement.renamesAll_rename _ body hb.2.2 hu.tail.right
        (Renaming.spares_chosen hb.2.2 lookup_parameters))
  | .ifElse condition a none, hb, hu, _ =>
    .ifThen (condition.renames_rename n hb.1 hu.left)
      (a.renames_rename _ hb.2.1 hu.right (spares_branch hb.2.2 marks))
  | .ifElse condition a (some b), hb, hu, _ =>
    .ifElse (condition.renames_rename n hb.1 hu.left)
      (a.renames_rename _ hb.2.1 hu.right.left (spares_branch hb.2.2.1 marks))
      (b.renames_rename _ hb.2.2.2.1 hu.right.right (spares_branch hb.2.2.2.2 marks))
  | .print e, hb, hu, _ => .print (e.renames_rename n hb hu)
  | .return _ none, _, _, _ => .returnNone
  | .return _ (some e), hb, hu, _ => .returnSome (e.renames_rename n hb hu.tail)
  | .var _ none, _, hu, _ => .varNone (hu.fits List.mem_cons_self)
  | .var _ (some e), hb, hu, _ =>
    .varSome (hu.fits List.mem_cons_self) (e.renames_rename n hb.2 hu.tail)
  | .while condition body, hb, hu, _ =>
    .while (condition.renames_rename n hb.1 hu.left)
      (body.renames_rename _ hb.2.1 hu.right (spares_branch hb.2.2 marks))

theorem Statement.renamesAll_rename {marks : List Bool} {Γ : List Names} (n : Nat) :
    (ss : List Statement) → Statement.AllBound t ss Γ → ρ.Unused (Statement.allTokens ss) →
    ρ.Spares marks ss → Statement.RenamesAll ρ t marks ss (Statement.renameAll ρ t k marks n ss)
  | [], _, _, _ => .nil
  | s :: ss, hb, hu, hs =>
    .cons (s.renames_rename n hb.1 hu.left fun hhead name ps body hmem =>
        hs hhead name ps body (List.mem_singleton.1 hmem ▸ List.mem_cons_self))
      (Statement.renamesAll_rename _ ss hb.2 hu.right fun hhead name ps body hmem =>
        hs hhead name ps body (List.mem_cons_of_mem _ hmem))

end

end

end Lox

import Lox.Proofs.Syntax.Sites

/-!
# Trees with other labels

The line of a token and the site of a use are labels: they say where something stands and which use
it is, and nothing else depends on them. A relabelling gives a tree other lines and other sites.
-/
namespace Lox

/-- Another line for every line, and another site for every site. -/
structure Relabelling where
  line : Int → Int
  site : Site → Site

namespace Relabelling

/-- Other lines, with the sites as they are. -/
def lines (f : Int → Int) : Relabelling := ⟨f, id⟩

/-- Lines that are moved down. -/
def down (n : Int) : Relabelling := lines (· + n)

/-- Sites that begin at `n` instead of zero, with the lines as they are. -/
def onward (n : Site) : Relabelling := ⟨id, (· + n)⟩

/-- One relabelling, and then another one. -/
def andThen (ρ τ : Relabelling) : Relabelling := ⟨τ.line ∘ ρ.line, τ.site ∘ ρ.site⟩

/-- No line and none of these sites is changed. -/
structure Fixes (ρ : Relabelling) (sites : List Site) : Prop where
  line : ∀ l, ρ.line l = l
  site : ∀ site ∈ sites, ρ.site site = site

theorem Fixes.mono {ρ : Relabelling} {sites sites' : List Site} (h : ρ.Fixes sites)
    (hsub : sites' ⊆ sites) : ρ.Fixes sites' :=
  ⟨h.line, fun site hsite => h.site site (hsub hsite)⟩

/-- Nothing is changed by the lines that were there. -/
theorem fixes_lines_id (sites : List Site) : (lines id).Fixes sites :=
  ⟨fun _ => rfl, fun _ _ => rfl⟩

theorem Fixes.left {ρ : Relabelling} {sites sites' : List Site} (h : ρ.Fixes (sites ++ sites')) :
    ρ.Fixes sites :=
  h.mono (List.subset_append_left _ _)

theorem Fixes.right {ρ : Relabelling} {sites sites' : List Site} (h : ρ.Fixes (sites ++ sites')) :
    ρ.Fixes sites' :=
  h.mono (List.subset_append_right _ _)

end Relabelling

def Token.relabel (ρ : Relabelling) (t : Token) : Token := { t with line := ρ.line t.line }

namespace Token

variable (ρ τ : Relabelling) (t : Token)

@[simp] theorem kind_relabel : (t.relabel ρ).kind = t.kind := rfl

@[simp] theorem lexeme_relabel : (t.relabel ρ).lexeme = t.lexeme := rfl

@[simp] theorem literal_relabel : (t.relabel ρ).literal = t.literal := rfl

@[simp] theorem line_relabel : (t.relabel ρ).line = ρ.line t.line := rfl

@[simp] theorem relabel_relabel : (t.relabel ρ).relabel τ = t.relabel (ρ.andThen τ) := rfl

end Token

theorem Relabelling.Fixes.token {ρ : Relabelling} {sites : List Site} (h : ρ.Fixes sites)
    (t : Token) : t.relabel ρ = t := by
  rw [Token.relabel, h.line]

theorem Relabelling.Fixes.tokens {ρ : Relabelling} {sites : List Site} (h : ρ.Fixes sites)
    (ts : List Token) : ts.map (Token.relabel ρ) = ts := by
  rw [List.map_congr_left fun t _ => h.token t, List.map_id']

mutual

def Expr.relabel (ρ : Relabelling) : Expr → Expr
  | .literal value => .literal value
  | .grouping inner => .grouping (inner.relabel ρ)
  | .unary operator operand => .unary (operator.relabel ρ) (operand.relabel ρ)
  | .binary left operator right =>
    .binary (left.relabel ρ) (operator.relabel ρ) (right.relabel ρ)
  | .logical left operator right =>
    .logical (left.relabel ρ) (operator.relabel ρ) (right.relabel ρ)
  | .ternary condition thenBranch elseBranch =>
    .ternary (condition.relabel ρ) (thenBranch.relabel ρ) (elseBranch.relabel ρ)
  | .access site name => .access (ρ.site site) (name.relabel ρ)
  | .assign site name value => .assign (ρ.site site) (name.relabel ρ) (value.relabel ρ)
  | .call callee paren arguments =>
    .call (callee.relabel ρ) (paren.relabel ρ) (Expr.relabelAll ρ arguments)
  | .function keyword parameters body =>
    .function (keyword.relabel ρ) (parameters.map (Token.relabel ρ))
      (Statement.relabelAll ρ body)

def Expr.relabelAll (ρ : Relabelling) : List Expr → List Expr
  | [] => []
  | e :: rest => e.relabel ρ :: Expr.relabelAll ρ rest

def Statement.relabel (ρ : Relabelling) : Statement → Statement
  | .block statements => .block (Statement.relabelAll ρ statements)
  | .expression value => .expression (value.relabel ρ)
  | .function name parameters body =>
    .function (name.relabel ρ) (parameters.map (Token.relabel ρ)) (Statement.relabelAll ρ body)
  | .ifElse condition thenBranch none =>
    .ifElse (condition.relabel ρ) (thenBranch.relabel ρ) none
  | .ifElse condition thenBranch (some elseBranch) =>
    .ifElse (condition.relabel ρ) (thenBranch.relabel ρ) (some (elseBranch.relabel ρ))
  | .print value => .print (value.relabel ρ)
  | .return keyword none => .return (keyword.relabel ρ) none
  | .return keyword (some value) => .return (keyword.relabel ρ) (some (value.relabel ρ))
  | .var name none => .var (name.relabel ρ) none
  | .var name (some initializer) => .var (name.relabel ρ) (some (initializer.relabel ρ))
  | .while condition body => .while (condition.relabel ρ) (body.relabel ρ)

/-- All of some statements relabelled. -/
def Statement.relabelAll (ρ : Relabelling) : List Statement → List Statement
  | [] => []
  | s :: rest => s.relabel ρ :: Statement.relabelAll ρ rest

end

theorem Expr.relabelAll_eq_map (ρ : Relabelling) (es : List Expr) :
    Expr.relabelAll ρ es = es.map (Expr.relabel ρ) := by
  induction es with
  | nil => rfl
  | cons e es ih => rw [Expr.relabelAll, ih, List.map_cons]

theorem Statement.relabelAll_append (ρ : Relabelling) (ss ss' : List Statement) :
    Statement.relabelAll ρ (ss ++ ss') =
      Statement.relabelAll ρ ss ++ Statement.relabelAll ρ ss' := by
  induction ss with
  | nil => rfl
  | cons s ss ih => rw [List.cons_append, Statement.relabelAll, ih]; rfl

section
variable (ρ τ : Relabelling)

mutual

/-- Two relabellings are one. -/
theorem Expr.relabel_relabel : (e : Expr) → (e.relabel ρ).relabel τ = e.relabel (ρ.andThen τ)
  | .literal _ => rfl
  | .grouping inner => by simp [Expr.relabel, inner.relabel_relabel]
  | .unary _ operand => by simp [Expr.relabel, operand.relabel_relabel]
  | .binary left _ right => by simp [Expr.relabel, left.relabel_relabel, right.relabel_relabel]
  | .logical left _ right => by simp [Expr.relabel, left.relabel_relabel, right.relabel_relabel]
  | .ternary condition thenBranch elseBranch => by
    simp [Expr.relabel, condition.relabel_relabel, thenBranch.relabel_relabel,
      elseBranch.relabel_relabel]
  | .access _ _ => rfl
  | .assign _ _ value => by
    simp [Expr.relabel, value.relabel_relabel, Relabelling.andThen]
  | .call callee _ arguments => by
    simp [Expr.relabel, callee.relabel_relabel, Expr.relabelAll_relabelAll arguments]
  | .function _ _ body => by simp [Expr.relabel, Statement.relabelAll_relabelAll body]

theorem Expr.relabelAll_relabelAll : (es : List Expr) →
    Expr.relabelAll τ (Expr.relabelAll ρ es) = Expr.relabelAll (ρ.andThen τ) es
  | [] => rfl
  | e :: es => by simp [Expr.relabelAll, e.relabel_relabel, Expr.relabelAll_relabelAll es]

theorem Statement.relabel_relabel : (s : Statement) →
    (s.relabel ρ).relabel τ = s.relabel (ρ.andThen τ)
  | .block ss => by simp [Statement.relabel, Statement.relabelAll_relabelAll ss]
  | .expression value => by simp [Statement.relabel, value.relabel_relabel]
  | .function _ _ body => by simp [Statement.relabel, Statement.relabelAll_relabelAll body]
  | .ifElse condition thenBranch none => by
    simp [Statement.relabel, condition.relabel_relabel, thenBranch.relabel_relabel]
  | .ifElse condition thenBranch (some elseBranch) => by
    simp [Statement.relabel, condition.relabel_relabel, thenBranch.relabel_relabel,
      elseBranch.relabel_relabel]
  | .print value => by simp [Statement.relabel, value.relabel_relabel]
  | .return _ none => rfl
  | .return _ (some value) => by simp [Statement.relabel, value.relabel_relabel]
  | .var _ none => rfl
  | .var _ (some initializer) => by simp [Statement.relabel, initializer.relabel_relabel]
  | .while condition body => by
    simp [Statement.relabel, condition.relabel_relabel, body.relabel_relabel]

theorem Statement.relabelAll_relabelAll : (ss : List Statement) →
    Statement.relabelAll τ (Statement.relabelAll ρ ss) = Statement.relabelAll (ρ.andThen τ) ss
  | [] => rfl
  | s :: ss => by
    simp [Statement.relabelAll, s.relabel_relabel, Statement.relabelAll_relabelAll ss]

end

end

section
variable {ρ : Relabelling}

mutual

/-- A tree whose labels are not changed stays as it is. -/
theorem Expr.relabel_of_fixes : (e : Expr) → ρ.Fixes e.sites → e.relabel ρ = e
  | .literal _, _ => rfl
  | .grouping inner, h => by rw [Expr.relabel, inner.relabel_of_fixes h]
  | .unary operator operand, h => by
    rw [Expr.relabel, operand.relabel_of_fixes h, h.token operator]
  | .binary left operator right, h => by
    rw [Expr.relabel, left.relabel_of_fixes h.left, right.relabel_of_fixes h.right,
      h.token operator]
  | .logical left operator right, h => by
    rw [Expr.relabel, left.relabel_of_fixes h.left, right.relabel_of_fixes h.right,
      h.token operator]
  | .ternary condition thenBranch elseBranch, h => by
    rw [Expr.relabel, condition.relabel_of_fixes h.left.left,
      thenBranch.relabel_of_fixes h.left.right, elseBranch.relabel_of_fixes h.right]
  | .access site name, h => by
    rw [Expr.relabel, h.token name, h.site site (by simp [Expr.sites])]
  | .assign site name value, h => by
    rw [Expr.relabel, h.token name, h.site site (by simp [Expr.sites]),
      value.relabel_of_fixes (h.mono (List.subset_cons_self _ _))]
  | .call callee paren arguments, h => by
    rw [Expr.relabel, callee.relabel_of_fixes h.left, h.token paren,
      Expr.relabelAll_of_fixes arguments h.right]
  | .function keyword parameters body, h => by
    rw [Expr.relabel, h.token keyword, h.tokens parameters,
      Statement.relabelAll_of_fixes body h]

theorem Expr.relabelAll_of_fixes : (es : List Expr) → ρ.Fixes (Expr.allSites es) →
    Expr.relabelAll ρ es = es
  | [], _ => rfl
  | e :: es, h => by
    rw [Expr.relabelAll, e.relabel_of_fixes h.left, Expr.relabelAll_of_fixes es h.right]

theorem Statement.relabel_of_fixes : (s : Statement) → ρ.Fixes s.sites → s.relabel ρ = s
  | .block ss, h => by rw [Statement.relabel, Statement.relabelAll_of_fixes ss h]
  | .expression value, h => by rw [Statement.relabel, value.relabel_of_fixes h]
  | .function name parameters body, h => by
    rw [Statement.relabel, h.token name, h.tokens parameters,
      Statement.relabelAll_of_fixes body h]
  | .ifElse condition thenBranch none, h => by
    rw [Statement.relabel, condition.relabel_of_fixes h.left,
      thenBranch.relabel_of_fixes h.right]
  | .ifElse condition thenBranch (some elseBranch), h => by
    rw [Statement.relabel, condition.relabel_of_fixes h.left.left,
      thenBranch.relabel_of_fixes h.left.right, elseBranch.relabel_of_fixes h.right]
  | .print value, h => by rw [Statement.relabel, value.relabel_of_fixes h]
  | .return keyword none, h => by rw [Statement.relabel, h.token keyword]
  | .return keyword (some value), h => by
    rw [Statement.relabel, h.token keyword, value.relabel_of_fixes h]
  | .var name none, h => by rw [Statement.relabel, h.token name]
  | .var name (some initializer), h => by
    rw [Statement.relabel, h.token name, initializer.relabel_of_fixes h]
  | .while condition body, h => by
    rw [Statement.relabel, condition.relabel_of_fixes h.left, body.relabel_of_fixes h.right]

theorem Statement.relabelAll_of_fixes : (ss : List Statement) →
    ρ.Fixes (Statement.allSites ss) → Statement.relabelAll ρ ss = ss
  | [], _ => rfl
  | s :: ss, h => by
    rw [Statement.relabelAll, s.relabel_of_fixes h.left, Statement.relabelAll_of_fixes ss h.right]

end

end

end Lox

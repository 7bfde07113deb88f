import Lox.Proofs.Scoping.LexicalScope
import Lox.Proofs.Syntax.Relabelling

/-!
# Binding under other labels

A pass over a relabelled tree finds what a pass over the tree finds, relabelled; the hops are the
same. A pass over statements behind others finds what it finds of them alone, behind what was found
before: no scope stays open between them.
-/
namespace Lox

namespace Binding

variable (ρ : Relabelling)

def Visit.relabel : Visit → Visit
  | .expression e => .expression (e.relabel ρ)
  | .statement s => .statement (s.relabel ρ)
  | .enter => .enter
  | .leave => .leave
  | .declare name => .declare (name.relabel ρ)
  | .settle name => .settle (name.relabel ρ)
  | .use kind site name => .use kind (ρ.site site) (name.relabel ρ)
  | .leaveFunction keyword inside => .leaveFunction (keyword.relabel ρ) inside

def Entry.relabel (e : Entry) : Entry :=
  { e with site := ρ.site e.site, name := e.name.relabel ρ }

def Report.relabel (r : Report) : Report := { r with token := r.token.relabel ρ }

def Progress.relabel (p : Progress) : Progress :=
  { p with entries := p.entries.map (Entry.relabel ρ), reports := p.reports.map (Report.relabel ρ) }

theorem Visit.relabel_parameters (names : List Token) :
    Visit.parameters (names.map (Token.relabel ρ)) =
      (Visit.parameters names).map (Visit.relabel ρ) := by
  induction names with
  | nil => rfl
  | cons name names ih =>
    simpa [Visit.parameters, Visit.relabel] using ih

theorem Visit.relabel_function (names : List Token) (body : List Visit) :
    Visit.function (names.map (Token.relabel ρ)) (body.map (Visit.relabel ρ)) =
      (Visit.function names body).map (Visit.relabel ρ) := by
  simp [Visit.function, Visit.relabel_parameters, Visit.relabel]

/-- A relabelled visit does what the visit does. -/
theorem Visit.step_relabel (v : Visit) (p : Progress) :
    (v.relabel ρ).step (p.relabel ρ) = (v.step p).relabel ρ := by
  cases v with
  | declare name =>
    have hdeclares : (p.relabel ρ).declares (name.relabel ρ).lexeme = p.declares name.lexeme := rfl
    simp only [Visit.relabel, Visit.step, hdeclares]
    cases p.declares name.lexeme <;> rfl
  | use kind site name =>
    cases kind <;> cases hr : readable name.lexeme p.scopes <;>
      cases hh : hops? name.lexeme p.scopes <;>
      simp [Visit.relabel, Visit.step, Progress.relabel, Entry.relabel, Report.relabel, hr, hh]
  | leaveFunction keyword inside => cases inside <;> rfl
  | _ => rfl

theorem walk_relabel (visits : List Visit) (p : Progress) :
    walk (visits.map (Visit.relabel ρ)) (p.relabel ρ) = (walk visits p).relabel ρ := by
  induction visits generalizing p with
  | nil => rfl
  | cons v visits ih => rw [List.map_cons, walk_cons, Visit.step_relabel, ih, walk_cons]

end Binding

open Binding (Visit)

variable (ρ : Relabelling)

mutual

/-- A relabelled tree has the visits of the tree, relabelled. -/
theorem Expr.visits_relabel : (e : Expr) → (i : Bool) →
    (e.relabel ρ).visits i = (e.visits i).map (Visit.relabel ρ)
  | .literal _, _ => rfl
  | .grouping inner, i => by
    simp [Expr.relabel, Expr.visits, Visit.relabel, inner.visits_relabel]
  | .unary _ operand, i => by
    simp [Expr.relabel, Expr.visits, Visit.relabel, operand.visits_relabel]
  | .binary left _ right, i => by
    simp [Expr.relabel, Expr.visits, Visit.relabel, left.visits_relabel, right.visits_relabel]
  | .logical left _ right, i => by
    simp [Expr.relabel, Expr.visits, Visit.relabel, left.visits_relabel, right.visits_relabel]
  | .ternary condition thenBranch elseBranch, i => by
    simp [Expr.relabel, Expr.visits, Visit.relabel, condition.visits_relabel,
      thenBranch.visits_relabel, elseBranch.visits_relabel]
  | .access _ _, _ => rfl
  | .assign _ _ value, i => by
    simp [Expr.relabel, Expr.visits, Visit.relabel, value.visits_relabel]
  | .call callee _ arguments, i => by
    simp [Expr.relabel, Expr.visits, Visit.relabel, callee.visits_relabel,
      Expr.allVisits_relabel arguments]
  | .function _ _ body, i => by
    simp [Expr.relabel, Expr.visits, Visit.relabel, Visit.relabel_function,
      Statement.allVisits_relabel body]

theorem Expr.allVisits_relabel : (es : List Expr) → (i : Bool) →
    Expr.allVisits (Expr.relabelAll ρ es) i = (Expr.allVisits es i).map (Visit.relabel ρ)
  | [], _ => rfl
  | e :: es, i => by
    simp [Expr.relabelAll, Expr.allVisits, e.visits_relabel, Expr.allVisits_relabel es]

theorem Statement.visits_relabel : (s : Statement) → (i : Bool) →
    (s.relabel ρ).visits i = (s.visits i).map (Visit.relabel ρ)
  | .block ss, i => by
    simp [Statement.relabel, Statement.visits, Visit.relabel, Statement.allVisits_relabel ss]
  | .expression value, i => by
    simp [Statement.relabel, Statement.visits, Visit.relabel, value.visits_relabel]
  | .function _ _ body, i => by
    simp [Statement.relabel, Statement.visits, Visit.relabel, Visit.relabel_function,
      Statement.allVisits_relabel body]
  | .ifElse condition thenBranch none, i => by
    simp [Statement.relabel, Statement.visits, Visit.relabel, condition.visits_relabel,
      thenBranch.visits_relabel]
  | .ifElse condition thenBranch (some elseBranch), i => by
    simp [Statement.relabel, Statement.visits, Visit.relabel, condition.visits_relabel,
      thenBranch.visits_relabel, elseBranch.visits_relabel]
  | .print value, i => by
    simp [Statement.relabel, Statement.visits, Visit.relabel, value.visits_relabel]
  | .return _ none, _ => rfl
  | .return _ (some value), i => by
    simp [Statement.relabel, Statement.visits, Visit.relabel, value.visits_relabel]
  | .var _ none, _ => rfl
  | .var _ (some initializer), i => by
    simp [Statement.relabel, Statement.visits, Visit.relabel, initializer.visits_relabel]
  | .while condition body, i => by
    simp [Statement.relabel, Statement.visits, Visit.relabel, condition.visits_relabel,
      body.visits_relabel]

theorem Statement.allVisits_relabel : (ss : List Statement) → (i : Bool) →
    Statement.allVisits (Statement.relabelAll ρ ss) i =
      (Statement.allVisits ss i).map (Visit.relabel ρ)
  | [], _ => rfl
  | s :: ss, i => by
    simp [Statement.relabelAll, Statement.allVisits, s.visits_relabel,
      Statement.allVisits_relabel ss]

end

mutual

theorem Expr.depth_relabel : (e : Expr) → (e.relabel ρ).depth = e.depth
  | .literal _ => rfl
  | .grouping inner => by simp [Expr.relabel, Expr.depth, inner.depth_relabel]
  | .unary _ operand => by simp [Expr.relabel, Expr.depth, operand.depth_relabel]
  | .binary left _ right => by
    simp [Expr.relabel, Expr.depth, left.depth_relabel, right.depth_relabel]
  | .logical left _ right => by
    simp [Expr.relabel, Expr.depth, left.depth_relabel, right.depth_relabel]
  | .ternary condition thenBranch elseBranch => by
    simp [Expr.relabel, Expr.depth, condition.depth_relabel, thenBranch.depth_relabel,
      elseBranch.depth_relabel]
  | .access _ _ => rfl
  | .assign _ _ value => by simp [Expr.relabel, Expr.depth, value.depth_relabel]
  | .call callee _ arguments => by
    simp [Expr.relabel, Expr.depth, callee.depth_relabel, Expr.depths_relabel arguments]
  | .function _ _ body => by simp [Expr.relabel, Expr.depth, Statement.depths_relabel body]

theorem Expr.depths_relabel : (es : List Expr) →
    Expr.depths (Expr.relabelAll ρ es) = Expr.depths es
  | [] => rfl
  | e :: es => by simp [Expr.relabelAll, Expr.depths, e.depth_relabel, Expr.depths_relabel es]

theorem Statement.depth_relabel : (s : Statement) → (s.relabel ρ).depth = s.depth
  | .block ss => by simp [Statement.relabel, Statement.depth, Statement.depths_relabel ss]
  | .expression value => by simp [Statement.relabel, Statement.depth, value.depth_relabel]
  | .function _ _ body => by
    simp [Statement.relabel, Statement.depth, Statement.depths_relabel body]
  | .ifElse condition thenBranch none => by
    simp [Statement.relabel, Statement.depth, condition.depth_relabel, thenBranch.depth_relabel]
  | .ifElse condition thenBranch (some elseBranch) => by
    simp [Statement.relabel, Statement.depth, condition.depth_relabel, thenBranch.depth_relabel,
      elseBranch.depth_relabel]
  | .print value => by simp [Statement.relabel, Statement.depth, value.depth_relabel]
  | .return _ none => rfl
  | .return _ (some value) => by
    simp [Statement.relabel, Statement.depth, value.depth_relabel]
  | .var _ none => rfl
  | .var _ (some initializer) => by
    simp [Statement.relabel, Statement.depth, initializer.depth_relabel]
  | .while condition body => by
    simp [Statement.relabel, Statement.depth, condition.depth_relabel, body.depth_relabel]

theorem Statement.depths_relabel : (ss : List Statement) →
    Statement.depths (Statement.relabelAll ρ ss) = Statement.depths ss
  | [] => rfl
  | s :: ss => by
    simp [Statement.relabelAll, Statement.depths, s.depth_relabel, Statement.depths_relabel ss]

end

theorem Statement.allVisits_append (ss ss' : List Statement) (i : Bool) :
    Statement.allVisits (ss ++ ss') i = Statement.allVisits ss i ++ Statement.allVisits ss' i := by
  induction ss with
  | nil => rfl
  | cons s ss ih => rw [List.cons_append, allVisits, ih, allVisits, List.append_assoc]

theorem Statement.depths_append (ss ss' : List Statement) :
    Statement.depths (ss ++ ss') = max (Statement.depths ss) (Statement.depths ss') := by
  induction ss with
  | nil => simp [Statement.depths]
  | cons s ss ih => rw [List.cons_append, depths, ih, depths, Nat.max_assoc]

namespace Binding

/-- What was found at one place with what was found before, at another one. -/
def Progress.behind (p q : Progress) : Progress :=
  { p with entries := p.entries ++ q.entries, reports := p.reports ++ q.reports }

/-- What was found before does not matter to a visit. -/
theorem Visit.step_behind (v : Visit) (p q : Progress) :
    v.step (p.behind q) = (v.step p).behind q := by
  cases v with
  | declare name =>
    have hdeclares : (p.behind q).declares name.lexeme = p.declares name.lexeme := rfl
    simp only [Visit.step, hdeclares]
    cases p.declares name.lexeme <;> rfl
  | use kind site name =>
    cases kind <;> cases hr : readable name.lexeme p.scopes <;>
      cases hh : hops? name.lexeme p.scopes <;>
      simp [Visit.step, Progress.behind, hr, hh]
  | leaveFunction keyword inside => cases inside <;> rfl
  | _ => rfl

theorem walk_behind (visits : List Visit) (p q : Progress) :
    walk visits (p.behind q) = (walk visits p).behind q := by
  induction visits generalizing p with
  | nil => rfl
  | cons v visits ih => rw [walk_cons, walk_cons, Visit.step_behind, ih]

variable {room : Nat} {ss ss' : List Statement}

/-- Relabelled statements are resolved as before, at other sites and lines. -/
theorem resolve_relabelAll (h : Statement.depths ss ≤ room) :
    resolve room (.program (Statement.relabelAll ρ ss)) =
      ⟨(resolve room (.program ss)).entries.map (Entry.relabel ρ),
        (resolve room (.program ss)).reports.map (Report.relabel ρ), true⟩ := by
  have hunit : (Code.program ss).depth ≤ room := h
  have hunit' : (Code.program (Statement.relabelAll ρ ss)).depth ≤ room := by
    rw [Code.depth, Statement.depths_relabel]
    exact h
  have hwalk : walk (Code.program (Statement.relabelAll ρ ss)).visits .start =
      (walk (Code.program ss).visits .start).relabel ρ := by
    rw [← walk_relabel, Code.visits, Statement.allVisits_relabel]
    rfl
  rw [resolve_eq_walk hunit, resolve_eq_walk hunit', hwalk]
  simp [Resolved.ofProgress, Progress.relabel]

/-- Statements that are behind others are resolved as they are alone. -/
theorem resolve_append (h : Statement.depths ss ≤ room) (h' : Statement.depths ss' ≤ room) :
    resolve room (.program (ss ++ ss')) =
      ⟨(resolve room (.program ss)).entries ++ (resolve room (.program ss')).entries,
        (resolve room (.program ss)).reports ++ (resolve room (.program ss')).reports, true⟩ := by
  have hunit : (Code.program ss).depth ≤ room := h
  have hunit' : (Code.program ss').depth ≤ room := h'
  have hboth : (Code.program (ss ++ ss')).depth ≤ room := by
    rw [Code.depth, Statement.depths_append]
    exact Nat.max_le.2 ⟨h, h'⟩
  have hbetween : walk (Code.program ss).visits .start =
      Progress.start.behind (walk (Code.program ss).visits .start) := by
    have hscopes : (walk (Code.program ss).visits .start).scopes = [] :=
      List.eq_nil_of_length_eq_zero (length_walk (nesting_code _ _))
    have hinside := insideFunction_walk (Code.program ss).visits .start
    cases hp : walk (Code.program ss).visits .start with
    | mk scopes inside entries reports =>
      rw [hp] at hscopes hinside
      obtain rfl : scopes = [] := hscopes
      obtain rfl : inside = false := hinside
      rfl
  have hwalk : walk (Code.program (ss ++ ss')).visits .start =
      (walk (Code.program ss').visits .start).behind (walk (Code.program ss).visits .start) := by
    rw [← walk_behind, ← hbetween, ← walk_append, Code.visits, Statement.allVisits_append]
    rfl
  rw [resolve_eq_walk hunit, resolve_eq_walk hunit', resolve_eq_walk hboth, hwalk]
  simp [Resolved.ofProgress, Progress.behind]

end Binding
end Lox

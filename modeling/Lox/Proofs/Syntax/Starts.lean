import Lox.Proofs.Syntax.Canonical
import Lox.Proofs.Syntax.Written

/-!
# How a written tree begins

The first token of a tree tells an expression from a statement, and a statement from what may stand
behind one. An expression that begins with `fun` has a parenthesis behind it and so is told from a
declaration.
-/
namespace Lox

/-- The first place is of one of these kinds, and behind `fun` comes a parenthesis. -/
def Opens (starts : List Token.Kind) (xs : List Terminal) : Prop :=
  ∃ x ys, xs = x :: ys ∧ x.kind ∈ starts ∧
    (x.kind = .fun → ∃ y zs, ys = y :: zs ∧ y.kind = .leftParen)

namespace Opens

variable {starts starts' : List Token.Kind} {xs : List Terminal}

theorem append (h : Opens starts xs) (ys : List Terminal) : Opens starts (xs ++ ys) := by
  obtain ⟨x, zs, rfl, hx, hfun⟩ := h
  refine ⟨x, zs ++ ys, rfl, hx, fun hk => ?_⟩
  obtain ⟨y, ws, rfl, hy⟩ := hfun hk
  exact ⟨y, ws ++ ys, rfl, hy⟩

theorem mono (h : Opens starts xs) (hs : starts ⊆ starts') : Opens starts' xs := by
  obtain ⟨x, ys, heq, hx, hfun⟩ := h
  exact ⟨x, ys, heq, hs hx, hfun⟩

/-- A tree that does not begin with `fun` may go on with anything. -/
theorem of_ne_fun {x : Terminal} (ys : List Terminal) (hx : x.kind ∈ starts)
    (hk : x.kind ≠ .fun) : Opens starts (x :: ys) :=
  ⟨x, ys, rfl, hx, fun h => absurd h hk⟩

/-- The first token that spells a tree, and the one behind it. -/
theorem spelled {ts : List Token} (h : Opens starts xs) (hs : Spells xs ts) :
    ∃ u us, ts = u :: us ∧ u.kind ∈ starts ∧
      (u.kind = .fun → ∃ v vs, us = v :: vs ∧ v.kind = .leftParen) := by
  obtain ⟨x, ys, rfl, hx, hfun⟩ := h
  obtain ⟨u, us, hu, hus, rfl⟩ := List.forall₂_cons_left_iff.1 hs
  refine ⟨u, us, rfl, hu.kind_eq ▸ hx, fun hk => ?_⟩
  obtain ⟨y, zs, rfl, hy⟩ := hfun (hu.kind_eq ▸ hk)
  obtain ⟨v, vs, hv, -, rfl⟩ := List.forall₂_cons_left_iff.1 hus
  exact ⟨v, vs, rfl, hv.kind_eq.trans hy⟩

end Opens

/-- The kinds that begin an expression. -/
def expressionStarts : List Token.Kind := .bang :: .minus :: Grammar.primaryStarts

theorem Literal.opens (value : Literal) : Opens Grammar.primaryStarts [.constant value] := by
  cases value with
  | bool b => cases b <;> exact .of_ne_fun [] (by decide) (by decide)
  | nil => exact .of_ne_fun [] (by decide) (by decide)
  | number x => exact .of_ne_fun [] (by simp [Terminal.kind, kind, Grammar.primaryStarts]) nofun
  | string s => exact .of_ne_fun [] (by simp [Terminal.kind, kind, Grammar.primaryStarts]) nofun

/-- Only a sign makes an expression begin with something else than a primary one does. -/
theorem Expr.opens_both : (e : Expr) → e.Canonical →
    Opens expressionStarts e.written ∧ (8 ≤ e.tightness → Opens Grammar.primaryStarts e.written)
  | .literal value, _ => ⟨value.opens.mono (by simp [expressionStarts]), fun _ => value.opens⟩
  | .grouping inner, _ => by
    have h : Opens Grammar.primaryStarts (Expr.grouping inner).written :=
      .of_ne_fun _ (by decide) (by decide)
    exact ⟨h.mono (by simp [expressionStarts]), fun _ => h⟩
  | .unary operator operand, hc => by
    have hk : operator.kind = .bang ∨ operator.kind = .minus := by simpa using hc.1
    refine ⟨.of_ne_fun _ ?_ ?_, fun h => absurd h (by simp [Expr.tightness])⟩
    · simp only [Terminal.kind, expressionStarts, List.mem_cons]
      exact hk.imp id .inl
    · rcases hk with hk | hk <;> simp [Terminal.kind, hk]
  | .binary left operator _, hc => by
    obtain ⟨hl, -, level, -, hmem, -⟩ := hc
    refine ⟨(left.opens_both hl).1.append _, fun h => ?_⟩
    have hle := level.tightness_le_six
    rw [Expr.tightness, Grammar.Level.tightness_of_mem hmem] at h
    omega
  | .logical left operator _, hc => by
    obtain ⟨hl, -, level, -, hmem, -⟩ := hc
    refine ⟨(left.opens_both hl).1.append _, fun h => ?_⟩
    have hle := level.tightness_le_six
    rw [Expr.tightness, Grammar.Level.tightness_of_mem hmem] at h
    omega
  | .ternary condition _ _, hc => by
    refine ⟨?_, fun h => absurd h (by simp [Expr.tightness])⟩
    simpa [Expr.written] using (condition.opens_both hc.1).1.append _
  | .access _ name, hc => by
    have hk : name.kind = .identifier := hc
    have h : Opens Grammar.primaryStarts [.kept name] :=
      .of_ne_fun [] (by simp [Terminal.kind, hk, Grammar.primaryStarts])
        (by simp [Terminal.kind, hk])
    exact ⟨h.mono (by simp [expressionStarts]), fun _ => h⟩
  | .assign _ name _, hc => by
    have hk : name.kind = .identifier := hc.1
    refine ⟨.of_ne_fun _ ?_ ?_, fun h => absurd h (by simp [Expr.tightness])⟩
    · simp [Terminal.kind, hk, expressionStarts, Grammar.primaryStarts]
    · simp [Terminal.kind, hk]
  | .call callee paren arguments, hc => by
    have h : Opens Grammar.primaryStarts (Expr.call callee paren arguments).written := by
      simpa [Expr.written] using ((callee.opens_both hc.1).2 hc.2.1).append _
    exact ⟨h.mono (by simp [expressionStarts]), fun _ => h⟩
  | .function keyword parameters body, hc => by
    have hk : keyword.kind = .fun := hc.1
    have h : Opens Grammar.primaryStarts (Expr.function keyword parameters body).written := by
      refine ⟨_, _, rfl, ?_, fun _ => ⟨_, _, rfl, rfl⟩⟩
      simp [Terminal.kind, hk, Grammar.primaryStarts]
    exact ⟨h.mono (by simp [expressionStarts]), fun _ => h⟩

/-- What is no declaration begins with a keyword or a brace of its own, or with an expression. -/
theorem Statement.opens (s : Statement) (hc : s.Canonical) (hd : s.isDeclaration = false) :
    Opens (Grammar.statementStarts ++ expressionStarts) s.written := by
  cases s with
  | expression value => exact ((value.opens_both hc).1.mono (List.subset_append_right _ _)).append _
  | ifElse _ _ elseBranch => cases elseBranch <;> exact .of_ne_fun _ (by decide) (by decide)
  | «return» keyword value =>
    have hk : keyword.kind = .return := by
      cases value with
      | none => exact hc
      | some value => exact hc.1
    cases value <;>
      exact .of_ne_fun _ (by simp [Terminal.kind, hk, Grammar.statementStarts])
        (by simp [Terminal.kind, hk])
  | var | function => cases hd
  | block | print | «while» => exact .of_ne_fun _ (by decide) (by decide)

/-- No statement begins like what may stand behind one. -/
theorem Statement.head_written (s : Statement) (hc : s.Canonical) :
    ∃ x ys, s.written = x :: ys ∧ x.kind ∉ [Token.Kind.else, .rightBrace, .eof] := by
  cases hd : s.isDeclaration with
  | false =>
    obtain ⟨x, ys, heq, hx, -⟩ := s.opens hc hd
    refine ⟨x, ys, heq, fun hk => ?_⟩
    have hdisjoint : ∀ kind ∈ [Token.Kind.else, .rightBrace, .eof],
        kind ∉ Grammar.statementStarts ++ expressionStarts := by decide
    exact hdisjoint x.kind hk hx
  | true =>
    cases s with
    | var _ initializer => cases initializer <;> exact ⟨_, _, rfl, by decide⟩
    | function => exact ⟨_, _, rfl, by decide⟩
    | _ => cases hd

end Lox

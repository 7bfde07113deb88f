import Lox.Proofs.Grammar.Repeating
import Lox.Proofs.Grammar.Soundness

/-!
# Reading trees twice

Every reader of the grammar is repeated by itself, in the sense of `Repeats`: first the loops and
the parts of statements, each for any readers of its parts, and then all trees together, by
induction on the room that is left. An expression looks at the token that it ends at. A statement is
behind a token that it asked for, and at most an `else` makes a difference to it there.
-/
namespace Lox.Grammar

variable {ρ : Relabelling}

section
variable {α β : Type} {n : Nat}

/-- A reader of expressions that is repeated by itself. -/
abbrev RepeatsExpr (ρ : Relabelling) (act : Reader Expr) : Prop :=
  ∀ n, Repeats ρ n .within act act (Expr.relabel ρ)

/-- A reader of statements that is repeated by itself, and takes a token. -/
abbrev RepeatsStatement (ρ : Relabelling) (act : Reader Statement) : Prop :=
  ∀ n, Repeats ρ n .through act act (Statement.relabel ρ)

theorem relabel_combine (ρ : Relabelling) (level : Level) (left : Expr) (operator : Token)
    (right : Expr) : (level.combine left operator right).relabel ρ =
      level.combine (left.relabel ρ) (operator.relabel ρ) (right.relabel ρ) := by
  cases level <;> rfl

theorem repeats_chain {level : Level} {operand : Reader Expr} (ho : RepeatsExpr ρ operand)
    (left : Expr) {bound bound' : List Token} (hbound : n ≤ bound.length)
    (hbound' : n ≤ bound'.length) :
    Repeats ρ n .within (chain level operand bound left)
      (chain level operand bound' (left.relabel ρ)) (Expr.relabel ρ) := by
  refine repeats_loop (chain level operand) (chain level operand) (Expr.relabel ρ)
    (fun left => repeats_pure left _) (fun n _ bound _ bound' ih left => ?_) hbound hbound' left
  refine .accept (by cases level <;> decide) (repeats_pure left _)
    (fun t _ => (ho n).bind fun right => ?_) (Nat.le_refl _)
  rw [← relabel_combine]
  exact ih _

theorem repeats_moreItems {tooMany : Fault} (hf : tooMany.fatal = false) {item : Reader α}
    {item' : Reader β} {f : α → β} (hi : ∀ n, Repeats ρ n .within item item' f) (count : Nat)
    {bound bound' : List Token} (hbound : n ≤ bound.length) (hbound' : n ≤ bound'.length) :
    Repeats ρ n .within (moreItems tooMany item bound count)
      (moreItems tooMany item' bound' count) (List.map f) := by
  refine repeats_loop (moreItems tooMany item) (moreItems tooMany item') id
    (fun _ => repeats_pure [] (List.map f)) (fun n _ bound _ bound' ih count => ?_)
    hbound hbound' count
  have hrest : Repeats ρ n .within
      (do let x ← item; let xs ← moreItems tooMany item bound (count + 1); pure (x :: xs))
      (do let x ← item'; let xs ← moreItems tooMany item' bound' (count + 1); pure (x :: xs))
      (List.map f) :=
    (hi n).bind fun x => (ih (count + 1)).bind fun xs => repeats_pure (x :: xs) (List.map f)
  refine .accept (by decide) (repeats_pure [] (List.map f)) (fun t _ => ?_) (Nat.le_refl _)
  show Repeats ρ n .within _ _ _
  by_cases hmax : maxArguments ≤ count
  · simp only [hmax, if_true, id]
    exact repeats_current.bind fun t => (repeats_report t hf).bind fun _ => hrest
  · simpa only [hmax, if_false, id] using hrest

theorem repeats_items {tooMany : Fault} (hf : tooMany.fatal = false) {item : Reader α}
    {item' : Reader β} {f : α → β} (hi : ∀ n, Repeats ρ n .within item item' f) :
    Repeats ρ n .within (items tooMany item) (items tooMany item') (List.map f) := by
  refine (repeats_check .rightParen).bind fun closed => ?_
  cases closed with
  | true => exact repeats_pure [] (List.map f)
  | false =>
    exact (hi n).bind fun x => .ahead fun m bound bound' hbound hbound' =>
      (repeats_moreItems hf hi 1 hbound hbound').bind fun xs => repeats_pure (x :: xs) (List.map f)

theorem repeats_calls {argument : Reader Expr} (ha : RepeatsExpr ρ argument) (callee : Expr)
    {bound bound' : List Token} (hbound : n ≤ bound.length) (hbound' : n ≤ bound'.length) :
    Repeats ρ n .within (calls argument bound callee)
      (calls argument bound' (callee.relabel ρ)) (Expr.relabel ρ) := by
  refine repeats_loop (calls argument) (calls argument) (Expr.relabel ρ)
    (fun callee => repeats_pure callee _) (fun n _ bound _ bound' ih callee => ?_)
    hbound hbound' callee
  refine .accept (by decide) (repeats_pure callee _) (fun t _ => (repeats_items rfl ha).bind
    fun arguments => (repeats_expect (by decide)).bind fun paren => ?_) (Nat.le_refl _)
  rw [← Expr.relabelAll_eq_map]
  exact ih (.call callee paren arguments)

theorem repeats_declarations {declaration : Reader Statement}
    (hd : RepeatsStatement ρ declaration) {bound bound' : List Token} (hbound : n ≤ bound.length)
    (hbound' : n ≤ bound'.length) :
    Repeats ρ n .within (declarations declaration bound) (declarations declaration bound')
      (Statement.relabelAll ρ) := by
  refine repeats_loop (fun bound () => declarations declaration bound)
    (fun bound () => declarations declaration bound) id
    (fun _ => repeats_pure [] (Statement.relabelAll ρ)) (fun n _ bound _ bound' ih _ => ?_)
    hbound hbound' ()
  refine .branch (p := fun c => c.current.kind = .rightBrace ∨ c.current.kind = .eof)
    (fun c c' _ ha => ?_) (repeats_pure [] (Statement.relabelAll ρ)) ?_
  · rw [Alike.current ha, Token.kind_relabel]
  · exact (hd (n + 1)).bindSucc fun s => (ih ()).bind fun ss =>
      repeats_pure (s :: ss) (Statement.relabelAll ρ)

variable {expression : Reader Expr} {statement declaration : Reader Statement}

theorem repeats_blockRest (hd : RepeatsStatement ρ declaration) :
    Repeats ρ n .through (blockRest declaration) (blockRest declaration)
      (Statement.relabelAll ρ) := by
  have hloop : Repeats ρ n .within (do declarations declaration (← ahead))
      (do declarations declaration (← ahead)) (Statement.relabelAll ρ) :=
    .ahead fun _ _ _ hbound hbound' => repeats_declarations hd hbound hbound'
  exact hloop.close fun ss => (repeats_expect (by decide)).keep fun _ => repeats_done ss _

/-- The labels of the parameters and the body of a function. -/
def relabelRest (ρ : Relabelling) (f : List Token × List Statement) :
    List Token × List Statement :=
  (f.1.map (Token.relabel ρ), Statement.relabelAll ρ f.2)

theorem repeats_functionRest (hd : RepeatsStatement ρ declaration) :
    Repeats ρ n .through (functionRest declaration) (functionRest declaration) (relabelRest ρ) :=
  (repeats_items rfl fun _ => (repeats_expect (by decide)).within).close fun _ =>
    (repeats_expect (by decide)).close fun _ => (repeats_expect (by decide)).close fun _ =>
      (repeats_blockRest hd).keep fun _ => repeats_done _ (relabelRest ρ)

theorem repeats_variableRest (he : RepeatsExpr ρ expression) :
    Repeats ρ n .through (variableRest expression) (variableRest expression)
      (Statement.relabel ρ) := by
  refine (repeats_expect (by decide)).close fun name =>
    .accept (by decide) ?_ (fun _ _ => ?_) (Nat.le_succ n)
  · exact (repeats_expect (by decide)).keep fun _ =>
      repeats_done (.var name none) (Statement.relabel ρ)
  · simp only [bind_map_left]
    exact Repeats.upTo <| (he n).close fun e => (repeats_expect (by decide)).keep fun _ =>
      repeats_done (.var name (some e)) (Statement.relabel ρ)

theorem repeats_expressionStatement (he : RepeatsExpr ρ expression) :
    Repeats ρ n .through (expressionStatement expression) (expressionStatement expression)
      (Statement.relabel ρ) :=
  (he n).close fun value => (repeats_expect (by decide)).keep fun _ =>
    repeats_done (.expression value) (Statement.relabel ρ)

theorem repeats_unlessNext (he : RepeatsExpr ρ expression) (kind : Token.Kind) :
    Repeats ρ n .within (unlessNext kind expression) (unlessNext kind expression)
      (Option.map (Expr.relabel ρ)) := by
  refine (repeats_check kind).bind fun missing => ?_
  cases missing with
  | true => exact repeats_pure none (Option.map (Expr.relabel ρ))
  | false => exact (he n).map fun _ => rfl

theorem relabel_forTree (ρ : Relabelling) (initializer : Option Statement)
    (condition increment : Option Expr) (body : Statement) :
    (forTree initializer condition increment body).relabel ρ =
      forTree (initializer.map (Statement.relabel ρ)) (condition.map (Expr.relabel ρ))
        (increment.map (Expr.relabel ρ)) (body.relabel ρ) := by
  cases initializer <;> cases condition <;> cases increment <;> rfl

theorem repeats_forInitializer (he : RepeatsExpr ρ expression) :
    Repeats ρ n .through (forInitializer expression) (forInitializer expression)
      (Option.map (Statement.relabel ρ)) := by
  refine .accept (by decide) ((repeats_expressionStatement he).map fun _ => rfl) (fun t _ => ?_)
    (Nat.le_succ n)
  by_cases hk : t.kind = .var
  · simp only [hk, Token.kind_relabel, if_true]
    exact Repeats.upTo <| Repeats.map (g := Option.map (Statement.relabel ρ))
      (repeats_variableRest he) fun _ => rfl
  · simp only [hk, Token.kind_relabel, if_false]
    exact repeats_done none (Option.map (Statement.relabel ρ))

theorem repeats_forRest {first : Reader Expr} (hf : RepeatsExpr ρ first)
    (he : RepeatsExpr ρ expression) (hs : RepeatsStatement ρ statement) :
    Repeats ρ n .through (forRest first expression statement) (forRest first expression statement)
      (Statement.relabel ρ) := by
  refine (repeats_expect (by decide)).close fun _ =>
    (repeats_forInitializer hf).close fun initializer =>
      (repeats_unlessNext he _).close fun condition => (repeats_expect (by decide)).close fun _ =>
        (repeats_unlessNext he _).close fun increment => (repeats_expect (by decide)).close
          fun _ => (hs n).keep fun body => ?_
  rw [← relabel_forTree]
  exact repeats_done _ _

theorem repeats_ifRest (he : RepeatsExpr ρ expression) (hs : RepeatsStatement ρ statement) :
    Repeats ρ n .through (ifRest expression statement) (ifRest expression statement)
      (Statement.relabel ρ) := by
  refine (repeats_expect (by decide)).close fun _ => (he n).close fun condition =>
    (repeats_expect (by decide)).close fun _ => (hs n).keep fun thenBranch => ?_
  -- This is the one place where a token behind the last one is looked at.
  refine .accept (by decide) ?_ (fun t _ => ?_) (Nat.le_succ n)
  · exact repeats_done (.ifElse condition thenBranch none) (Statement.relabel ρ)
  · simp only [bind_map_left]
    exact Repeats.upTo <| (hs n).keep fun elseBranch =>
      repeats_done (.ifElse condition thenBranch (some elseBranch)) (Statement.relabel ρ)

theorem repeats_returnRest (he : RepeatsExpr ρ expression) (keyword : Token) :
    Repeats ρ n .through (returnRest expression keyword)
      (returnRest expression (keyword.relabel ρ)) (Statement.relabel ρ) := by
  refine (repeats_unlessNext he _).close fun value => (repeats_expect (by decide)).keep fun _ => ?_
  cases value with
  | none => exact repeats_done (.return keyword none) (Statement.relabel ρ)
  | some e => exact repeats_done (.return keyword (some e)) (Statement.relabel ρ)

theorem repeats_printRest (he : RepeatsExpr ρ expression) :
    Repeats ρ n .through (printRest expression) (printRest expression) (Statement.relabel ρ) :=
  (he n).close fun value => (repeats_expect (by decide)).keep fun _ =>
    repeats_done (.print value) (Statement.relabel ρ)

theorem repeats_whileRest (he : RepeatsExpr ρ expression) (hs : RepeatsStatement ρ statement) :
    Repeats ρ n .through (whileRest expression statement) (whileRest expression statement)
      (Statement.relabel ρ) :=
  (repeats_expect (by decide)).close fun _ => (he n).close fun condition =>
    (repeats_expect (by decide)).close fun _ => (hs n).keep fun body =>
      repeats_done (.while condition body) (Statement.relabel ρ)

/-- What is shown of all readers of trees at once. -/
structure RepeatsTrees (ρ : Relabelling) (room : Nat) : Prop where
  expression : RepeatsExpr ρ (Grammar.expression room)
  assignment : RepeatsExpr ρ (assignment room)
  operator : ∀ level, RepeatsExpr ρ (operator room level)
  unary : RepeatsExpr ρ (unary room)
  call : RepeatsExpr ρ (call room)
  primary : RepeatsExpr ρ (primary room)
  declaration : RepeatsStatement ρ (Grammar.declaration room)
  statement : RepeatsStatement ρ (Grammar.statement room)

end

section
variable {room : Nat}

theorem repeats_expression (h : RepeatsTrees ρ room) : RepeatsExpr ρ (expression (room + 2)) := by
  intro n
  refine (h.assignment n).bind fun condition =>
    .accept (by decide) (repeats_pure condition _) (fun _ _ => ?_) (Nat.le_succ n)
  exact (h.expression n).bind fun thenBranch => (repeats_expect (by decide)).bind fun _ =>
    (h.expression n).bind fun elseBranch =>
      repeats_pure (.ternary condition thenBranch elseBranch) (Expr.relabel ρ)

theorem repeats_assignment (h : RepeatsTrees ρ room) : RepeatsExpr ρ (assignment (room + 1)) := by
  intro n
  refine (h.operator .or n).bind fun target => .accept (by decide) (repeats_pure target _)
    (fun equals _ => (h.expression n).bind fun value => ?_) (Nat.le_succ n)
  cases target with
  | access site name => exact repeats_pure (.assign site name value) (Expr.relabel ρ)
  | _ => exact (repeats_report equals rfl).bind fun _ => repeats_pure _ (Expr.relabel ρ)

theorem repeats_operator (h : RepeatsTrees ρ room) (level : Level) :
    RepeatsExpr ρ (operator (room + 2) level) := by
  have hchain {operand : Reader Expr} (ho : RepeatsExpr ρ operand) : RepeatsExpr ρ
      (do let left ← operand; chain level operand (← ahead) left) :=
    fun n => (ho n).bind fun left => .ahead fun _ _ _ => repeats_chain ho left
  cases level with
  | factor => exact hchain h.unary
  | or | and | equality | comparison | term => exact hchain (h.operator _)

theorem repeats_unary (h : RepeatsTrees ρ room) : RepeatsExpr ρ (unary (room + 1)) :=
  fun n => .accept (by decide) (h.call n) (fun _ _ => (h.unary n).map fun _ => rfl) (Nat.le_succ n)

theorem repeats_call (he : RepeatsExpr ρ (expression room))
    (hp : RepeatsExpr ρ (primary (room + 1))) : RepeatsExpr ρ (call (room + 2)) :=
  fun n => (hp n).bind fun callee => .ahead fun _ _ _ hbound hbound' =>
    repeats_calls he callee hbound hbound'

theorem repeats_primary (hρ : ∀ site, ρ.site (site + 1) = ρ.site site + 1)
    (he : RepeatsExpr ρ (expression (room + 2))) (hd : RepeatsStatement ρ (declaration room)) :
    RepeatsExpr ρ (primary (room + 3)) := by
  intro n
  refine .accept (by decide) (repeats_fail _ _) (fun t hk => ?_) (Nat.le_succ n)
  have hliteral (value : Literal) : Repeats ρ n .within (pure (.literal value))
      (pure (.literal value)) (Expr.relabel ρ) :=
    repeats_pure (.literal value) (Expr.relabel ρ)
  simp only [primaryStarts, List.mem_cons, List.not_mem_nil, or_false] at hk
  rcases hk with hk | hk | hk | hk | hk | hk | hk | hk <;>
    simp only [Token.kind_relabel, Token.literal_relabel, hk]
  · exact hliteral _
  · exact hliteral _
  · exact hliteral _
  · exact hliteral _
  · exact hliteral _
  · exact (repeats_freshSite hρ).bind fun site => repeats_pure (.access site t) (Expr.relabel ρ)
  · exact (repeats_expect (by decide)).bind fun _ => (repeats_functionRest hd).bind fun f =>
      repeats_pure (.function t f.1 f.2) (Expr.relabel ρ)
  · exact (he n).bind fun inner => (repeats_expect (by decide)).bind fun _ =>
      repeats_pure (.grouping inner) (Expr.relabel ρ)

theorem repeats_statement (hf : RepeatsExpr ρ (expression room)) (h : RepeatsTrees ρ (room + 1)) :
    RepeatsStatement ρ (statement (room + 3)) := by
  intro n
  refine .accept (by decide) (repeats_expressionStatement h.expression) (fun t hk => ?_)
    (Nat.le_succ n)
  simp only [statementStarts, List.mem_cons, List.not_mem_nil, or_false] at hk
  rcases hk with hk | hk | hk | hk | hk | hk <;> simp only [Token.kind_relabel, hk]
  · exact (repeats_forRest hf h.expression h.statement).upTo
  · exact (repeats_ifRest h.expression h.statement).upTo
  · exact (repeats_returnRest h.expression t).upTo
  · exact (repeats_printRest h.expression).upTo
  · exact (repeats_whileRest h.expression h.statement).upTo
  · exact Repeats.upTo <| Repeats.map (g := Statement.relabel ρ) (repeats_blockRest h.declaration)
      fun _ => rfl

theorem current_advance {c : Cursor} (hk : c.current.kind ≠ .eof) :
    c.advance.current = c.second := by
  have hend : c.atEnd = false := by simp [Cursor.atEnd, hk]
  simp [Cursor.advance, hend, Cursor.current, Cursor.second]

/-- A function with a name, whose keyword comes next. -/
def functionDeclaration (declaration : Reader Statement) : Reader Statement := do
  let _ ← expect .fun .variableName
  let name ← expect .identifier .variableName
  let _ ← expect .leftParen .parenAfterFunctionName
  let f ← functionRest declaration
  pure (.function name f.1 f.2)

/-- A variable or a statement. -/
def variableOrStatement (room : Nat) : Reader Statement := do
  let keyword ← accept [.var]
  keyword.elim (statement (room + 3)) fun _ => variableRest (expression (room + 2))

theorem declaration_of_fun {c : Cursor}
    (h : c.current.kind = .fun ∧ c.second.kind = .identifier) :
    declaration (room + 4) c = functionDeclaration (declaration room) c := by
  have hfirst : expect .fun .variableName c = .ok c.current c.advance := if_pos h.1
  have hname : c.advance.current.kind = .identifier := by
    rw [current_advance (by rw [h.1]; decide)]
    exact h.2
  have hsecond : expect .identifier .variableName c.advance =
      .ok c.advance.current c.advance.advance := if_pos hname
  rw [declaration_add_four, if_pos h, functionDeclaration, bind_of_ok hfirst, bind_of_ok hsecond]
  rfl

theorem declaration_of_not_fun {c : Cursor}
    (h : ¬ (c.current.kind = .fun ∧ c.second.kind = .identifier)) :
    declaration (room + 4) c = variableOrStatement room c := by
  rw [declaration_add_four, if_neg h, variableOrStatement]
  refine congrFun (congrArg (accept [.var] >>= ·) (funext fun keyword => ?_)) c
  cases keyword <;> rfl

theorem repeats_functionDeclaration {n : Nat} {declaration : Reader Statement}
    (hd : RepeatsStatement ρ declaration) :
    Repeats ρ n .through (functionDeclaration declaration) (functionDeclaration declaration)
      (Statement.relabel ρ) :=
  (repeats_expect_within (by decide)).close fun _ => (repeats_expect (by decide)).close fun name =>
    (repeats_expect (by decide)).close fun _ => (repeats_functionRest hd).keep fun f =>
      repeats_done (.function name f.1 f.2) (Statement.relabel ρ)

theorem repeats_declaration (hv : RepeatsExpr ρ (expression (room + 2)))
    (hd : RepeatsStatement ρ (declaration room))
    (hs : RepeatsStatement ρ (statement (room + 3))) :
    RepeatsStatement ρ (declaration (room + 4)) := by
  intro n c hc
  have hother : Repeats ρ n .through (variableOrStatement room) (variableOrStatement room)
      (Statement.relabel ρ) :=
    .accept (by decide) (hs n) (fun _ _ => (repeats_variableRest hv).upTo) (Nat.le_succ n)
  by_cases hfun : c.current.kind = .fun ∧ c.second.kind = .identifier
  · exact (repeats_functionDeclaration hd c hc).congr (declaration_of_fun hfun)
      fun c' hs => declaration_of_fun ((Alike.function hs).2 hfun)
  · exact (hother c hc).congr (declaration_of_not_fun hfun)
      fun c' hs => declaration_of_not_fun (mt (Alike.function hs).1 hfun)

/-- Every reader of trees is repeated by itself, with any room. -/
theorem repeatsTrees (hρ : ∀ site, ρ.site (site + 1) = ρ.site site + 1) (room : Nat) :
    RepeatsTrees ρ room := by
  have hdeepExpr : RepeatsExpr ρ tooDeep := fun _ => repeats_tooDeep _
  have hdeepStatement : RepeatsStatement ρ tooDeep := fun _ => repeats_tooDeep _
  induction room using Nat.strongRecOn with
  | ind room ih =>
    constructor
    · match room, ih with
      | 0, _ | 1, _ => exact hdeepExpr
      | room + 2, ih => exact repeats_expression (ih room (by omega))
    · match room, ih with
      | 0, _ => exact hdeepExpr
      | room + 1, ih => exact repeats_assignment (ih room (by omega))
    · match room, ih with
      | 0, _ | 1, _ => exact fun _ => hdeepExpr
      | room + 2, ih => exact repeats_operator (ih room (by omega))
    · match room, ih with
      | 0, _ => exact hdeepExpr
      | room + 1, ih => exact repeats_unary (ih room (by omega))
    · match room, ih with
      | 0, _ | 1, _ => exact hdeepExpr
      | room + 2, ih =>
        exact repeats_call (ih room (by omega)).expression (ih (room + 1) (by omega)).primary
    · match room, ih with
      | 0, _ | 1, _ | 2, _ => exact hdeepExpr
      | room + 3, ih =>
        exact repeats_primary hρ (ih (room + 2) (by omega)).expression
          (ih room (by omega)).declaration
    · match room, ih with
      | 0, _ | 1, _ | 2, _ | 3, _ => exact hdeepStatement
      | room + 4, ih =>
        exact repeats_declaration (ih (room + 2) (by omega)).expression
          (ih room (by omega)).declaration (ih (room + 3) (by omega)).statement
    · match room, ih with
      | 0, _ | 1, _ | 2, _ => exact hdeepStatement
      | room + 3, ih =>
        exact repeats_statement (ih room (by omega)).expression (ih (room + 1) (by omega))

end

end Lox.Grammar

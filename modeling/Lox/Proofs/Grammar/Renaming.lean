import Lox.Proofs.Grammar.Joining
import Lox.Proofs.Grammar.Retracing

/-!
# Renamed programs are read

Every reader of the grammar can be read back, in the sense of `Retraces`: first the loops and the
parts of statements, each for any readers of its parts, and then all trees together, by induction on
the room that is left. So if a program is read from some tokens without a report, a renamed program
is read from rewritten tokens, with the same sites.
-/
namespace Lox.Grammar

open Binding (Table)

variable {ρ : Renaming} {t : Table}

abbrev RetracesExpr (ρ : Renaming) (t : Table) (act : Reader Expr) : Prop :=
  Retraced ρ act (.expression ρ t)

abbrev RetracesStatement (ρ : Renaming) (t : Table) (act : Reader Statement) : Prop :=
  Retraced ρ act (.statement ρ t)

theorem rewrites_of_eq (u u' : Token) (h : u' = u) : ρ.Rewrites u u' := h ▸ .same u'

theorem rewrites_of_name (u u' : Token) (hk : u.kind = .identifier)
    (h : ∃ chosen, u' = ρ.token chosen u) : ρ.Rewrites u u' := by
  obtain ⟨chosen, rfl⟩ := h
  exact .of_token hk chosen

/-- A token that was taken first and stays as it is. -/
abbrev firstKept : Form (Unit × Token) := Form.unit.prod (.token fun u u' => u' = u)

-- The tokens of a tree are read off its constructor.
attribute [local simp] Expr.tokens Statement.tokens

/-- What goes through a bound token by token depends on the length of the bound only. -/
theorem eq_of_length_eq {γ : Type} {f : List Token → γ}
    (hf : ∀ u u' bound bound', f bound = f bound' → f (u :: bound) = f (u' :: bound'))
    {bound bound' : List Token} (h : bound.length = bound'.length) : f bound = f bound' := by
  induction bound generalizing bound' with
  | nil =>
    obtain rfl := List.eq_nil_of_length_eq_zero h.symm
    rfl
  | cons u bound ih =>
    cases bound' with
    | nil => cases h
    | cons u' bound' => exact hf u u' bound bound' (ih (Nat.succ.inj h))

section
variable {α : Type} {A : Form α}

theorem chain_congr (level : Level) (operand : Reader Expr) (left : Expr)
    {bound bound' : List Token} (h : bound.length = bound'.length) :
    chain level operand bound left = chain level operand bound' left :=
  congrFun (eq_of_length_eq (f := chain level operand)
    (fun _ _ _ _ hrest => funext fun left => by simp only [chain, hrest]) h) left

theorem combine_of_renames {level : Level} {left right e' : Expr} {operator : Token}
    {marks : List Bool} (h : (level.combine left operator right).Renames ρ t marks e') :
    ∃ left' right', e' = level.combine left' operator right' ∧ left.Renames ρ t marks left' ∧
      right.Renames ρ t marks right' := by
  cases level <;> cases h <;> exact ⟨_, _, rfl, ‹_›, ‹_›⟩

theorem tokens_combine (level : Level) (left : Expr) (operator : Token) (right : Expr) :
    (level.combine left operator right).tokens = left.tokens ++ operator :: right.tokens := by
  cases level <;> rfl

theorem retraces_chain {level : Level} {operand : Reader Expr} (ho : RetracesExpr ρ t operand)
    (bound : List Token) (left : Expr) :
    Retraces ρ (chain level operand bound) (.expression ρ t) (.expression ρ t) left := by
  induction bound generalizing left with
  | nil => exact .result left
  | cons _ bound ih =>
    refine .accept (by cases level <;> decide) rewrites_of_eq (.result left) fun operator _ =>
      .step ho fun right => ?_
    refine .comp (g := fun p : (Expr × Token) × Expr => level.combine p.1.1 p.1.2 p.2) (ih _)
      (by simp [tokens_combine]) ?_
    rintro e' ⟨marks, h⟩
    obtain ⟨left', right', rfl, hl, hr⟩ := combine_of_renames h
    exact ⟨((left', operator), right'), ⟨⟨⟨marks, hl⟩, rfl⟩, ⟨marks, hr⟩⟩, rfl⟩

theorem moreItems_congr (tooMany : Fault) (item : Reader α) (count : Nat)
    {bound bound' : List Token} (h : bound.length = bound'.length) :
    moreItems tooMany item bound count = moreItems tooMany item bound' count :=
  congrFun (eq_of_length_eq (f := moreItems tooMany item)
    (fun _ _ _ _ hrest => funext fun count => by simp only [moreItems, hrest]) h) count

theorem retraces_moreItems {tooMany : Fault} {item : Reader α} (hi : Retraced ρ item A)
    (bound : List Token) (count : Nat) :
    Retraced ρ (moreItems tooMany item bound count) A.list := by
  induction bound generalizing count with
  | nil => exact .nil
  | cons _ bound ih =>
    have hrest : Retraced ρ
        (do let x ← item; let xs ← moreItems tooMany item bound (count + 1); pure (x :: xs))
        A.list := .step hi fun x => .step (ih (count + 1)) fun xs => .cons x xs
    have hsome : Retraced ρ
        (do
          if maxArguments ≤ count then report (← current) tooMany
          let x ← item
          let xs ← moreItems tooMany item bound (count + 1)
          pure (x :: xs)) A.list := by
      by_cases hmax : maxArguments ≤ count
      · simp only [hmax, if_true]
        exact .report_current hrest
      · simpa only [hmax, if_false] using hrest
    exact .accept (by decide) rewrites_of_eq .nil fun comma _ =>
      hsome.of_retraced ⟨((), comma), trivial, rfl⟩

theorem retraces_items {tooMany : Fault} {item : Reader α} (hi : Retraced ρ item A) :
    Retraced ρ (items tooMany item) A.list := by
  refine .check fun closed => ?_
  cases closed with
  | true => exact .nil
  | false =>
    refine .step hi fun x => .ahead (fun p bound bound' h => ?_) fun bound =>
      .step (retraces_moreItems hi bound 1) fun xs => .cons x xs
    simp only [moreItems_congr tooMany item 1 h]

theorem calls_congr (argument : Reader Expr) (callee : Expr) {bound bound' : List Token}
    (h : bound.length = bound'.length) :
    calls argument bound callee = calls argument bound' callee :=
  congrFun (eq_of_length_eq (f := calls argument)
    (fun _ _ _ _ hrest => funext fun callee => by simp only [calls, hrest]) h) callee

theorem forall₂_expressions {marks : List Bool} {es es' : List Expr}
    (h : Expr.RenamesAll ρ t marks es es') :
    List.Forall₂ (Form.expression ρ t).Rewrites es es' := by
  induction es generalizing es' with
  | nil =>
    cases h
    exact .nil
  | cons e es ih =>
    obtain _ | ⟨he, hes⟩ := h
    exact .cons ⟨marks, he⟩ (ih hes)

theorem retraces_calls {argument : Reader Expr} (ha : RetracesExpr ρ t argument)
    (bound : List Token) (callee : Expr) :
    Retraces ρ (calls argument bound) (.expression ρ t) (.expression ρ t) callee := by
  induction bound generalizing callee with
  | nil => exact .result callee
  | cons _ bound ih =>
    refine .accept (by decide) rewrites_of_eq (.result callee) fun opening _ =>
      .step (retraces_items ha) fun arguments =>
        .expect_kept (by decide) (fun u u' _ => rewrites_of_eq u u') fun paren _ => ?_
    refine .comp (g := fun p : ((Expr × Token) × List Expr) × Token =>
      Expr.call p.1.1.1 p.2 p.1.2) (ih _) ?_ ?_
    · intro u
      simp only [Form.tokens_prod, Form.tokens_expression, Form.tokens_token, Form.tokens_list,
        Expr.tokens, Expr.allTokens_eq_flatMap, List.mem_append, List.mem_singleton]
      tauto
    · rintro e' ⟨marks, h⟩
      cases h with
      | call hcallee harguments =>
        exact ⟨(((_, opening), _), paren),
          ⟨⟨⟨⟨marks, hcallee⟩, rfl⟩, forall₂_expressions harguments⟩, rfl⟩, rfl⟩

variable {expression : Reader Expr} {declaration statement : Reader Statement}

theorem declarations_congr (declaration : Reader Statement) {bound bound' : List Token}
    (h : bound.length = bound'.length) :
    declarations declaration bound = declarations declaration bound' :=
  eq_of_length_eq (fun _ _ _ _ hrest => by rw [declarations, declarations, hrest]) h

theorem forall₂_statements {marks : List Bool} {ss ss' : List Statement}
    (h : Statement.RenamesAll ρ t marks ss ss') :
    List.Forall₂ (Form.statement ρ t).Rewrites ss ss' := by
  induction ss generalizing ss' with
  | nil =>
    cases h
    exact .nil
  | cons s ss ih =>
    obtain _ | ⟨hs, hss⟩ := h
    exact .cons ⟨marks, hs⟩ (ih hss)

theorem retraces_declarations (hd : RetracesStatement ρ t declaration) (bound : List Token) :
    Retraced ρ (declarations declaration bound) (Form.statement ρ t).list := by
  induction bound with
  | nil => exact .nil
  | cons _ bound ih =>
    have hround : Retraced ρ
        (do let s ← declaration; let ss ← declarations declaration bound; pure (s :: ss))
        (Form.statement ρ t).list := .step hd fun s => .step ih fun ss => .cons s ss
    refine .choice (p := fun c => c.current.kind = .rightBrace ∨ c.current.kind = .eof)
      (fun c c' hc => by rw [hc.current_kind]) (fun _ c hk => ?_) (fun _ c hk => ?_) .nil hround
    · simp only [declarations, hk, if_true]
      rfl
    · simp only [declarations, hk, if_false]

theorem retraces_blockRest (hd : RetracesStatement ρ t declaration) :
    Retraced ρ (blockRest declaration) (Form.statement ρ t).list := by
  refine .ahead (fun _ bound bound' h => ?_) fun bound => .step (retraces_declarations hd bound)
    fun ss => .expect (by decide) (.pure (by simp) ?_)
  · simp only [declarations_congr declaration h]
  · exact fun ss' h => ⟨((), ss'), ⟨trivial, h⟩, rfl⟩

/-- Parameters and body of a function. -/
abbrev functionForm (ρ : Renaming) (t : Table) : Form (List Token × List Statement) :=
  (Form.name ρ).list.prod (Form.statement ρ t).list

theorem retraces_functionRest (hd : RetracesStatement ρ t declaration) :
    Retraced ρ (functionRest declaration) (functionForm ρ t) := by
  have hname : Retraced ρ (expect .identifier .parameterName) (Form.name ρ) := by
    rw [← bind_pure (expect _ _)]
    exact .expect_kept (by decide) rewrites_of_name fun u _ =>
      .pure (by simp [Form.name]) fun u' hu => ⟨((), u'), ⟨trivial, hu⟩, rfl⟩
  refine .step (retraces_items hname) fun names => .expect (by decide) (.expect (by decide)
    (.step (retraces_blockRest hd) fun body => .pure (by simp) ?_))
  rintro ⟨names', body'⟩ ⟨hnames, hbody⟩
  exact ⟨(((), names'), body'), ⟨⟨trivial, hnames⟩, hbody⟩, rfl⟩

theorem retraces_variableRest (he : RetracesExpr ρ t expression) :
    RetracesStatement ρ t (variableRest expression) := by
  refine .expect_kept (by decide) rewrites_of_name fun name _ =>
    .accept (by decide) rewrites_of_eq ?_ fun _ _ => ?_
  · refine .expect (by decide) (.pure (by simp) ?_)
    rintro s' ⟨marks, h⟩
    cases h with
    | varNone _ => exact ⟨((), _), ⟨trivial, ⟨_, rfl⟩⟩, rfl⟩
  · simp only [bind_map_left]
    refine .step he fun e => .expect (by decide) (.pure (by simp) ?_)
    rintro s' ⟨marks, h⟩
    cases h with
    | varSome _ he => exact ⟨((((), _), _), _), ⟨⟨⟨trivial, ⟨_, rfl⟩⟩, rfl⟩, ⟨_, he⟩⟩, rfl⟩

theorem retraces_expressionStatement (he : RetracesExpr ρ t expression) :
    RetracesStatement ρ t (expressionStatement expression) := by
  refine .step he fun e => .expect (by decide) (.pure (by simp) ?_)
  rintro s' ⟨marks, h⟩
  cases h with
  | expression h => exact ⟨((), _), ⟨trivial, ⟨marks, h⟩⟩, rfl⟩

theorem retraces_some {α : Type} {A : Form α} {act : Reader α} (h : Retraced ρ act A) :
    Retraced ρ (some <$> act) A.option := by
  refine .map h (fun b => by simp) fun b b' h => ?_
  cases h with
  | some h => exact ⟨_, h, rfl⟩

theorem retraces_none {α : Type} {A : Form α} : Retraced ρ (pure none) A.option :=
  .pure (f := fun _ => none) (by simp) fun b' h => ⟨(), trivial, by cases h; rfl⟩

theorem retraces_unlessNext (he : RetracesExpr ρ t expression) (kind : Token.Kind) :
    Retraced ρ (unlessNext kind expression) (Form.expression ρ t).option := by
  refine .check fun missing => ?_
  cases missing with
  | true => exact retraces_none
  | false => exact retraces_some he

theorem retraces_forInitializer (he : RetracesExpr ρ t expression) :
    Retraced ρ (forInitializer expression) (Form.statement ρ t).option := by
  refine .accept (by decide) rewrites_of_eq (retraces_some (retraces_expressionStatement he))
    fun u _ => ?_
  have hbehind : ∃ p, firstKept.Rewrites ((), u) p := ⟨((), u), trivial, rfl⟩
  by_cases hvar : u.kind = .var
  · refine .congr ((retraces_some (retraces_variableRest he)).of_retraced hbehind) (if_pos hvar) ?_
    rintro ⟨_, u'⟩ ⟨-, rfl⟩
    exact if_pos hvar
  · refine .congr (retraces_none.of_retraced hbehind) (if_neg hvar) ?_
    rintro ⟨_, u'⟩ ⟨-, rfl⟩
    exact if_neg hvar

/-- A renamed `for` statement is one of renamed parts. -/
theorem forTree_of_renames {initializer : Option Statement} {condition increment : Option Expr}
    {body s' : Statement} {marks : List Bool}
    (h : (forTree initializer condition increment body).Renames ρ t marks s') :
    ∃ initializer' condition' increment' body',
      forTree initializer' condition' increment' body' = s' ∧
      (Form.statement ρ t).option.Rewrites initializer initializer' ∧
      (Form.expression ρ t).option.Rewrites condition condition' ∧
      (Form.expression ρ t).option.Rewrites increment increment' ∧
      (Form.statement ρ t).Rewrites body body' := by
  have hcondition {marks : List Bool} {e' : Expr}
      (h : (condition.getD (.literal (.bool true))).Renames ρ t marks e') :
      ∃ condition', (Form.expression ρ t).option.Rewrites condition condition' ∧
        condition'.getD (.literal (.bool true)) = e' := by
    cases condition with
    | none =>
      cases h
      exact ⟨none, .none, rfl⟩
    | some e => exact ⟨some e', .some ⟨_, h⟩, rfl⟩
  have hloop {marks : List Bool} {s' : Statement}
      (h : (forTree none condition increment body).Renames ρ t marks s') :
      ∃ condition' increment' body', forTree none condition' increment' body' = s' ∧
        (Form.expression ρ t).option.Rewrites condition condition' ∧
        (Form.expression ρ t).option.Rewrites increment increment' ∧
        (Form.statement ρ t).Rewrites body body' := by
    cases h with
    | «while» hc hb =>
      obtain ⟨condition', hparts, rfl⟩ := hcondition hc
      cases increment with
      | none => exact ⟨condition', none, _, rfl, hparts, .none, ⟨_, hb⟩⟩
      | some e =>
        cases hb with
        | block chosen hss =>
          obtain _ | ⟨hbody, hrest⟩ := hss
          obtain _ | ⟨hincrement, hnil⟩ := hrest
          cases hnil
          cases hincrement with
          | expression he =>
            exact ⟨condition', some _, _, rfl, hparts, .some ⟨_, he⟩, ⟨_, hbody⟩⟩
  cases initializer with
  | none =>
    obtain ⟨condition', increment', body', rfl, hparts⟩ := hloop h
    exact ⟨none, condition', increment', body', rfl, .none, hparts⟩
  | some s =>
    cases h with
    | block chosen hss =>
      obtain _ | ⟨hs, hrest⟩ := hss
      obtain _ | ⟨hloop', hnil⟩ := hrest
      cases hnil
      obtain ⟨condition', increment', body', rfl, hparts⟩ := hloop hloop'
      exact ⟨some _, condition', increment', body', rfl, .some ⟨_, hs⟩, hparts⟩

theorem tokens_forTree (initializer : Option Statement) (condition increment : Option Expr)
    (body : Statement) : (forTree initializer condition increment body).tokens ⊆
      initializer.elim [] Statement.tokens ++ condition.elim [] Expr.tokens ++
        increment.elim [] Expr.tokens ++ body.tokens := by
  intro u
  cases initializer <;> cases condition <;> cases increment <;>
    simp [forTree, Statement.allTokens] <;> tauto

theorem retraces_forRest {first : Reader Expr} (hf : RetracesExpr ρ t first)
    (he : RetracesExpr ρ t expression) (hs : RetracesStatement ρ t statement) :
    RetracesStatement ρ t (forRest first expression statement) := by
  refine .expect (by decide) <| .step (retraces_forInitializer hf) fun initializer =>
    .step (retraces_unlessNext he _) fun condition => .expect (by decide) <|
      .step (retraces_unlessNext he _) fun increment => .expect (by decide) <|
        .step hs fun body => .pure ?_ ?_
  · exact tokens_forTree initializer condition increment body
  · rintro s' ⟨marks, h⟩
    obtain ⟨initializer', condition', increment', body', rfl, hi, hc, hn, hb⟩ :=
      forTree_of_renames h
    exact ⟨(((((), initializer'), condition'), increment'), body'),
      ⟨⟨⟨⟨trivial, hi⟩, hc⟩, hn⟩, hb⟩, rfl⟩

theorem retraces_ifRest (he : RetracesExpr ρ t expression) (hs : RetracesStatement ρ t statement) :
    RetracesStatement ρ t (ifRest expression statement) := by
  refine .expect (by decide) <| .step he fun condition => .expect (by decide) <|
    .step hs fun thenBranch => .accept (by decide) rewrites_of_eq ?_ fun keyword _ => ?_
  · refine .pure (by simp) ?_
    rintro s' ⟨marks, h⟩
    cases h with
    | ifThen hc ha => exact ⟨(((), _), _), ⟨⟨trivial, ⟨_, hc⟩⟩, ⟨_, ha⟩⟩, rfl⟩
  · simp only [bind_map_left]
    refine .step hs fun elseBranch => .pure ?_ ?_
    · intro u
      simp only [Statement.tokens, Form.tokens_prod, Form.tokens_unit, Form.tokens_expression,
        Form.tokens_statement, Form.tokens_token, List.mem_append, List.mem_singleton]
      tauto
    · rintro s' ⟨marks, h⟩
      cases h with
      | ifElse hc ha hb =>
        exact ⟨(((((), _), _), keyword), _),
          ⟨⟨⟨⟨trivial, ⟨_, hc⟩⟩, ⟨_, ha⟩⟩, rfl⟩, ⟨_, hb⟩⟩, rfl⟩

theorem retraces_printRest (he : RetracesExpr ρ t expression) :
    RetracesStatement ρ t (printRest expression) := by
  refine .step he fun e => .expect (by decide) (.pure (by simp) ?_)
  rintro s' ⟨marks, h⟩
  cases h with
  | print h => exact ⟨((), _), ⟨trivial, ⟨marks, h⟩⟩, rfl⟩

theorem retraces_whileRest (he : RetracesExpr ρ t expression)
    (hs : RetracesStatement ρ t statement) :
    RetracesStatement ρ t (whileRest expression statement) := by
  refine .expect (by decide) <| .step he fun condition => .expect (by decide) <|
    .step hs fun body => .pure (by simp) ?_
  rintro s' ⟨marks, h⟩
  cases h with
  | «while» hc hb => exact ⟨(((), _), _), ⟨⟨trivial, ⟨_, hc⟩⟩, ⟨_, hb⟩⟩, rfl⟩

theorem retraces_returnRest (he : RetracesExpr ρ t expression) (keyword : Token) :
    Retraces ρ (returnRest expression) (.token fun u u' => u' = u) (.statement ρ t) keyword := by
  refine .step (retraces_unlessNext he _) fun value => .expect (by decide) ?_
  cases value with
  | none =>
    refine .pure (by simp) ?_
    rintro s' ⟨marks, h⟩
    cases h with
    | returnNone => exact ⟨(keyword, none), ⟨rfl, .none⟩, rfl⟩
  | some e =>
    refine .pure (by simp) ?_
    rintro s' ⟨marks, h⟩
    cases h with
    | @returnSome _ _ _ e' h => exact ⟨(keyword, some e'), ⟨rfl, .some ⟨_, h⟩⟩, rfl⟩

/-- What is shown of all readers of trees at once. -/
structure RetracesTrees (ρ : Renaming) (t : Table) (room : Nat) : Prop where
  expression : RetracesExpr ρ t (Grammar.expression room)
  assignment : RetracesExpr ρ t (assignment room)
  operator : ∀ level, RetracesExpr ρ t (operator room level)
  unary : RetracesExpr ρ t (unary room)
  call : RetracesExpr ρ t (call room)
  primary : RetracesExpr ρ t (primary room)
  declaration : RetracesStatement ρ t (Grammar.declaration room)
  statement : RetracesStatement ρ t (Grammar.statement room)

end

section
variable {room : Nat}

theorem retraces_expression (h : RetracesTrees ρ t room) :
    RetracesExpr ρ t (expression (room + 2)) := by
  refine .step h.assignment fun condition => .accept (by decide) rewrites_of_eq ?_ fun mark _ => ?_
  · refine .pure (by simp) fun e' he => ⟨((), e'), ⟨trivial, he⟩, rfl⟩
  · refine .step h.expression fun thenBranch => .expect (by decide) <|
      .step h.expression fun elseBranch => .pure ?_ ?_
    · intro u
      simp only [Expr.tokens, Form.tokens_prod, Form.tokens_unit, Form.tokens_expression,
        Form.tokens_token, List.mem_append, List.mem_singleton]
      tauto
    · rintro e' ⟨marks, h⟩
      cases h with
      | ternary hc ha hb =>
        exact ⟨(((((), _), mark), _), _),
          ⟨⟨⟨⟨trivial, ⟨_, hc⟩⟩, rfl⟩, ⟨_, ha⟩⟩, ⟨_, hb⟩⟩, rfl⟩

/-- What is made of a target and a value, if the target is a name. -/
def assigned : Expr → Expr → Expr
  | .access site name, value => .assign site name value
  | target, _ => target

theorem retraces_assignment (h : RetracesTrees ρ t room) :
    RetracesExpr ρ t (assignment (room + 1)) := by
  refine .step (h.operator .or) fun target => .accept (by decide) rewrites_of_eq ?_ fun equals _ =>
    .step h.expression fun value => ?_
  · exact .pure (by simp) fun e' he => ⟨((), e'), ⟨trivial, he⟩, rfl⟩
  -- Only a name becomes a name, so this is decided in the same way for all that a target becomes.
  have hreport : Retraces ρ (fun p : ((Unit × Expr) × Token) × Expr =>
      report p.1.2 .invalidAssignmentTarget >>= fun _ => pure p.1.1.2)
      (((Form.unit.prod (.expression ρ t)).prod (.token fun u u' => u' = u)).prod
        (.expression ρ t)) (.expression ρ t) ((((), target), equals), value) := by
    refine .report (.pure (by intro u hu; simp_all) fun e' he => ?_)
    exact ⟨((((), e'), equals), value),
      ⟨⟨⟨trivial, he⟩, rfl⟩, ⟨[], value.renames_self (List.forall_mem_nil _)⟩⟩, rfl⟩
  cases target with
  | access site name =>
    refine .congr
      (.pure (f := fun p : ((Unit × Expr) × Token) × Expr => assigned p.1.1.2 p.2) ?_ ?_) rfl ?_
    · intro u
      simp only [assigned, Expr.tokens, Form.tokens_prod, Form.tokens_unit, Form.tokens_expression,
        Form.tokens_token, List.mem_append, List.mem_cons, List.not_mem_nil]
      tauto
    · rintro e' ⟨marks, h⟩
      cases h with
      | assign hfits he =>
        exact ⟨((((), .access _ _), equals), _),
          ⟨⟨⟨trivial, ⟨marks, .access hfits⟩⟩, rfl⟩, ⟨_, he⟩⟩, rfl⟩
    · rintro ⟨⟨⟨_, target'⟩, equals'⟩, value'⟩ ⟨⟨⟨-, marks, h⟩, -⟩, -⟩
      cases h
      rfl
  | _ =>
    refine .congr hreport rfl ?_
    rintro ⟨⟨⟨_, target'⟩, equals'⟩, value'⟩ ⟨⟨⟨-, marks, h⟩, -⟩, -⟩
    cases h
    rfl

theorem retraces_operator (h : RetracesTrees ρ t room) (level : Level) :
    RetracesExpr ρ t (operator (room + 2) level) := by
  have hchain {operand : Reader Expr} (ho : RetracesExpr ρ t operand) :
      RetracesExpr ρ t (do let left ← operand; chain level operand (← ahead) left) := by
    refine .step ho fun left =>
      .ahead (fun p _ _ h => chain_congr level operand p.2 h) fun bound => ?_
    refine .comp (g := fun p : Unit × Expr => p.2) (retraces_chain ho bound left) (by simp) ?_
    exact fun e' he => ⟨((), e'), ⟨trivial, he⟩, rfl⟩
  cases level with
  | factor => exact hchain h.unary
  | or | and | equality | comparison | term => exact hchain (h.operator _)

theorem retraces_unary (h : RetracesTrees ρ t room) : RetracesExpr ρ t (unary (room + 1)) := by
  refine .accept (by decide) rewrites_of_eq h.call fun sign _ => ?_
  simp only [map_eq_pure_bind]
  refine .step h.unary fun operand => .pure (by simp) ?_
  rintro e' ⟨marks, h⟩
  cases h with
  | @unary _ _ _ e' h => exact ⟨(((), sign), e'), ⟨⟨trivial, rfl⟩, ⟨_, h⟩⟩, rfl⟩

theorem retraces_call (he : RetracesExpr ρ t (expression room))
    (hp : RetracesExpr ρ t (primary (room + 1))) : RetracesExpr ρ t (call (room + 2)) := by
  refine .step hp fun callee => .ahead (fun p _ _ h => calls_congr _ p.2 h) fun bound => ?_
  refine .comp (g := fun p : Unit × Expr => p.2) (retraces_calls he bound callee) (by simp) ?_
  exact fun e' he => ⟨((), e'), ⟨trivial, he⟩, rfl⟩

theorem forall₂_name (chosen : Bool) (names : List Token) :
    (Form.name ρ).list.Rewrites names (names.map (ρ.token chosen)) :=
  List.forall₂_map_right_iff.2 (List.forall₂_same.2 fun _ _ => ⟨chosen, rfl⟩)

theorem retraces_primary (he : RetracesExpr ρ t (expression (room + 2)))
    (hd : RetracesStatement ρ t (declaration room)) :
    RetracesExpr ρ t (primary (room + 3)) := by
  refine .accept (by decide) (fun _ _ => id) (.stopped fun c e c₁ hok => by cases hok)
    fun u hk => ?_
  have hkind : ∀ p' : Unit × Token, (Form.unit.prod (.token ρ.Rewrites)).Rewrites ((), u) p' →
      p'.2.kind = u.kind := fun p' hp => hp.2.kind_eq
  have hliteral (value : Token → Literal) : Retraces ρ (fun p => pure (.literal (value p.2)))
      (Form.unit.prod (.token ρ.Rewrites)) (.expression ρ t) ((), u) := by
    refine .pure (by simp) ?_
    rintro e' ⟨marks, h⟩
    cases h with
    | literal => exact ⟨((), u), ⟨trivial, .same u⟩, rfl⟩
  simp only [primaryStarts, List.mem_cons, List.not_mem_nil, or_false] at hk
  rcases hk with hk | hk | hk | hk | hk | hk | hk | hk
  · exact .congr (hliteral fun _ => .bool false) (by simp only [hk])
      fun p' hp => by simp only [hkind p' hp, hk]
  · exact .congr (hliteral fun _ => .bool true) (by simp only [hk])
      fun p' hp => by simp only [hkind p' hp, hk]
  · exact .congr (hliteral fun _ => .nil) (by simp only [hk])
      fun p' hp => by simp only [hkind p' hp, hk]
  · exact .congr (hliteral Token.literal) (by simp only [hk])
      fun p' hp => by simp only [hkind p' hp, hk]
  · exact .congr (hliteral Token.literal) (by simp only [hk])
      fun p' hp => by simp only [hkind p' hp, hk]
  · have hname : Retraces ρ (fun p : Unit × Token => do pure (.access (← freshSite) p.2))
        (Form.unit.prod (.token ρ.Rewrites)) (.expression ρ t) ((), u) := by
      refine .freshSite fun site => .pure (by simp) ?_
      rintro e' ⟨marks, h⟩
      cases h with
      | access _ => exact ⟨((), _), ⟨trivial, .of_token hk _⟩, rfl⟩
    exact .congr hname (by simp only [hk]) fun p' hp => by simp only [hkind p' hp, hk]
  · have hfunction : Retraces ρ (fun p : Unit × Token => do
          let _ ← expect .leftParen .parenAfterFun
          let f ← functionRest (declaration room)
          pure (.function p.2 f.1 f.2))
        (Form.unit.prod (.token ρ.Rewrites)) (.expression ρ t) ((), u) := by
      refine .expect (by decide) <| .step (retraces_functionRest hd) fun f => .pure ?_ ?_
      · simp [Statement.allTokens_eq_flatMap]
      · rintro e' ⟨marks, h⟩
        cases h with
        | function _ hb =>
          exact ⟨(((), u), (_, _)),
            ⟨⟨trivial, .same u⟩, ⟨forall₂_name _ _, forall₂_statements hb⟩⟩, rfl⟩
    exact .congr hfunction (by simp only [hk]) fun p' hp => by simp only [hkind p' hp, hk]
  · have hgrouping : Retraces ρ (fun p : Unit × Token => do
          let inner ← expression (room + 2)
          let _ ← expect .rightParen .parenAfterGrouping
          pure (.grouping inner))
        (Form.unit.prod (.token ρ.Rewrites)) (.expression ρ t) ((), u) := by
      refine .step he fun inner => .expect (by decide) (.pure (by simp) ?_)
      rintro e' ⟨marks, h⟩
      cases h with
      | grouping h => exact ⟨(((), u), _), ⟨⟨trivial, .same u⟩, ⟨_, h⟩⟩, rfl⟩
    exact .congr hgrouping (by simp only [hk]) fun p' hp => by simp only [hkind p' hp, hk]

theorem retraces_functionDeclaration {declaration : Reader Statement}
    (hd : RetracesStatement ρ t declaration) :
    RetracesStatement ρ t (functionDeclaration declaration) := by
  refine .expect (by decide) <| .expect_kept (by decide)
    (fun u u' _ => rewrites_of_eq u u') fun name _ =>
      .expect (by decide) <| .step (retraces_functionRest hd) fun f =>
        .pure (by simp [Statement.allTokens_eq_flatMap]) ?_
  rintro s' ⟨marks, h⟩
  cases h with
  | @function _ chosen _ _ _ body' _ _ _ hb =>
    exact ⟨(((), name), (f.1.map (ρ.token chosen), body')),
      ⟨⟨trivial, rfl⟩, ⟨forall₂_name chosen f.1, forall₂_statements hb⟩⟩, rfl⟩

theorem retraces_declaration (hv : RetracesExpr ρ t (expression (room + 2)))
    (hd : RetracesStatement ρ t (declaration room))
    (hs : RetracesStatement ρ t (statement (room + 3))) :
    RetracesStatement ρ t (declaration (room + 4)) := by
  have hother : RetracesStatement ρ t (variableOrStatement room) :=
    .accept (by decide) rewrites_of_eq hs fun u _ =>
      (retraces_variableRest hv).of_retraced ⟨((), u), trivial, rfl⟩
  exact .choice (p := fun c => c.current.kind = .fun ∧ c.second.kind = .identifier)
    (fun c c' hc => by rw [hc.current_kind, hc.second_kind])
    (fun _ _ hfun => declaration_of_fun hfun) (fun _ _ hfun => declaration_of_not_fun hfun)
    (retraces_functionDeclaration hd) hother

theorem retraces_statement (hf : RetracesExpr ρ t (expression room))
    (h : RetracesTrees ρ t (room + 1)) : RetracesStatement ρ t (statement (room + 3)) := by
  refine .accept (by decide) rewrites_of_eq (retraces_expressionStatement h.expression)
    fun u hk => ?_
  have hkind (p' : Unit × Token) (hp : firstKept.Rewrites ((), u) p') : p'.2.kind = u.kind :=
    congrArg Token.kind hp.2
  have hbehind {act : Reader Statement} (hact : RetracesStatement ρ t act) :
      Retraces ρ (fun _ => act) firstKept (.statement ρ t)
        ((), u) :=
    hact.of_retraced ⟨((), u), trivial, rfl⟩
  have hreturn : Retraces ρ (fun p => returnRest (expression (room + 1)) p.2)
      firstKept (.statement ρ t) ((), u) :=
    .comp (g := fun p : Unit × Token => p.2) (retraces_returnRest h.expression u) (by simp)
      fun u' hu => ⟨((), u'), ⟨trivial, hu⟩, rfl⟩
  have hblock : RetracesStatement ρ t (Statement.block <$> blockRest (declaration (room + 1))) := by
    refine .map (retraces_blockRest h.declaration)
      (fun ss => by simp [Statement.allTokens_eq_flatMap]) ?_
    rintro ss s' ⟨marks, h⟩
    cases h with
    | block chosen hss => exact ⟨_, forall₂_statements hss, rfl⟩
  simp only [statementStarts, List.mem_cons, List.not_mem_nil, or_false] at hk
  rcases hk with hk | hk | hk | hk | hk | hk
  · exact .congr (hbehind (retraces_forRest hf h.expression h.statement)) (by simp only [hk])
      fun p' hp => by simp only [hkind p' hp, hk]
  · exact .congr (hbehind (retraces_ifRest h.expression h.statement)) (by simp only [hk])
      fun p' hp => by simp only [hkind p' hp, hk]
  · exact .congr hreturn (by simp only [hk]) fun p' hp => by simp only [hkind p' hp, hk]
  · exact .congr (hbehind (retraces_printRest h.expression)) (by simp only [hk])
      fun p' hp => by simp only [hkind p' hp, hk]
  · exact .congr (hbehind (retraces_whileRest h.expression h.statement)) (by simp only [hk])
      fun p' hp => by simp only [hkind p' hp, hk]
  · exact .congr (hbehind hblock) (by simp only [hk]) fun p' hp => by simp only [hkind p' hp, hk]

/-- All readers of trees can be read back, with any room. -/
theorem retracesTrees (ρ : Renaming) (t : Table) (room : Nat) : RetracesTrees ρ t room := by
  have hdeep {α : Type} {A : Form α} : Retraced ρ tooDeep A :=
    .stopped fun _ _ _ hok => by cases hok
  induction room using Nat.strongRecOn with
  | ind room ih =>
    constructor
    · match room, ih with
      | 0, _ | 1, _ => exact hdeep
      | room + 2, ih => exact retraces_expression (ih room (by omega))
    · match room, ih with
      | 0, _ => exact hdeep
      | room + 1, ih => exact retraces_assignment (ih room (by omega))
    · match room, ih with
      | 0, _ | 1, _ => exact fun _ => hdeep
      | room + 2, ih => exact retraces_operator (ih room (by omega))
    · match room, ih with
      | 0, _ => exact hdeep
      | room + 1, ih => exact retraces_unary (ih room (by omega))
    · match room, ih with
      | 0, _ | 1, _ => exact hdeep
      | room + 2, ih =>
        exact retraces_call (ih room (by omega)).expression (ih (room + 1) (by omega)).primary
    · match room, ih with
      | 0, _ | 1, _ | 2, _ => exact hdeep
      | room + 3, ih =>
        exact retraces_primary (ih (room + 2) (by omega)).expression
          (ih room (by omega)).declaration
    · match room, ih with
      | 0, _ | 1, _ | 2, _ | 3, _ => exact hdeep
      | room + 4, ih =>
        exact retraces_declaration (ih (room + 2) (by omega)).expression
          (ih room (by omega)).declaration (ih (room + 3) (by omega)).statement
    · match room, ih with
      | 0, _ | 1, _ | 2, _ => exact hdeep
      | room + 3, ih =>
        exact retraces_statement (ih room (by omega)).expression (ih (room + 1) (by omega))

end

section
variable {room : Nat} {bound : List Token} {c c₁ : Cursor} {ss : List Statement}

theorem programFrom_congr {bound' : List Token} (h : bound.length = bound'.length) (c : Cursor) :
    programFrom room bound c = programFrom room bound' c :=
  congrFun (eq_of_length_eq (f := programFrom room)
    (fun _ _ _ _ hrest => funext fun c => by simp only [programFrom, hrest]) h) c

/-- Reading declarations up to the end token can be read back, as each of them can. -/
theorem retraces_programFrom (hend : HasEnd c.rest)
    (hrun : programFrom room bound c = some (ss, c₁)) (hclean : c₁.Clean) :
    c.Clean ∧ Statement.allTokens ss ⊆ c.rest ∧
      ∀ marks ss' c₁', Statement.RenamesAll ρ t marks ss ss' → c₁.Rewrites ρ c₁' →
        ∃ c', c.Rewrites ρ c' ∧ programFrom room bound c' = some (ss', c₁') := by
  induction bound generalizing c ss with
  | nil =>
    cases hrun
    refine ⟨hclean, List.nil_subset _, fun marks ss' c₁' hss hc => ⟨c₁', hc, ?_⟩⟩
    cases hss
    rfl
  | cons u bound ih =>
    by_cases hk : c.current.kind = .eof
    · have hstop (c : Cursor) (hk : c.current.kind = .eof) :
          programFrom room (u :: bound) c = some ([], c) := by simp [programFrom, Cursor.atEnd, hk]
      cases (hstop c hk).symm.trans hrun
      refine ⟨hclean, List.nil_subset _, fun marks ss' c₁' hss hc => ⟨c₁', hc, ?_⟩⟩
      cases hss
      exact hstop c₁' (hc.current_kind.trans hk)
    · obtain ⟨s, c₂, rest, hd, hrest, rfl, hend₂, -⟩ :=
        programFrom_quiet hend hk hrun hclean.reports
      obtain ⟨hclean₂, htokens₂, hback₂⟩ := ih hend₂ hrest
      obtain ⟨hclean₀, hsub, htokens, hback⟩ :=
        (retracesTrees ρ t room).declaration c s c₂ hd hclean₂
      refine ⟨hclean₀, List.append_subset.2 ⟨htokens, List.Subset.trans htokens₂ hsub⟩,
        fun marks ss' c₁' hss hc => ?_⟩
      cases hss with
      | @cons _ _ s' _ rest' hs hss =>
        obtain ⟨c₂', hc₂, hrest'⟩ := hback₂ marks rest' c₁' hss hc
        obtain ⟨_, c', -, hc', hd'⟩ := hback s' c₂' ⟨marks, hs⟩ hc₂
        have hat' : c'.atEnd = false := by simp [Cursor.atEnd, hc'.current_kind, hk]
        refine ⟨c', hc', ?_⟩
        simp only [programFrom, hat', hd', Bool.false_eq_true, if_false, hrest', Option.map_some]

/-- An end token stays as it is. -/
theorem exists_rewrites_concat {ts us : List Token} {e : Token} (he : e.kind = .eof)
    (h : List.Forall₂ ρ.Rewrites (ts ++ [e]) us) :
    ∃ ts', us = ts' ++ [e] ∧ List.Forall₂ ρ.Rewrites ts ts' := by
  induction ts generalizing us with
  | nil =>
    obtain _ | ⟨hu, hus⟩ := h
    cases hus
    cases hu with
    | same => exact ⟨[], rfl, .nil⟩
    | renamed hk => cases he.symm.trans hk
  | cons u ts ih =>
    obtain _ | ⟨hu, hus⟩ := h
    obtain ⟨ts', rfl, hts⟩ := ih hus
    exact ⟨_ :: ts', rfl, .cons hu hts⟩

/-- The tokens of a program are those that it was read from, and a renamed program is read from
rewritten tokens. -/
theorem program?_renames {site next : Site} {ts : List Token} {e : Token} (he : e.kind = .eof)
    (h : program? room site (ts ++ [e]) = some ⟨ss, [], next⟩) :
    Statement.allTokens ss ⊆ ts ++ [e] ∧
      ∀ marks ss', Statement.RenamesAll ρ t marks ss ss' →
        ∃ ts', List.Forall₂ ρ.Rewrites ts ts' ∧
          program? room site (ts' ++ [e]) = some ⟨ss', [], next⟩ := by
  obtain ⟨c, hrun, hreports, hnext⟩ := exists_programFrom h
  have hend : HasEnd (startAt ts e site).rest := hasEnd_startAt he
  obtain ⟨_, _, hrun₁, hpass, -⟩ := programFrom_passes room _ _ hend
  cases hrun.symm.trans hrun₁
  obtain ⟨-, htokens, hback⟩ :=
    retraces_programFrom hend hrun ⟨hreports, hpass.onward.hasEnd hend⟩
  refine ⟨htokens, fun marks ss' hss => ?_⟩
  obtain ⟨c', hc', hrun'⟩ := hback marks ss' c hss ⟨List.forall₂_same.2 fun u _ => .same u, rfl⟩
  obtain ⟨ts', hrest, hts⟩ := exists_rewrites_concat he hc'.rest
  have hstart : c' = startAt ts' e site := by
    rw [hc'.same, hrest]
    rfl
  have hahead : programFrom room (startAt ts e site).ahead c' = programFrom room c'.ahead c' :=
    programFrom_congr hc'.length_ahead.symm c'
  refine ⟨ts', hts, ?_⟩
  rw [program?_eq, ← hstart, ← hahead, hrun', Option.map_some, hreports, hnext, List.reverse_nil]

end

end Lox.Grammar

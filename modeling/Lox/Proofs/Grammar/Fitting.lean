import Lox.Code
import Lox.Proofs.Grammar.Rounds
import Lox.Proofs.Syntax.Parts

/-!
# Trees keep the tokens that were read

Whatever is reported on the way, a tree that is read from scanned tokens keeps nothing but such
tokens, each where the grammar has one of its kind. `Yields` says this of a reader and its results.
-/
namespace Lox.Grammar

/-- All tokens that a cursor shows have the lexemes of their kinds. -/
structure Cursor.Lexical (c : Cursor) : Prop where
  rest : ∀ t ∈ c.rest, t.Lexical
  last : c.last.Lexical

/-- In front of such tokens all results of a reader are so, and it stays in front of them. -/
def Yields {α : Type} (Q : α → Prop) (act : Reader α) : Prop :=
  ∀ c, c.Lexical → Ends act c (fun a c₁ => c₁.Lexical ∧ Q a) fun _ c₁ => c₁.Lexical

section
variable {α β : Type} {act : Reader α} {next : α → Reader β} {Q : α → Prop} {R : β → Prop}
  {c : Cursor} {kind : Token.Kind} {kinds : List Token.Kind}

theorem Cursor.Lexical.current (h : c.Lexical) : c.current.Lexical := by
  cases hr : c.rest with
  | nil => simpa [Cursor.current, hr] using h.last
  | cons t rest => simpa [Cursor.current, hr] using h.rest t (by simp [hr])

theorem Cursor.Lexical.advance (h : c.Lexical) : c.advance.Lexical := by
  unfold Cursor.advance
  split
  · exact h
  · exact ⟨fun t ht => h.rest t (List.mem_of_mem_tail ht), h.last⟩

theorem Cursor.Lexical.report (h : c.Lexical) (t : Token) (fault : Fault) :
    (c.report t fault).Lexical := ⟨h.rest, h.last⟩

/-- A token that is no end token belongs where its kind is asked for. -/
theorem Cursor.Lexical.fits (h : c.Lexical) (hk : c.current.kind ∈ kinds) (heof : .eof ∉ kinds) :
    c.current.Fits kinds :=
  ⟨hk, h.current fun he => heof (he ▸ hk)⟩

theorem Yields.bind (h : Yields Q act) (hn : ∀ a, Q a → Yields R (next a)) :
    Yields R (act >>= next) :=
  fun c hc => (ends_bind ..).2 ((h c hc).imp (fun a c₁ ha => hn a ha.2 c₁ ha.1) fun _ _ he => he)

theorem yields_pure {a : α} (h : Q a) : Yields Q (pure a) := fun _ hc => (ends_pure ..).2 ⟨hc, h⟩

theorem Yields.map {f : α → β} (h : Yields Q act) (hf : ∀ a, Q a → R (f a)) :
    Yields R (f <$> act) := by
  rw [map_eq_pure_bind]
  exact h.bind fun a ha => yields_pure (hf a ha)

theorem yields_fail (fault : Fault) : Yields Q (fail fault) :=
  fun _ hc => .of_error rfl (hc.report _ _)

theorem yields_tooDeep : Yields Q tooDeep := fun _ hc => .of_error rfl hc

theorem yields_report (t : Token) (fault : Fault) : Yields (fun _ => True) (report t fault) :=
  fun _ hc => .of_ok rfl ⟨hc.report _ _, trivial⟩

theorem yields_current : Yields (fun _ => True) current := fun _ hc => .of_ok rfl ⟨hc, trivial⟩

theorem yields_ahead : Yields (fun _ => True) ahead := fun _ hc => .of_ok rfl ⟨hc, trivial⟩

theorem yields_check (kind : Token.Kind) : Yields (fun _ => True) (check kind) :=
  fun _ hc => .of_ok rfl ⟨hc, trivial⟩

theorem yields_freshSite : Yields (fun _ => True) freshSite :=
  fun _ hc => .of_ok rfl ⟨⟨hc.rest, hc.last⟩, trivial⟩

/-- A token that may follow. -/
theorem Yields.accept {next : Option Token → Reader β} (hnone : Yields R (next none))
    (hsome : ∀ t, t.Fits kinds → Yields R (next (some t))) (heof : .eof ∉ kinds) :
    Yields R (Grammar.accept kinds >>= next) := by
  intro c hc
  by_cases hk : c.current.kind ∈ kinds
  · rw [Ends.congr (accept_bind_of_mem hk), ends_bind]
    exact .of_ok rfl (hsome _ (hc.fits hk heof) _ hc.advance)
  · exact (Ends.congr (accept_bind_of_not_mem hk)).2 (hnone c hc)

/-- A token that has to follow. -/
theorem yields_expect {what : Expected} (heof : kind ≠ .eof) :
    Yields (Token.Fits [kind]) (expect kind what) := by
  rw [expect_eq_accept]
  exact .accept (yields_fail _) (fun t ht => yields_pure ht) (by simpa using heof.symm)

end

section
variable {α : Type} {Q : α → Prop} {item : Reader α} {expression operand : Reader Expr}
  {statement declaration : Reader Statement}

/-- An operator of a level, between operands whose tokens belong where they are. -/
theorem fits_combine {level : Level} {left right : Expr} {operator : Token} (hl : left.Fits)
    (ho : operator.Fits level.operators) (hr : right.Fits) :
    (level.combine left operator right).Fits := by
  have hmem {kinds : List Token.Kind} (h : level.operators ⊆ kinds) : operator.Fits kinds :=
    ⟨h ho.kind, ho.lexeme⟩
  cases level <;>
    refine .of_parts (hmem (by decide)) ?_ <;> rintro _ _ (_ | _) <;> first | exact hl | exact hr

theorem yields_chain {level : Level} (ho : Yields Expr.Fits operand) (bound : List Token)
    {left : Expr} (hl : left.Fits) : Yields Expr.Fits (chain level operand bound left) := by
  induction bound generalizing left with
  | nil => exact yields_pure hl
  | cons t bound ih =>
    exact .accept (yields_pure hl)
      (fun operator hop => ho.bind fun right hr => ih (fits_combine hl hop hr))
      (by cases level <;> decide)

theorem yields_moreItems {tooMany : Fault} (hi : Yields Q item) (bound : List Token)
    (count : Nat) : Yields (fun xs => ∀ x ∈ xs, Q x) (moreItems tooMany item bound count) := by
  induction bound generalizing count with
  | nil => exact yields_pure (by simp)
  | cons t bound ih =>
    refine .accept (yields_pure (by simp)) (fun _ _ => ?_) (by decide)
    have hrest : Yields (fun xs => ∀ x ∈ xs, Q x) (do
        let x ← item
        let xs ← moreItems tooMany item bound (count + 1)
        pure (x :: xs)) :=
      hi.bind fun x hx => (ih (count + 1)).bind fun xs hxs => yields_pure (by simpa using ⟨hx, hxs⟩)
    by_cases hmax : maxArguments ≤ count
    · simp only [hmax, if_true]
      exact yields_current.bind fun _ _ => (yields_report _ _).bind fun _ _ => hrest
    · simpa only [hmax, if_false] using hrest

theorem yields_items {tooMany : Fault} (hi : Yields Q item) :
    Yields (fun xs => ∀ x ∈ xs, Q x) (items tooMany item) := by
  refine (yields_check _).bind fun closed _ => ?_
  cases closed with
  | true => exact yields_pure (by simp)
  | false =>
    exact hi.bind fun x hx => yields_ahead.bind fun _ _ =>
      (yields_moreItems hi _ _).bind fun xs hxs => yields_pure (by simpa using ⟨hx, hxs⟩)

theorem yields_calls (ha : Yields Expr.Fits operand) (bound : List Token) {callee : Expr}
    (hc : callee.Fits) : Yields Expr.Fits (calls operand bound callee) := by
  induction bound generalizing callee with
  | nil => exact yields_pure hc
  | cons t bound ih =>
    refine .accept (yields_pure hc) (fun _ _ => ?_) (by decide)
    refine (yields_items ha).bind fun es hes => (yields_expect (by decide)).bind fun paren hp => ?_
    refine ih (.of_parts hp ?_)
    rintro _ _ (_ | _)
    · exact hc
    · exact hes _ ‹_›

theorem yields_declarations (hd : Yields Statement.Fits declaration) (bound : List Token) :
    Yields (fun ss => ∀ s ∈ ss, s.Fits) (declarations declaration bound) := by
  induction bound with
  | nil => exact yields_pure (by simp)
  | cons t bound ih =>
    have hround : Yields (fun ss => ∀ s ∈ ss, s.Fits) (do
        let first ← declaration
        let rest ← declarations declaration bound
        pure (first :: rest)) :=
      hd.bind fun s hs => ih.bind fun ss hss => yields_pure (by simpa using ⟨hs, hss⟩)
    intro c hc
    by_cases hclosed : c.current.kind = .rightBrace ∨ c.current.kind = .eof
    · exact .of_ok (if_pos hclosed) ⟨hc, by simp⟩
    · have hmore : declarations declaration (t :: bound) c = _ := if_neg hclosed
      exact (Ends.congr hmore).2 (hround c hc)

theorem yields_blockRest (hd : Yields Statement.Fits declaration) :
    Yields (fun ss => ∀ s ∈ ss, s.Fits) (blockRest declaration) :=
  yields_ahead.bind fun _ _ => (yields_declarations hd _).bind fun _ hss =>
    (yields_expect (by decide)).bind fun _ _ => yields_pure hss

theorem yields_functionRest (hd : Yields Statement.Fits declaration) :
    Yields (fun f => (∀ name ∈ f.1, name.Fits [.identifier]) ∧ ∀ s ∈ f.2, s.Fits)
      (functionRest declaration) :=
  (yields_items (yields_expect (by decide))).bind fun _ hnames =>
    (yields_expect (by decide)).bind fun _ _ => (yields_expect (by decide)).bind fun _ _ =>
      (yields_blockRest hd).bind fun _ hbody => yields_pure ⟨hnames, hbody⟩

theorem fits_var {name : Token} {initializer : Option Expr} (hname : name.Fits [.identifier])
    (he : ∀ e ∈ initializer, e.Fits) : (Statement.var name initializer).Fits := by
  refine .of_parts hname ?_
  rintro _ _ (_ | _)
  exact he _ rfl

theorem yields_variableRest (he : Yields Expr.Fits expression) :
    Yields Statement.Fits (variableRest expression) := by
  have hend {name : Token} {initializer : Option Expr} (hname : name.Fits [.identifier])
      (hi : ∀ e ∈ initializer, e.Fits) : Yields Statement.Fits (do
        let _ ← expect .semicolon .semicolonAfterVariable
        pure (.var name initializer)) :=
    (yields_expect (by decide)).bind fun _ _ => yields_pure (fits_var hname hi)
  refine (yields_expect (by decide)).bind fun name hname => .accept ?_ (fun _ _ => ?_) (by decide)
  · exact hend hname (by simp)
  · exact (he.map (R := fun i => ∀ e ∈ i, e.Fits) fun _ h => by simpa using h).bind fun _ hi =>
      hend hname hi

theorem fits_expression {e : Expr} (he : e.Fits) : (Statement.expression e).Fits := by
  refine .of_parts trivial ?_
  rintro _ _ (_ | _)
  exact he

theorem yields_expressionStatement (he : Yields Expr.Fits expression) :
    Yields Statement.Fits (expressionStatement expression) :=
  he.bind fun _ h => (yields_expect (by decide)).bind fun _ _ => yields_pure (fits_expression h)

theorem yields_unlessNext {kind : Token.Kind} (he : Yields Expr.Fits expression) :
    Yields (fun e => ∀ e' ∈ e, e'.Fits) (unlessNext kind expression) := by
  refine (yields_check kind).bind fun missing _ => ?_
  cases missing with
  | true => exact yields_pure (by simp)
  | false => exact he.map fun _ h => by simpa using h

theorem yields_forInitializer (he : Yields Expr.Fits expression) :
    Yields (fun s => ∀ s' ∈ s, s'.Fits) (forInitializer expression) := by
  have hsome {act : Reader Statement} (h : Yields Statement.Fits act) :
      Yields (fun s => ∀ s' ∈ s, s'.Fits) (some <$> act) := h.map fun _ hs => by simpa using hs
  refine .accept (hsome (yields_expressionStatement he)) (fun t _ => ?_) (by decide)
  by_cases hk : t.kind = .var
  · simpa only [hk, if_true] using hsome (yields_variableRest he)
  · simpa only [hk, if_false] using yields_pure (by simp)

theorem fits_block {ss : List Statement} (h : ∀ s ∈ ss, s.Fits) : (Statement.block ss).Fits := by
  refine .of_parts trivial ?_
  rintro _ _ (_ | _)
  exact h _ ‹_›

theorem fits_while {condition : Expr} {body : Statement} (hc : condition.Fits) (hb : body.Fits) :
    (Statement.while condition body).Fits := by
  refine .of_parts trivial ?_
  rintro _ _ (_ | _)
  · exact hc
  · exact hb

theorem fits_literal (value : Literal) : (Expr.literal value).Fits := by
  refine .of_parts trivial ?_
  rintro _ _ ⟨⟩

theorem fits_forTree {initializer : Option Statement} {condition increment : Option Expr}
    {body : Statement} (hi : ∀ s ∈ initializer, s.Fits) (hc : ∀ e ∈ condition, e.Fits)
    (hincrement : ∀ e ∈ increment, e.Fits) (hb : body.Fits) :
    (forTree initializer condition increment body).Fits := by
  have hcondition : (condition.getD (.literal (.bool true))).Fits := by
    cases condition with
    | none => exact fits_literal _
    | some e => exact hc e rfl
  have hpair {s s' : Statement} (hs : s.Fits) (hs' : s'.Fits) : (Statement.block [s, s']).Fits :=
    fits_block (by simpa using ⟨hs, hs'⟩)
  have hloop {body : Statement} (hb : body.Fits) :
      (forTree initializer condition none body).Fits := by
    cases initializer with
    | none => exact fits_while hcondition hb
    | some s => exact hpair (hi s rfl) (fits_while hcondition hb)
  cases increment with
  | none => exact hloop hb
  | some e => exact hloop (hpair hb (fits_expression (hincrement e rfl)))

theorem yields_forRest {first : Reader Expr} (hf : Yields Expr.Fits first)
    (he : Yields Expr.Fits expression) (hs : Yields Statement.Fits statement) :
    Yields Statement.Fits (forRest first expression statement) :=
  (yields_expect (by decide)).bind fun _ _ => (yields_forInitializer hf).bind fun _ hi =>
    (yields_unlessNext he).bind fun _ hc => (yields_expect (by decide)).bind fun _ _ =>
      (yields_unlessNext he).bind fun _ hincrement => (yields_expect (by decide)).bind fun _ _ =>
        hs.bind fun _ hb => yields_pure (fits_forTree hi hc hincrement hb)

theorem fits_ifElse {condition : Expr} {thenBranch : Statement} {elseBranch : Option Statement}
    (hc : condition.Fits) (ht : thenBranch.Fits) (he : ∀ s ∈ elseBranch, s.Fits) :
    (Statement.ifElse condition thenBranch elseBranch).Fits := by
  refine .of_parts trivial ?_
  rintro _ _ (_ | _)
  · exact hc
  · exact ht
  · exact he _ rfl

theorem yields_ifRest (he : Yields Expr.Fits expression) (hs : Yields Statement.Fits statement) :
    Yields Statement.Fits (ifRest expression statement) := by
  refine (yields_expect (by decide)).bind fun _ _ => he.bind fun _ hc =>
    (yields_expect (by decide)).bind fun _ _ => hs.bind fun _ ht =>
      .accept (yields_pure (fits_ifElse hc ht (by simp))) (fun _ _ => ?_) (by decide)
  exact (hs.map (R := fun s => ∀ s' ∈ s, s'.Fits) fun _ h => by simpa using h).bind fun _ h =>
    yields_pure (fits_ifElse hc ht h)

theorem yields_returnRest {keyword : Token} (he : Yields Expr.Fits expression)
    (hk : keyword.Fits [.return]) : Yields Statement.Fits (returnRest expression keyword) := by
  refine (yields_unlessNext he).bind fun value hv => (yields_expect (by decide)).bind fun _ _ =>
    yields_pure (.of_parts hk ?_)
  rintro _ _ (_ | _)
  exact hv _ rfl

theorem yields_printRest (he : Yields Expr.Fits expression) :
    Yields Statement.Fits (printRest expression) := by
  refine he.bind fun value hv => (yields_expect (by decide)).bind fun _ _ =>
    yields_pure (.of_parts trivial ?_)
  rintro _ _ (_ | _)
  exact hv

theorem yields_whileRest (he : Yields Expr.Fits expression)
    (hs : Yields Statement.Fits statement) :
    Yields Statement.Fits (whileRest expression statement) :=
  (yields_expect (by decide)).bind fun _ _ => he.bind fun _ hc =>
    (yields_expect (by decide)).bind fun _ _ => hs.bind fun _ hb => yields_pure (fits_while hc hb)

end

/-- What all readers of trees yield with this much room. -/
structure YieldsTrees (room : Nat) : Prop where
  expression : Yields Expr.Fits (expression room)
  assignment : Yields Expr.Fits (assignment room)
  operator : ∀ level : Level, Yields Expr.Fits (operator room level)
  unary : Yields Expr.Fits (unary room)
  call : Yields Expr.Fits (call room)
  primary : Yields Expr.Fits (primary room)
  declaration : Yields Statement.Fits (declaration room)
  statement : Yields Statement.Fits (statement room)

section
variable {room : Nat}

theorem yields_expression (h : YieldsTrees room) : Yields Expr.Fits (expression (room + 2)) := by
  refine h.assignment.bind fun condition hc => .accept (yields_pure hc) (fun _ _ => ?_) (by decide)
  refine h.expression.bind fun thenBranch ht => (yields_expect (by decide)).bind fun _ _ =>
    h.expression.bind fun elseBranch he => yields_pure (.of_parts trivial ?_)
  rintro _ _ (_ | _)
  · exact hc
  · exact ht
  · exact he

theorem yields_assignment (h : YieldsTrees room) : Yields Expr.Fits (assignment (room + 1)) := by
  refine (h.operator .or).bind fun target ht => .accept (yields_pure ht) (fun equals _ => ?_)
    (by decide)
  refine h.expression.bind fun value hv => ?_
  cases target with
  | access site name =>
    refine yields_pure (.of_parts ht.here ?_)
    rintro _ _ (_ | _)
    exact hv
  | _ => exact (yields_report equals .invalidAssignmentTarget).bind fun _ _ => yields_pure ht

theorem yields_operator (h : YieldsTrees room) (level : Level) :
    Yields Expr.Fits (operator (room + 2) level) := by
  have hchain {operand : Reader Expr} (ho : Yields Expr.Fits operand) :
      Yields Expr.Fits (do let left ← operand; chain level operand (← ahead) left) :=
    ho.bind fun _ hl => yields_ahead.bind fun _ _ => yields_chain ho _ hl
  cases level with
  | factor => exact hchain h.unary
  | or | and | equality | comparison | term => exact hchain (h.operator _)

theorem yields_unary (h : YieldsTrees room) : Yields Expr.Fits (unary (room + 1)) := by
  refine .accept h.call (fun sign hs => h.unary.map fun operand ho => .of_parts hs ?_) (by decide)
  rintro _ _ (_ | _)
  exact ho

theorem yields_call (h : YieldsTrees room) (hp : Yields Expr.Fits (primary (room + 1))) :
    Yields Expr.Fits (call (room + 2)) :=
  hp.bind fun _ hc => yields_ahead.bind fun _ _ => yields_calls h.expression _ hc

theorem yields_primary (he : Yields Expr.Fits (expression (room + 2)))
    (hd : Yields Statement.Fits (declaration room)) : Yields Expr.Fits (primary (room + 3)) := by
  refine .accept (yields_fail _) (fun t ht => ?_) (by decide)
  have hfits {kind : Token.Kind} (hk : t.kind = kind) : t.Fits [kind] := ⟨by simp [hk], ht.lexeme⟩
  have hkinds := ht.kind
  simp only [primaryStarts, List.mem_cons, List.not_mem_nil, or_false] at hkinds
  rcases hkinds with hk | hk | hk | hk | hk | hk | hk | hk <;> simp only [hk]
  · exact yields_pure (fits_literal _)
  · exact yields_pure (fits_literal _)
  · exact yields_pure (fits_literal _)
  · exact yields_pure (fits_literal _)
  · exact yields_pure (fits_literal _)
  · refine yields_freshSite.bind fun _ _ => yields_pure (.of_parts (hfits hk) ?_)
    rintro _ _ ⟨⟩
  · refine (yields_expect (by decide)).bind fun _ _ => (yields_functionRest hd).bind fun f hf =>
      yields_pure (.of_parts ⟨hfits hk, hf.1⟩ ?_)
    rintro _ _ (_ | _)
    exact hf.2 _ ‹_›
  · refine he.bind fun inner hi => (yields_expect (by decide)).bind fun _ _ =>
      yields_pure (.of_parts trivial ?_)
    rintro _ _ (_ | _)
    exact hi

theorem yields_functionDeclaration {declaration : Reader Statement}
    (hd : Yields Statement.Fits declaration) :
    Yields Statement.Fits (functionDeclaration declaration) := by
  refine (yields_expect (by decide)).bind fun _ _ => (yields_expect (by decide)).bind
    fun name hname => (yields_expect (by decide)).bind fun _ _ => (yields_functionRest hd).bind
      fun f hf => yields_pure (.of_parts ⟨hname, hf.1⟩ ?_)
  rintro _ _ (_ | _)
  exact hf.2 _ ‹_›

theorem yields_declaration (hd : Yields Statement.Fits (declaration room))
    (he : Yields Expr.Fits (expression (room + 2)))
    (hs : Yields Statement.Fits (statement (room + 3))) :
    Yields Statement.Fits (declaration (room + 4)) := by
  have hother : Yields Statement.Fits (variableOrStatement room) :=
    .accept hs (fun _ _ => yields_variableRest he) (by decide)
  intro c hc
  by_cases hfun : c.current.kind = .fun ∧ c.second.kind = .identifier
  · exact (Ends.congr (declaration_of_fun hfun)).2 (yields_functionDeclaration hd c hc)
  · exact (Ends.congr (declaration_of_not_fun hfun)).2 (hother c hc)

theorem yields_statement (hf : Yields Expr.Fits (expression room)) (h : YieldsTrees (room + 1)) :
    Yields Statement.Fits (statement (room + 3)) := by
  refine .accept (yields_expressionStatement h.expression) (fun t ht => ?_) (by decide)
  have hkinds := ht.kind
  simp only [statementStarts, List.mem_cons, List.not_mem_nil, or_false] at hkinds
  rcases hkinds with hk | hk | hk | hk | hk | hk <;> simp only [hk]
  · exact yields_forRest hf h.expression h.statement
  · exact yields_ifRest h.expression h.statement
  · exact yields_returnRest h.expression ⟨by simp [hk], ht.lexeme⟩
  · exact yields_printRest h.expression
  · exact yields_whileRest h.expression h.statement
  · exact (yields_blockRest h.declaration).map fun _ hss => fits_block hss

/-- Every reader of trees keeps nothing but what it read, with any room. -/
theorem yieldsTrees (room : Nat) : YieldsTrees room := by
  induction room using Nat.strongRecOn with
  | ind room ih =>
    constructor
    · match room, ih with
      | 0, _ | 1, _ => exact yields_tooDeep
      | room + 2, ih => exact yields_expression (ih room (by omega))
    · match room, ih with
      | 0, _ => exact yields_tooDeep
      | room + 1, ih => exact yields_assignment (ih room (by omega))
    · match room, ih with
      | 0, _ | 1, _ => exact fun _ => yields_tooDeep
      | room + 2, ih => exact yields_operator (ih room (by omega))
    · match room, ih with
      | 0, _ => exact yields_tooDeep
      | room + 1, ih => exact yields_unary (ih room (by omega))
    · match room, ih with
      | 0, _ | 1, _ => exact yields_tooDeep
      | room + 2, ih => exact yields_call (ih room (by omega)) (ih (room + 1) (by omega)).primary
    · match room, ih with
      | 0, _ | 1, _ | 2, _ => exact yields_tooDeep
      | room + 3, ih =>
        exact yields_primary (ih (room + 2) (by omega)).expression (ih room (by omega)).declaration
    · match room, ih with
      | 0, _ | 1, _ | 2, _ | 3, _ => exact yields_tooDeep
      | room + 4, ih =>
        exact yields_declaration (ih room (by omega)).declaration
          (ih (room + 2) (by omega)).expression (ih (room + 3) (by omega)).statement
    · match room, ih with
      | 0, _ | 1, _ | 2, _ => exact yields_tooDeep
      | room + 3, ih =>
        exact yields_statement (ih room (by omega)).expression (ih (room + 1) (by omega))

end

theorem lexical_afterStop {c : Cursor} (h : c.Lexical) (stop : Stop) :
    (afterStop stop c).Lexical := by
  cases stop with
  | fault => exact h
  | tooDeep => exact h.report _ _

theorem fits_programFrom {room : Nat} {bound : List Token} {c c₁ : Cursor} {ss : List Statement}
    (hc : c.Lexical) (h : programFrom room bound c = some (ss, c₁)) : ∀ s ∈ ss, s.Fits := by
  induction bound generalizing c ss with
  | nil =>
    cases h
    simp
  | cons t bound ih =>
    rw [programFrom] at h
    split at h
    · cases h
      simp
    cases hd : declaration room c with
    | ok s c₂ =>
      obtain ⟨hc₂, hs⟩ := ((yieldsTrees room).declaration c hc).ok hd
      simp only [hd, Option.map_eq_some_iff, Prod.exists, Prod.mk.injEq] at h
      obtain ⟨rest, c₃, hrest, rfl, rfl⟩ := h
      exact List.forall_mem_cons.2 ⟨hs, ih hc₂ hrest⟩
    | error stop c₂ =>
      have hc₂ := lexical_afterStop (((yieldsTrees room).declaration c hc).error hd) stop
      simp only [hd, Option.bind_eq_some_iff] at h
      obtain ⟨rest, hrecover, hrest⟩ := h
      obtain ⟨skipped, hskipped, -⟩ := recover_skips hrecover
      have hmem : ∀ t ∈ rest, t ∈ (afterStop stop c₂).rest := fun t ht => by
        rw [hskipped]
        exact List.mem_append_right skipped ht
      have hc₃ : Cursor.Lexical { afterStop stop c₂ with rest := rest } :=
        ⟨fun t ht => hc₂.rest t (hmem t ht), hc₂.last⟩
      exact ih hc₃ hrest

theorem lexical_start {tokens : List Token} {site : Site} {c : Cursor}
    (htokens : ∀ t ∈ tokens, t.Lexical) (h : start? tokens site = some c) : c.Lexical := by
  obtain ⟨last, hlast, rfl⟩ := Option.map_eq_some_iff.1 h
  exact ⟨htokens, htokens last (List.mem_of_getLast? hlast)⟩

/-- Every token that a program keeps belongs where it is kept. -/
theorem fits_program? {room : Nat} {site : Site} {tokens : List Token}
    {parsed : Parsed (List Statement)} (htokens : ∀ t ∈ tokens, t.Lexical)
    (h : program? room site tokens = some parsed) : ∀ s ∈ parsed.tree, s.Fits := by
  simp only [program?, Option.bind_eq_bind, Option.bind_eq_some_iff, Option.pure_def,
    Option.some.injEq, Prod.exists] at h
  obtain ⟨c, hstart, ss, c₁, hrun, rfl⟩ := h
  exact fits_programFrom (lexical_start htokens hstart) hrun

theorem fits_expression? {room : Nat} {site : Site} {tokens : List Token}
    {parsed : Parsed (Option Expr)} (htokens : ∀ t ∈ tokens, t.Lexical)
    (h : expression? room site tokens = some parsed) : ∀ e ∈ parsed.tree, e.Fits := by
  simp only [expression?, Option.bind_eq_bind, Option.bind_eq_some_iff] at h
  obtain ⟨c, hstart, h⟩ := h
  have hyields := (yieldsTrees room).expression c (lexical_start htokens hstart)
  cases hread : expression room c with
  | ok e c₁ =>
    simp only [hread] at h
    cases h
    simpa using (hyields.ok hread).2
  | error stop c₁ =>
    have hnone : parsed.tree = none := by
      simp only [hread] at h
      split at h
      · obtain ⟨_, -, h⟩ := Option.bind_eq_some_iff.1 h
        cases h
        rfl
      · cases h
        rfl
    simp [hnone]

end Grammar

/-- Every token that a reading keeps belongs where it is kept. -/
theorem Code.ofSource?_fits {mode : Mode} {room : Nat} {site : Site} {source : String}
    {r : Code.Reading} (h : Code.ofSource? mode room site source = some r) {n : Node}
    (hn : r.code.Has n) : n.Everywhere Node.Fits := by
  have htokens := Token.lexical_scan source
  cases mode with
  | program =>
    simp only [Code.ofSource?, Code.ofTokens?, Option.map_map, Option.map_eq_some_iff] at h
    obtain ⟨parsed, hparsed, rfl⟩ := h
    obtain ⟨s, hs, hwithin⟩ := hn
    exact fun p hp => Grammar.fits_program? htokens hparsed s hs p (hwithin.trans hp)
  | expression =>
    simp only [Code.ofSource?, Code.ofTokens?, Option.map_map, Option.map_eq_some_iff] at h
    obtain ⟨parsed, hparsed, rfl⟩ := h
    obtain ⟨e, he, hwithin⟩ := hn
    exact fun p hp => Grammar.fits_expression? htokens hparsed e he p (hwithin.trans hp)

end Lox

import Lox.Proofs.Grammar.Completeness
import Lox.Proofs.Grammar.Completing

/-!
# What was read of a tree can be completed

Every reader of the grammar can be completed, in the sense of `Completes`: first the loops and the
parts of statements, each for any readers of its parts, and then all trees together, by induction on
the room that is left. Where an expression is missing a name is put, where a statement is missing an
empty block.
-/
namespace Lox.Grammar

variable {deep : Prop} {n : Nat}

theorem Parses.finishes {α : Type} {act : Reader α} {xs : List Terminal}
    {follow : Token.Kind → Prop} {m : Nat} {P : α → Prop} {ts : List Token}
    (h : Parses act xs follow m P) (hs : Spells xs ts) : Finishes follow act ts := by
  intro c z hc hz
  obtain ⟨t, ht, hk⟩ := hz
  obtain ⟨rest, rfl⟩ : ∃ rest, z = t :: rest := List.head?_eq_some_iff.1 ht
  obtain ⟨a, c₁, hok, -, harr⟩ := (h c ts t rest hs hc hk).exists_ok
  exact ⟨a, c₁, hok, harr.rest⟩

/-- A name stands for any expression. -/
theorem finishes_readerAt (room : Nat) {k : Nat} (hk : k ≤ 9) :
    Finishes (MayFollow 0) (readerAt room k) [blank .identifier] := by
  have hc : (Expr.access 0 (blank .identifier)).Canonical := rfl
  have hread := (understood_access hc room (by simp [Expr.need])).parses k hk
  exact (hread.finishes (.cons rfl .nil)).mono fun _ hf => hf.mono (Nat.zero_le k)

theorem finishes_assignment (room : Nat) :
    Finishes (MayFollow 0) (assignment (room + 18)) [blank .identifier] := by
  have hc : (Expr.access 0 (blank .identifier)).Canonical := rfl
  have hread := (understood_access hc room (by simp [Expr.need])).parses 1
    (by simp [Expr.tightness])
  refine ((hread.assignment).finishes (.cons rfl .nil)).mono fun kind hf => ?_
  exact ⟨hf.mono (Nat.zero_le 1), by rintro rfl; revert hf; decide⟩

/-- An empty block stands for any statement. -/
theorem finishes_block {room : Nat} (hr : 4 ≤ room) :
    Finishes (· ≠ .else) (declaration room) [blank .leftBrace, blank .rightBrace] ∧
      Finishes (· ≠ .else) (statement room) [blank .leftBrace, blank .rightBrace] := by
  have hu : UnderstoodStatement (.block []) := understood_block trivial (by simp)
  have hs : Spells (Statement.block []).written [blank .leftBrace, blank .rightBrace] :=
    .cons rfl (.cons rfl .nil)
  have hneed : (Statement.block []).need = 4 := by simp [Statement.need, Statement.needs]
  exact ⟨((hu.declaration room (by omega)).finishes hs).mono fun kind hk _ => hk,
    ((hu.statement rfl room (by omega)).finishes hs).mono fun kind hk _ => hk⟩

/-- A reader that can be completed, with these tokens before it begins, and takes a token. -/
structure CompletesTree {α : Type} (deep : Prop) (follow : Token.Kind → Prop) (w : List Token)
    (act act' : Reader α) : Prop where
  completes : ∀ (ι : Type) n, Completes deep n follow act fun _ : ι => act'
  taking : Taking act
  scratch : deep → Finishes follow act' w

abbrev CompletesExpr (deep : Prop) (act act' : Reader Expr) : Prop :=
  CompletesTree deep (MayFollow 0) [blank .identifier] act act'

abbrev CompletesStatement (deep : Prop) (act act' : Reader Statement) : Prop :=
  CompletesTree deep (· ≠ .else) [blank .leftBrace, blank .rightBrace] act act'

section
variable {ι κ : Type}

theorem CompletesExpr.continues {act act' : Reader Expr} (h : CompletesExpr deep act act') :
    Continues deep n (MayFollow 0) (· = .identifier) (fun _ : κ => act) fun (_ : ι) _ => act' :=
  ⟨fun _ => h.completes ι n, fun hdeep => ⟨_, leads_cons rfl, fun _ _ => h.scratch hdeep⟩⟩

theorem CompletesStatement.continues {act act' : Reader Statement}
    (h : CompletesStatement deep act act') :
    Continues deep n (· ≠ .else) (· = .leftBrace) (fun _ : κ => act) fun (_ : ι) _ => act' :=
  ⟨fun _ => h.completes ι n, fun hdeep => ⟨_, leads_cons rfl, fun _ _ => h.scratch hdeep⟩⟩

end

section
variable {α : Type} {level : Level} {item item' : Reader α} {operand operand' : Reader Expr}

theorem mayFollow_not_operator {kind : Token.Kind} (h : MayFollow 0 kind) :
    kind ∉ level.operators :=
  h.not_mem (Nat.zero_le _) fun _ hk => hold?_operator hk

theorem continues_chain (ho : CompletesExpr deep operand operand') {bound : List Token}
    (hbound : n ≤ bound.length) :
    Continues deep n (MayFollow 0) (MayFollow 0) (fun left => chain level operand bound left)
      fun (i : Bound n) left => chain level operand' i.1 left := by
  refine continues_loop (chain level operand) (chain level operand') (fun _ => ⟨[], ?_, ?_⟩)
    (fun left => completes_pure left) (fun n t bound ih left => ?_) hbound
  · exact leads_nil fun _ hk => hk
  · rintro (_ | ⟨t, b⟩) left
    · exact finishes_pure left
    · exact (finishes_pure left).refuse (leads_nil fun _ hk => mayFollow_not_operator hk)
  · exact .accept (completes_pure left) (fun operator _ => ⟨_, ho.continues.bind
        (ih.comap (fun p : Unit × Expr => level.combine left operator p.2)
          fun i : Token × Bound n => i.2) fun _ hk => hk⟩)
      (by cases level <;> decide) (Nat.le_refl _) (.inl fun _ hk => mayFollow_not_operator hk)

/-- A reader of items that can be completed in front of a comma or the end of a list. -/
structure CompletesItem (deep : Prop) (first : Token.Kind → Prop) (item item' : Reader α) :
    Prop where
  continues : ∀ (ι κ : Type) n, Continues deep n (· ∈ [.comma, .rightParen]) first
    (fun _ : κ => item) fun (_ : ι) _ => item'
  taking : Taking item

variable {first : Token.Kind → Prop} {ι κ : Type}

theorem continues_moreItems (hi : CompletesItem deep first item item') (tooMany : Fault)
    {bound : List Token} (hbound : n ≤ bound.length) :
    Continues deep n (· = .rightParen) (· = .rightParen)
      (fun count => moreItems tooMany item bound count)
      fun (i : Bound n) count => moreItems tooMany item' i.1 count := by
  refine continues_loop (moreItems tooMany item) (moreItems tooMany item') (fun _ => ⟨[], ?_, ?_⟩)
    (fun _ => completes_pure []) (fun n t bound ih count => ?_) hbound
  · exact leads_nil fun _ hk => hk
  · rintro (_ | ⟨t, b⟩) count
    · exact finishes_pure []
    · exact (finishes_pure []).refuse (leads_nil (by rintro _ rfl; decide))
  · have hbehind : Continues deep n (· = .rightParen) (· = .rightParen)
        (fun p : Unit × α => do
          let xs ← moreItems tooMany item bound (count + 1)
          pure (p.2 :: xs))
        fun (i : Token × Bound n) p => (do
          let xs ← moreItems tooMany item' i.2.1 (count + 1)
          pure (p.2 :: xs)) :=
      (ih.comap (fun _ => count + 1) fun i : Token × Bound n => i.2).bind
        (continues_pure _ fun _ hk => hk) fun _ hk => hk
    have hrest : Continues deep n (· = .rightParen) first
        (fun _ : Unit => do
          let x ← item
          let xs ← moreItems tooMany item bound (count + 1)
          pure (x :: xs))
        fun (i : Token × Bound n) _ => (do
          let x ← item'
          let xs ← moreItems tooMany item' i.2.1 (count + 1)
          pure (x :: xs)) :=
      (hi.continues _ _ n).andThen hbehind (.inl (Nat.le_refl n)) (by rintro _ rfl; decide)
        (.inl (by rintro _ rfl; decide))
    refine .accept (completes_pure []) (fun _ _ => ⟨first, ?_⟩) (by decide) (Nat.le_refl _)
      (.inl (by rintro _ rfl; decide))
    by_cases hmax : maxArguments ≤ count
    · simp only [hmax, if_true]
      exact hrest.reportHere
        (fun _ => hi.taking.bind fun x => (hbehind.completes ((), x)).steady) tooMany
    · simpa only [hmax, if_false] using hrest

/-- Items between parentheses, if there are any. -/
theorem continues_items (hi : CompletesItem deep first item item') (tooMany : Fault) :
    Continues deep n (· = .rightParen) (· = .rightParen) (fun _ : κ => items tooMany item)
      fun (_ : ι) _ => items tooMany item' := by
  have hbehind : Continues deep n (· = .rightParen) (· = .rightParen)
      (fun p : κ × α => do
        let rest ← moreItems tooMany item (← ahead) 1
        pure (p.2 :: rest))
      fun (_ : ι) p => (do
        let rest ← moreItems tooMany item' (← ahead) 1
        pure (p.2 :: rest)) :=
    .ahead fun m bound hm => ((continues_moreItems hi tooMany hm).comap (fun _ => 1)
      fun i : ι × Bound m => i.2).bind (continues_pure _ fun _ hk => hk) fun _ hk => hk
  refine .orMissing (fun _ => []) ((hi.continues _ _ n).andThen hbehind (.inl (Nat.le_refl n))
    (by rintro _ rfl; decide) (.inl (by rintro _ rfl; decide)))
    (fun k => hi.taking.bind fun x => (hbehind.completes (k, x)).steady) rfl

theorem CompletesExpr.asItem (h : CompletesExpr deep operand operand') :
    CompletesItem deep (· = .identifier) operand operand' :=
  ⟨fun _ _ _ => h.continues.mono fun kind hk => by revert hk; cases kind <;> decide, h.taking⟩

theorem completesItem_expect {kind : Token.Kind} {what : Expected} (heof : kind ≠ .eof) :
    CompletesItem deep (· = kind) (expect kind what) (expect kind what) := by
  refine ⟨fun _ _ _ => continues_expect heof, ?_⟩
  rw [← bind_pure (expect kind what)]
  exact taking_expect heof steady_pure

theorem continues_calls (ha : CompletesExpr deep operand operand') {bound : List Token}
    (hbound : n ≤ bound.length) :
    Continues deep n (MayFollow 0) (MayFollow 0) (fun callee => calls operand bound callee)
      fun (i : Bound n) callee => calls operand' i.1 callee := by
  have hparen {kind : Token.Kind} (hk : MayFollow 0 kind) : kind ∉ [Token.Kind.leftParen] :=
    hk.not_mem (Nat.zero_le 8) (by decide)
  refine continues_loop (calls operand) (calls operand') (fun _ => ⟨[], ?_, ?_⟩)
    (fun callee => completes_pure callee) (fun n t bound ih callee => ?_) hbound
  · exact leads_nil fun _ hk => hk
  · rintro (_ | ⟨t, b⟩) callee
    · exact finishes_pure callee
    · exact (finishes_pure callee).refuse (leads_nil fun _ => hparen)
  · refine .accept (completes_pure callee) (fun _ _ => ⟨(· = .rightParen), ?_⟩) (by decide)
      (Nat.le_refl _) (.inl fun _ => hparen)
    exact (continues_items ha.asItem _).thenExpect (fun paren =>
      ih.comap (fun p : Unit × List Expr => .call callee paren p.2) fun i : Token × Bound n => i.2)
      (by decide) rfl

variable {declaration declaration' : Reader Statement}

theorem continues_declarations (hd : CompletesStatement deep declaration declaration')
    {bound : List Token} (hbound : n ≤ bound.length) :
    Continues deep n (· = .rightBrace) (· = .rightBrace)
      (fun _ : Unit => declarations declaration bound)
      fun (i : Bound n) _ => declarations declaration' i.1 := by
  refine continues_loop (fun b _ => declarations declaration b)
    (fun b _ => declarations declaration' b) (fun _ => ⟨[], ?_, ?_⟩)
    (fun _ => completes_pure []) (fun n t bound ih _ => ?_) hbound
  · exact leads_nil fun _ hk => hk
  · rintro (_ | ⟨t, b⟩) _ c z hc hz
    · exact ⟨[], c, rfl, hc⟩
    · exact ⟨[], c, if_pos (.inl (Follows.current (by rwa [hc]))), hc⟩
  · have hbehind : Continues deep n (· = .rightBrace) (· = .rightBrace)
        (fun p : Unit × Statement => do
          let rest ← declarations declaration bound
          pure (p.2 :: rest))
        fun (i : Token × Bound n) p => (do
          let rest ← declarations declaration' i.2.1
          pure (p.2 :: rest)) :=
      (ih.comap (fun _ => ()) fun i : Token × Bound n => i.2).bind
        (continues_pure _ fun _ hk => hk) fun _ hk => hk
    have hround : Continues deep (n + 1) (· = .rightBrace) (· = .leftBrace)
        (fun _ : Unit => do
          let first ← declaration
          let rest ← declarations declaration bound
          pure (first :: rest))
        fun (i : Token × Bound n) _ => (do
          let first ← declaration'
          let rest ← declarations declaration' i.2.1
          pure (first :: rest)) :=
      hd.continues.andThen hbehind (.inr ⟨Nat.le_refl _, fun _ => hd.taking⟩)
        (by rintro _ rfl; decide) (.inl (by rintro _ rfl; decide))
    -- A closing brace is closing in both readings, and so is an end token that is the same.
    intro c hc
    by_cases hclosed : c.current.kind = .rightBrace ∨ c.current.kind = .eof
    · have hnone : Completes deep (n + 1) (· = .rightBrace) (pure ([] : List Statement))
          fun _ : Token × Bound n => pure [] := completes_pure []
      refine (hnone c hc).congr hc (if_pos hclosed) (fun i c' hhead => if_pos ?_)
        (.inl fun i c' hz => if_pos (.inl hz.current))
      rwa [current_of_head? hhead]
    · refine (hround.completes () c hc).congr hc (if_neg hclosed) (fun i c' hhead => if_neg ?_)
        (.inr fun ss c₁ hok => (hd.taking.bind (fun s => (hbehind.completes ((), s)).steady) c ss c₁
          hc hok).2)
      rwa [current_of_head? hhead]

end

section
variable {ι κ : Type} {follow : Token.Kind → Prop} {expression expression' : Reader Expr}
  {statement statement' declaration declaration' : Reader Statement}

theorem continues_blockRest (hd : CompletesStatement deep declaration declaration') :
    Continues deep n follow (· = .rightBrace) (fun _ : κ => blockRest declaration)
      fun (_ : ι) _ => blockRest declaration' := by
  have hloop : Continues deep n (· = .rightBrace) (· = .rightBrace)
      (fun _ : κ => do declarations declaration (← ahead))
      fun (_ : ι) _ => (do declarations declaration' (← ahead)) :=
    .ahead fun m _ hm => (continues_declarations hd hm).comap (fun _ => ())
      fun i : ι × Bound m => i.2
  exact hloop.thenExpect (fun _ => continues_pure (fun p : κ × List Statement => p.2)
    fun _ hk => hk) (by decide) rfl

theorem continues_functionRest (hd : CompletesStatement deep declaration declaration') :
    Continues deep n follow (· = .rightParen) (fun _ : κ => functionRest declaration)
      fun (_ : ι) _ => functionRest declaration' := by
  have hrest : Continues deep n follow follow
      (fun p : (κ × List Token) × List Statement => pure (p.1.2, p.2))
      fun (_ : ι) p => pure (p.1.2, p.2) :=
    continues_pure _ fun _ hk => hk
  have hbody : Continues deep n follow (· = .rightBrace)
      (fun p : κ × List Token => do
        let body ← blockRest declaration
        pure (p.2, body))
      fun (_ : ι) p => (do
        let body ← blockRest declaration'
        pure (p.2, body)) :=
    (continues_blockRest hd).bind hrest fun _ hk => hk
  exact (continues_items (completesItem_expect (by decide)) _).thenExpect
    (fun _ => .expect (fun _ => hbody) (by decide)) (by decide) rfl

theorem continues_variableRest (he : CompletesExpr deep expression expression') :
    Continues deep n follow (· = .identifier) (fun _ : κ => variableRest expression)
      fun (_ : ι) _ => variableRest expression' := by
  have hclose (name : Token) : Continues deep n follow (· = .semicolon)
      (fun p : κ × Option Expr => do
        let _ ← expect .semicolon .semicolonAfterVariable
        pure (Statement.var name p.2))
      fun (_ : ι) p => (do
        let _ ← expect .semicolon .semicolonAfterVariable
        pure (Statement.var name p.2)) :=
    .expect (fun _ => continues_pure (fun p : κ × Option Expr => Statement.var name p.2)
      fun _ hk => hk) (by decide)
  have hinitializer (name : Token) : Continues deep n follow (· = .identifier)
      (fun _ : κ => do
        let initializer ← some <$> expression
        let _ ← expect .semicolon .semicolonAfterVariable
        pure (Statement.var name initializer))
      fun (_ : ι) _ => (do
        let initializer ← some <$> expression'
        let _ ← expect .semicolon .semicolonAfterVariable
        pure (Statement.var name initializer)) :=
    (he.continues.map fun _ => some).close (hclose name)
      (fun _ _ => taking_expect (by decide) fun _ => steady_pure _) (by rintro _ rfl; decide)
  refine .expect (p := (· = .semicolon)) (fun name => .option ?_
    (fun _ _ => ⟨_, hinitializer name⟩) (by decide) (Nat.le_succ n) (by rintro _ rfl; decide)
    (.inr fun _ => taking_expect (by decide) fun _ => steady_pure _)) (by decide)
  exact (hclose name).comap (fun k => (k, none)) id

theorem continues_expressionStatement (he : CompletesExpr deep expression expression') :
    Continues deep n follow (· = .identifier) (fun _ : κ => expressionStatement expression)
      fun (_ : ι) _ => expressionStatement expression' :=
  he.continues.thenExpect (fun _ => continues_pure (fun p : κ × Expr => Statement.expression p.2)
    fun _ hk => hk) (by decide) (by decide)

theorem taking_expressionStatement (he : CompletesExpr deep expression expression') :
    Taking (expressionStatement expression) :=
  he.taking.bind fun e => (taking_expect (by decide) fun _ =>
    steady_pure (Statement.expression e)).steady

theorem continues_unlessNext {kind : Token.Kind} (he : CompletesExpr deep expression expression')
    (hk : MayFollow 0 kind) :
    Continues deep n (· = kind) (· = kind) (fun _ : κ => unlessNext kind expression)
      fun (_ : ι) _ => unlessNext kind expression' :=
  .orMissing (fun _ => none) (he.continues.map fun _ => some) (fun _ => he.taking.map some) hk

theorem continues_forInitializer (he : CompletesExpr deep expression expression') :
    Continues deep n follow (· = .semicolon) (fun _ : κ => forInitializer expression)
      fun (_ : ι) _ => forInitializer expression' := by
  have hvalue : Continues deep n follow (· = .identifier)
      (fun _ : κ => some <$> expressionStatement expression)
      fun (_ : ι) _ => some <$> expressionStatement expression' :=
    (continues_expressionStatement he).map fun _ => some
  refine .choice (t := blank .semicolon) (m := n) hvalue.completes (fun t _ => ?_) (by decide)
    (Nat.le_succ n) (by decide) rfl (.inr fun _ => (taking_expressionStatement he).map some)
  by_cases hk : t.kind = .var
  · simp only [hk, if_true]
    exact ⟨_, (continues_variableRest he).map fun _ => some⟩
  · simp only [hk, if_false]
    exact ⟨_, continues_pure (fun _ => none) fun _ hk => hk⟩

theorem continues_printRest (he : CompletesExpr deep expression expression') :
    Continues deep n follow (· = .identifier) (fun _ : κ => printRest expression)
      fun (_ : ι) _ => printRest expression' :=
  he.continues.thenExpect (fun _ => continues_pure (fun p : κ × Expr => Statement.print p.2)
    fun _ hk => hk) (by decide) (by decide)

theorem continues_returnRest (he : CompletesExpr deep expression expression') (keyword : Token) :
    Continues deep n follow (· = .semicolon) (fun _ : κ => returnRest expression keyword)
      fun (_ : ι) _ => returnRest expression' keyword :=
  (continues_unlessNext he (by decide)).thenExpect
    (fun _ => continues_pure (fun p : κ × Option Expr => Statement.return keyword p.2)
      fun _ hk => hk) (by decide) rfl

theorem continues_whileRest (he : CompletesExpr deep expression expression')
    (hs : CompletesStatement deep statement statement') :
    Continues deep n (· ≠ .else) (· = .leftParen)
      (fun _ : κ => whileRest expression statement)
      fun (_ : ι) _ => whileRest expression' statement' := by
  have hbody : Continues deep n (· ≠ .else) (· = .leftBrace)
      (fun p : κ × Expr => do
        let body ← statement
        pure (Statement.while p.2 body))
      fun (_ : ι) p => (do
        let body ← statement'
        pure (Statement.while p.2 body)) :=
    hs.continues.bind (continues_pure
      (fun p : (κ × Expr) × Statement => Statement.while p.1.2 p.2) fun _ hk => hk) fun _ hk => hk
  exact .expect (fun _ => he.continues.thenExpect (fun _ => hbody) (by decide) (by decide))
    (by decide)

theorem continues_ifRest (he : CompletesExpr deep expression expression')
    (hs : CompletesStatement deep statement statement') :
    Continues deep n (· ≠ .else) (· = .leftParen)
      (fun _ : κ => ifRest expression statement)
      fun (_ : ι) _ => ifRest expression' statement' := by
  have helse : Continues deep n (· ≠ .else) (· = .leftBrace)
      (fun p : (κ × Expr) × Statement => do
        let elseBranch ← some <$> statement
        pure (Statement.ifElse p.1.2 p.2 elseBranch))
      fun (_ : ι) p => (do
        let elseBranch ← some <$> statement'
        pure (Statement.ifElse p.1.2 p.2 elseBranch)) :=
    (hs.continues.map fun _ => some).bind (continues_pure
      (fun p : ((κ × Expr) × Statement) × Option Statement =>
        Statement.ifElse p.1.1.2 p.1.2 p.2) fun _ hk => hk) fun _ hk => hk
  have hnone : Continues deep n (· ≠ .else) (· ≠ .else)
      (fun p : (κ × Expr) × Statement => pure (Statement.ifElse p.1.2 p.2 none))
      fun (_ : ι) p => pure (Statement.ifElse p.1.2 p.2 none) :=
    continues_pure _ fun _ hk => hk
  exact .expect (fun _ => he.continues.thenExpect (fun _ => hs.continues.bind
    (.option hnone (fun _ _ => ⟨_, helse⟩) (by decide) (Nat.le_succ n)
      (fun _ hk => by simpa using hk) (.inl fun _ hk => by simpa using hk))
    fun _ hk => hk) (by decide) (by decide)) (by decide)

theorem continues_forRest {first first' : Reader Expr} (hf : CompletesExpr deep first first')
    (he : CompletesExpr deep expression expression')
    (hs : CompletesStatement deep statement statement') :
    Continues deep n (· ≠ .else) (· = .leftParen)
      (fun _ : κ => forRest first expression statement)
      fun (_ : ι) _ => forRest first' expression' statement' := by
  have hbody : Continues deep n (· ≠ .else) (· = .leftBrace)
      (fun p : ((κ × Option Statement) × Option Expr) × Option Expr => do
        let body ← statement
        pure (forTree p.1.1.2 p.1.2 p.2 body))
      fun (_ : ι) p => (do
        let body ← statement'
        pure (forTree p.1.1.2 p.1.2 p.2 body)) :=
    hs.continues.bind (continues_pure
      (fun p : (((κ × Option Statement) × Option Expr) × Option Expr) × Statement =>
        forTree p.1.1.1.2 p.1.1.2 p.1.2 p.2) fun _ hk => hk) fun _ hk => hk
  have hincrement : Continues deep n (· ≠ .else) (· = .rightParen)
      (fun p : (κ × Option Statement) × Option Expr => do
        let increment ← unlessNext .rightParen expression
        let _ ← expect .rightParen .parenAfterForClauses
        let body ← statement
        pure (forTree p.1.2 p.2 increment body))
      fun (_ : ι) p => (do
        let increment ← unlessNext .rightParen expression'
        let _ ← expect .rightParen .parenAfterForClauses
        let body ← statement'
        pure (forTree p.1.2 p.2 increment body)) :=
    (continues_unlessNext he (by decide)).thenExpect (fun _ => hbody) (by decide) rfl
  have hcondition : Continues deep n (· ≠ .else) (· = .semicolon)
      (fun p : κ × Option Statement => do
        let condition ← unlessNext .semicolon expression
        let _ ← expect .semicolon .semicolonAfterLoopCondition
        let increment ← unlessNext .rightParen expression
        let _ ← expect .rightParen .parenAfterForClauses
        let body ← statement
        pure (forTree p.2 condition increment body))
      fun (_ : ι) p => (do
        let condition ← unlessNext .semicolon expression'
        let _ ← expect .semicolon .semicolonAfterLoopCondition
        let increment ← unlessNext .rightParen expression'
        let _ ← expect .rightParen .parenAfterForClauses
        let body ← statement'
        pure (forTree p.2 condition increment body)) :=
    (continues_unlessNext he (by decide)).thenExpect (fun _ => hincrement) (by decide) rfl
  have hinitializer : Continues deep n (fun _ => True) (· = .semicolon)
      (fun _ : κ => forInitializer first) fun (_ : ι) _ => forInitializer first' :=
    continues_forInitializer hf
  exact .expect (fun _ => hinitializer.andThen hcondition (.inl (Nat.le_refl n))
    (fun _ _ => trivial) (.inl fun _ _ => trivial)) (by decide)

end

/-- What is shown of all readers of trees at once. -/
structure CompletesTrees (deep : Prop) (room room' : Nat) : Prop where
  expression : CompletesExpr deep (Grammar.expression room) (Grammar.expression room')
  assignment : CompletesExpr deep (assignment room) (assignment room')
  operator : ∀ level, CompletesExpr deep (operator room level) (operator room' level)
  unary : CompletesExpr deep (unary room) (unary room')
  call : CompletesExpr deep (call room) (call room')
  primary : CompletesExpr deep (primary room) (primary room')
  declaration : CompletesStatement deep (Grammar.declaration room) (Grammar.declaration room')
  statement : CompletesStatement deep (Grammar.statement room) (Grammar.statement room')

section
variable {room room' : Nat}

/-- A token that holds an expression does not follow one. -/
theorem mayFollow_ne {kinds : List Token.Kind} (h : ∀ kind ∈ kinds, ¬ MayFollow 0 kind)
    (kind : Token.Kind) (hk : MayFollow 0 kind) : kind ∉ kinds :=
  fun hmem => h kind hmem hk

/-- What comes behind an expression may be nothing. -/
theorem CompletesExpr.bind {act act' : Reader Expr} {next next' : Expr → Reader Expr}
    (h : CompletesExpr deep act act')
    (hn : ∀ (ι : Type) n, Continues deep n (MayFollow 0) (MayFollow 0) next fun _ : ι => next')
    (hs : deep → Finishes (MayFollow 0) (act' >>= next') [blank .identifier]) :
    CompletesExpr deep (act >>= next) (act' >>= next') :=
  ⟨fun ι n => (h.completes ι n).bind (hn ι n) (.inl (Nat.le_refl n)) (fun _ hk => hk)
      (.inl fun _ hk => hk),
    h.taking.bind fun e => ((hn Unit 0).completes e).steady, hs⟩

theorem completes_expression (h : CompletesTrees deep room room')
    (hs : deep → Finishes (MayFollow 0) (expression (room' + 2)) [blank .identifier]) :
    CompletesExpr deep (expression (room + 2)) (expression (room' + 2)) := by
  refine h.assignment.bind (fun ι n => .option (continues_pure id fun _ hk => hk)
    (fun _ _ => ⟨(· = .identifier), ?_⟩) (by decide) (Nat.le_succ n) (mayFollow_ne (by decide))
    (.inl (mayFollow_ne (by decide)))) hs
  exact h.expression.continues.thenExpect (fun _ => h.expression.continues.bind
    (continues_pure (fun p : (Expr × Expr) × Expr => Expr.ternary p.1.1 p.1.2 p.2)
      fun _ hk => hk) fun _ hk => hk) (by decide) (by decide)

/-- What is assigned to a target that is no name is dropped. -/
theorem continues_assigned {ι : Type} {follow : Token.Kind → Prop} (equals : Token) :
    Continues deep n follow follow
      (fun p : Expr × Expr =>
        match p.1 with
        | .access site name => pure (.assign site name p.2)
        | _ => do
          report equals .invalidAssignmentTarget
          pure p.1)
      fun (_ : ι) p =>
        (match p.1 with
        | .access site name => pure (.assign site name p.2)
        | _ => do
          report equals .invalidAssignmentTarget
          pure p.1) := by
  have hdropped (target : Expr) : Completes deep n follow
      (do report equals .invalidAssignmentTarget; pure target)
      fun _ : ι => (do report equals .invalidAssignmentTarget; pure target) :=
    (completes_report equals .invalidAssignmentTarget).bind
      (continues_pure (fun _ => target) fun _ hk => hk) (.inl (Nat.le_refl n)) (fun _ hk => hk)
      (.inl fun _ hk => hk)
  refine ⟨fun ⟨target, value⟩ => ?_, fun _ => ⟨[], leads_nil fun _ hk => hk, ?_⟩⟩
  · cases target with
    | access site name => exact completes_pure _
    | _ => exact hdropped _
  · rintro i ⟨target, value⟩ c z hc -
    cases target <;> exact ⟨_, _, rfl, hc⟩

theorem completes_assignment (h : CompletesTrees deep room room')
    (hs : deep → Finishes (MayFollow 0) (assignment (room' + 1)) [blank .identifier]) :
    CompletesExpr deep (assignment (room + 1)) (assignment (room' + 1)) := by
  refine (h.operator .or).bind (fun ι n => .option (continues_pure id fun _ hk => hk)
    (fun equals _ => ⟨(· = .identifier), ?_⟩) (by decide) (Nat.le_succ n) (mayFollow_ne (by decide))
    (.inl (mayFollow_ne (by decide)))) hs
  exact h.expression.continues.bind (continues_assigned equals) fun _ hk => hk

theorem completes_operator (h : CompletesTrees deep room room') (level : Level)
    (hs : deep → Finishes (MayFollow 0) (operator (room' + 2) level) [blank .identifier]) :
    CompletesExpr deep (operator (room + 2) level) (operator (room' + 2) level) := by
  have hchain {operand operand' : Reader Expr} (ho : CompletesExpr deep operand operand') (ι : Type)
      n : Continues deep n (MayFollow 0) (MayFollow 0)
        (fun left => do chain level operand (← ahead) left)
        fun (_ : ι) left => (do chain level operand' (← ahead) left) :=
    .ahead fun m _ hm => (continues_chain ho hm).comap id fun i : ι × Bound m => i.2
  cases level with
  | factor => exact h.unary.bind (hchain h.unary) hs
  | or | and | equality | comparison | term =>
    exact (h.operator _).bind (hchain (h.operator _)) hs

theorem completes_call (he : CompletesExpr deep (expression room) (expression room'))
    (hp : CompletesExpr deep (primary (room + 1)) (primary (room' + 1)))
    (hs : deep → Finishes (MayFollow 0) (call (room' + 2)) [blank .identifier]) :
    CompletesExpr deep (call (room + 2)) (call (room' + 2)) :=
  hp.bind (fun ι _ => .ahead fun m _ hm => (continues_calls he hm).comap id
    fun i : ι × Bound m => i.2) hs

/-- A token of some kinds may come first. -/
theorem CompletesTree.accept {α : Type} {follow : Token.Kind → Prop} {w : List Token}
    {kinds : List Token.Kind} {k k' : Option Token → Reader α}
    (hnone : ∀ (ι : Type) n, Completes deep n follow (k none) fun _ : ι => k' none)
    (ht : Taking (k none))
    (hsome : ∀ (ι : Type) n t, t.kind ∈ kinds → ∃ first, Continues deep n follow first
      (fun _ : Unit => k (some t)) fun (_ : ι) _ => k' (some t))
    (heof : .eof ∉ kinds) (hs : deep → Finishes follow (Grammar.accept kinds >>= k') w) :
    CompletesTree deep follow w (Grammar.accept kinds >>= k) (Grammar.accept kinds >>= k') := by
  refine ⟨fun ι n => .accept (hnone ι n) (hsome ι n) heof (Nat.le_succ n) (.inr ht),
    .accept ht (fun t hmem => ?_) heof, hs⟩
  obtain ⟨_, hrest⟩ := hsome Unit 0 t hmem
  exact (hrest.completes ()).steady

theorem completes_unary (h : CompletesTrees deep room room')
    (hs : deep → Finishes (MayFollow 0) (unary (room' + 1)) [blank .identifier]) :
    CompletesExpr deep (unary (room + 1)) (unary (room' + 1)) :=
  .accept h.call.completes h.call.taking (fun _ _ sign _ => ⟨_, h.unary.continues.map
    fun _ => Expr.unary sign⟩) (by decide) hs

theorem completes_primary (he : CompletesExpr deep (expression (room + 2)) (expression (room' + 2)))
    (hd : CompletesStatement deep (declaration room) (declaration room'))
    (hs : deep → Finishes (MayFollow 0) (primary (room' + 3)) [blank .identifier]) :
    CompletesExpr deep (primary (room + 3)) (primary (room' + 3)) := by
  refine .accept (fun _ _ => completes_fail _) (taking_fail _) (fun ι n t ht => ?_) (by decide) hs
  have hliteral (value : Literal) : ∃ first, Continues deep n (MayFollow 0) first
      (fun _ : Unit => pure (Expr.literal value)) fun (_ : ι) _ => pure (Expr.literal value) :=
    ⟨_, continues_pure (fun _ => Expr.literal value) fun _ hk => hk⟩
  simp only [primaryStarts, List.mem_cons, List.not_mem_nil, or_false] at ht
  rcases ht with hk | hk | hk | hk | hk | hk | hk | hk <;> simp only [hk]
  · exact hliteral _
  · exact hliteral _
  · exact hliteral _
  · exact hliteral _
  · exact hliteral _
  · exact ⟨_, continues_freshSite.bind (continues_pure (fun p : Unit × Site => Expr.access p.2 t)
      fun _ hk => hk) fun _ hk => hk⟩
  · exact ⟨_, .expect (fun _ => (continues_functionRest hd).bind (continues_pure
      (fun p : Unit × (List Token × List Statement) => Expr.function t p.2.1 p.2.2)
      fun _ hk => hk) fun _ hk => hk) (by decide)⟩
  · exact ⟨_, he.continues.thenExpect (fun _ => continues_pure
      (fun p : Unit × Expr => Expr.grouping p.2) fun _ hk => hk) (by decide) (by decide)⟩

theorem completes_statement (hf : CompletesExpr deep (expression room) (expression room'))
    (h : CompletesTrees deep (room + 1) (room' + 1))
    (hs : deep → Finishes (· ≠ .else) (statement (room' + 3))
      [blank .leftBrace, blank .rightBrace]) :
    CompletesStatement deep (statement (room + 3)) (statement (room' + 3)) := by
  refine .accept (fun _ _ => (continues_expressionStatement h.expression).completes ())
    (taking_expressionStatement h.expression) (fun ι n t ht => ?_) (by decide) hs
  simp only [statementStarts, List.mem_cons, List.not_mem_nil, or_false] at ht
  rcases ht with hk | hk | hk | hk | hk | hk <;> simp only [hk]
  · exact ⟨_, continues_forRest hf h.expression h.statement⟩
  · exact ⟨_, continues_ifRest h.expression h.statement⟩
  · exact ⟨_, continues_returnRest h.expression t⟩
  · exact ⟨_, continues_printRest h.expression⟩
  · exact ⟨_, continues_whileRest h.expression h.statement⟩
  · exact ⟨_, (continues_blockRest h.declaration).map fun _ => Statement.block⟩

/-- A statement is behind a token that it asked for. -/
theorem taking_of_repeats {act : Reader Statement}
    (h : RepeatsStatement (.lines id) act) : Taking act := by
  intro c s c₁ hc hok
  obtain ⟨passed, made, hmoves, -, hpassed, -⟩ := Ends.ok (h 0 c hc) hok
  have hpos : 0 < passed.length := List.length_pos_iff.2 (Settled.ne_nil hpassed)
  have hlength := hmoves.length
  exact ⟨hmoves.hasEnd hc, by omega⟩

/-- What is behind the keyword of a function with a name. -/
def namedRest (declaration : Reader Statement) : Reader Statement := do
  let name ← expect .identifier .variableName
  let _ ← expect .leftParen .parenAfterFunctionName
  let f ← functionRest declaration
  pure (.function name f.1 f.2)

theorem continues_namedRest {ι κ : Type} {declaration declaration' : Reader Statement}
    (hd : CompletesStatement deep declaration declaration') :
    Continues deep n (· ≠ .else) (· = .identifier) (fun _ : κ => namedRest declaration)
      fun (_ : ι) _ => namedRest declaration' := by
  refine .expect (p := (· = .leftParen)) (fun name => ?_) (by decide)
  exact .expect (fun _ => (continues_functionRest hd).bind (continues_pure
    (fun p : κ × (List Token × List Statement) => Statement.function name p.2.1 p.2.2)
    fun _ hk => hk) fun _ hk => hk) (by decide)

theorem continues_functionDeclaration {ι κ : Type} {declaration declaration' : Reader Statement}
    (hd : CompletesStatement deep declaration declaration') :
    Continues deep n (· ≠ .else) (· = .fun) (fun _ : κ => functionDeclaration declaration)
      fun (_ : ι) _ => functionDeclaration declaration' :=
  .expect (fun _ => continues_namedRest hd) (by decide)

theorem completes_variableOrStatement
    (hv : CompletesExpr deep (expression (room + 2)) (expression (room' + 2)))
    (hs : CompletesStatement deep (statement (room + 3)) (statement (room' + 3))) :
    CompletesStatement deep (variableOrStatement room) (variableOrStatement room') :=
  .accept hs.completes hs.taking (fun _ _ _ _ => ⟨_, continues_variableRest hv⟩) (by decide)
    fun hdeep => (hs.scratch hdeep).refuse (leads_cons (by decide))

/-- What makes a function without a name of its keyword, and a statement of the function. -/
def emptyFunction : List Token :=
  [blank .leftParen, blank .rightParen, blank .leftBrace, blank .rightBrace, blank .semicolon]

theorem finishes_function {t : Token} (ht : t.kind = .fun) (hroom : 23 ≤ room) :
    Finishes (· ≠ .else) (declaration room) (t :: emptyFunction) := by
  have hc : (Expr.function t [] []).Canonical := ⟨ht, by simp, trivial⟩
  have hread := (understood_expression hc (understood _ hc)).declaration room
    (by simpa [Statement.need, Expr.need, Statement.needs] using hroom)
  have hs : Spells (Statement.expression (.function t [] [])).written (t :: emptyFunction) :=
    .cons rfl (.cons rfl (.cons rfl (.cons rfl (.cons rfl (.cons rfl .nil)))))
  exact (hread.finishes hs).mono fun _ hk _ => hk

/-- The keyword of a function is not the last token of a declaration. -/
theorem declaration_two_le {c c₁ : Cursor} {s : Statement} (hc : HasEnd c.rest)
    (hk : c.current.kind = .fun) (hok : declaration room c = .ok s c₁) :
    c₁.rest.length + 2 ≤ c.rest.length := by
  have hrepeats := (repeatsTrees (ρ := .lines id) (fun _ => rfl) room).declaration 0 c hc
  obtain ⟨passed, made, hmoves, -, ⟨front, t, rfl, ht⟩, -⟩ := Ends.ok hrepeats hok
  have hlength := hmoves.length
  cases front with
  | nil =>
    refine absurd hk ?_
    rwa [Cursor.current, hmoves.rest]
  | cons u front =>
    rw [List.length_append, List.length_cons, List.length_singleton] at hlength
    omega

/-- A declaration with a fault passes the keyword of a function. -/
theorem declaration_lt {c c₁ : Cursor} (hc : HasEnd c.rest) (hk : c.current.kind = .fun)
    (h : CompletesStatement deep (variableOrStatement room) (variableOrStatement (room + 24)))
    (herror : variableOrStatement room c = .error .fault c₁) :
    c₁.rest.length < c.rest.length := by
  obtain ⟨passed, made, hmoves, hagain⟩ := Ends.error (h.completes Unit 1 c hc) herror rfl
  have hlength := hmoves.length
  by_cases hp : passed = []
  · subst hp
    -- But with other tokens behind it the keyword is no fault.
    let z := c.current :: (emptyFunction ++ [blank .eof])
    let c' : Cursor := ⟨z, c.last, [], c.nextSite⟩
    have hfault : variableOrStatement (room + 24) c' =
        .error .fault (c'.past made c₁.nextSite z) :=
      (hagain (by decide)).1 () c' z ⟨rfl, rfl⟩ (by rw [hmoves.current_eq hc]; rfl)
    have hsecond : ¬ (c'.current.kind = .fun ∧ c'.second.kind = .identifier) :=
      fun h => nomatch (show Token.Kind.leftParen = .identifier from h.2)
    obtain ⟨s, c₂, hok, -⟩ := finishes_function hk (show 23 ≤ room + 24 + 4 by omega) c'
      [blank .eof] rfl (follows_cons (by decide))
    rw [declaration_of_not_fun hsecond, hfault] at hok
    cases hok
  · have := List.length_pos_iff.2 hp
    omega

/-- Only the first two tokens make a difference to how a declaration is read. Where a fault leaves
only one that was passed, it is known with what that one is completed. -/
theorem CompletesAt.second {ι α : Type} {follow : Token.Kind → Prop} {act act₁ : Reader α}
    {act' act₁' : ι → Reader α} {c : Cursor} (h : CompletesAt deep n follow act₁ act₁' c)
    (hact : act c = act₁ c)
    (hsame : ∀ i c', c'.rest.take 2 = c.rest.take 2 → act' i c' = act₁' i c')
    (hok : ∀ a c₁, act₁ c = .ok a c₁ → c₁.rest.length + 2 ≤ c.rest.length)
    (herror : ∀ c₁, act₁ c = .error .fault c₁ → c₁.rest.length < c.rest.length) (hc : HasEnd c.rest)
    (hone : deep → ∃ w, ∀ i, Finishes follow (act' i) (c.current :: w)) :
    CompletesAt deep n follow act act' c := by
  have htwo {passed z : List Token} {made : List Report} {c' c₁ : Cursor}
      (hmoves : Moves c passed made c₁) (hz : 2 ≤ passed.length ∨ 1 ≤ passed.length ∧
        z.head? = some c₁.current) (hr : Rereads c c' passed z) :
      c'.rest.take 2 = c.rest.take 2 := by
    have hc₁ := (hmoves.hasEnd hc).rest_eq_cons
    rw [hr.rest, hmoves.rest]
    match passed, hz with
    | [], hz => simp at hz
    | [_], hz =>
      obtain ⟨rest, rfl⟩ := List.head?_eq_some_iff.1 (hz.resolve_left (by simp)).2
      rw [hc₁]
      rfl
    | _ :: _ :: _, _ => rfl
  refine (Ends.congr hact).2 (Ends.imp (Ends.run h) (fun a c₁ => ?_) fun stop c₁ => ?_)
  · rintro ⟨hrun, passed, made, hmoves, hagain⟩
    have hlength := hmoves.length
    have hle := hok a c₁ hrun
    refine ⟨passed, made, hmoves, fun hlt i c' z hr hz => ?_⟩
    rw [← hagain hlt i c' z hr hz]
    exact hsame i c' (htwo hmoves (.inl (by omega)) hr)
  · rintro ⟨hrun, hfault⟩ rfl
    obtain ⟨passed, made, hmoves, hagain⟩ := hfault rfl
    have hlength := hmoves.length
    have hle := herror c₁ hrun
    refine ⟨passed, made, hmoves, fun hlt => ?_⟩
    obtain ⟨halong, hcomplete⟩ := hagain hlt
    refine ⟨fun i c' z hr hz => ?_, fun hdeep hne => ?_⟩
    · rw [← halong i c' z hr hz]
      exact hsame i c' (htwo hmoves (.inr ⟨by omega, hz⟩) hr)
    · by_cases hlen : 2 ≤ passed.length
      · obtain ⟨w, hw⟩ := hcomplete hdeep hne
        refine ⟨w, fun i c' z hr hz => ?_⟩
        rw [Gets, hsame i c' (htwo hmoves (.inl hlen) hr.first)]
        exact hw i c' z hr hz
      · obtain ⟨t, rfl⟩ := List.length_eq_one_iff.1 (show passed.length = 1 by omega)
        obtain rfl : c.current = t := by rw [Cursor.current, hmoves.rest]; rfl
        exact (hone hdeep).imp fun w hw i c' z hr hz => hw i c' z hr.rest hz

/-- A cursor in front of two tokens that are the same. -/
theorem second_eq {c c' : Cursor} (hc : HasEnd c.rest) (hk : c.current.kind ≠ .eof)
    (h : c'.rest.take 2 = c.rest.take 2) : c'.current = c.current ∧ c'.second = c.second := by
  have hadvance := moves_advance hc hk
  have hrest : c.rest = c.current :: c.advance.current :: c.advance.rest.tail := by
    rw [← (hadvance.hasEnd hc).rest_eq_cons]
    exact hadvance.rest
  rw [hrest] at h
  match hrest' : c'.rest, h with
  | [], h => cases h
  | [t], h => cases h
  | t :: u :: rest, h =>
    rw [Cursor.current, Cursor.second, Cursor.second, hrest', hrest]
    cases h
    exact ⟨rfl, rfl⟩

theorem completes_declaration {wide : Prop}
    (hother : CompletesStatement deep (variableOrStatement room) (variableOrStatement room'))
    (hd : CompletesStatement deep (declaration room) (declaration room'))
    (hwide : CompletesStatement wide (variableOrStatement room) (variableOrStatement (room + 24)))
    (hroom : deep → 19 ≤ room') :
    CompletesStatement deep (declaration (room + 4)) (declaration (room' + 4)) := by
  refine ⟨fun ι n c hc => ?_,
    taking_of_repeats (repeatsTrees (fun _ => rfl) (room + 4)).declaration,
    fun hdeep => (finishes_block (by have := hroom hdeep; omega)).1⟩
  have hone (hk : c.current.kind = .fun) (hdeep : deep) : ∃ w, ∀ _ : ι,
      Finishes (· ≠ .else) (declaration (room' + 4)) (c.current :: w) :=
    ⟨_, fun _ => finishes_function hk (by have := hroom hdeep; omega)⟩
  by_cases hk : c.current.kind = .fun
  · have hsecond {c' : Cursor} (h : c'.rest.take 2 = c.rest.take 2) :=
      second_eq hc (by rw [hk]; decide) h
    by_cases hname : c.current.kind = .fun ∧ c.second.kind = .identifier
    · have hact : declaration (room + 4) c = functionDeclaration (declaration room) c :=
        declaration_of_fun hname
      have hnamed := (continues_functionDeclaration (ι := ι) (κ := Unit) (n := n) hd).completes ()
        c hc
      refine hnamed.second hact (fun _ c' h => declaration_of_fun ?_)
        (fun s c₁ hok => declaration_two_le hc hk (hact.trans hok)) (fun c₁ herror => ?_) hc
        (hone hk)
      · rwa [(hsecond h).1, (hsecond h).2]
      · have hadvance := moves_advance hc (by rw [hk]; decide)
        have hrest : functionDeclaration (declaration room) c =
            namedRest (declaration room) c.advance := bind_of_ok (if_pos hk)
        have hbehind := (continues_namedRest (ι := Unit) (κ := Unit) (n := 0) hd).completes ()
          c.advance (hadvance.hasEnd hc)
        obtain ⟨passed, made, hmoves, -⟩ := Ends.error hbehind (hrest ▸ herror) rfl
        have hle := hmoves.length_le
        have hlength := hadvance.length
        rw [List.length_singleton] at hlength
        omega
    · have hact : declaration (room + 4) c = variableOrStatement room c :=
        declaration_of_not_fun hname
      refine (hother.completes ι n c hc).second hact (fun _ c' h => declaration_of_not_fun ?_)
        (fun s c₁ hok => declaration_two_le hc hk (hact.trans hok))
        (fun c₁ herror => declaration_lt hc hk hwide herror) hc (hone hk)
      rwa [(hsecond h).1, (hsecond h).2]
  · have hnot {c' : Cursor} (hk' : c'.current.kind ≠ .fun) (r : Nat) :
        declaration (r + 4) c' = variableOrStatement r c' :=
      declaration_of_not_fun fun h => hk' h.1
    exact (hother.completes ι n c hc).congr hc (hnot hk room) (fun i c' hhead =>
      hnot (by rwa [current_of_head? hhead]) room')
      (.inr fun s c₁ hok => (hother.taking c s c₁ hc hok).2)

theorem finishes_of_readerAt (act : Nat → Reader Expr) (offset k : Nat)
    (hact : ∀ r, readerAt r k = act (r + offset)) (hk : k ≤ 9) (hroom : offset ≤ room) :
    Finishes (MayFollow 0) (act room) [blank .identifier] := by
  obtain ⟨r, rfl⟩ : ∃ r, room = r + offset := ⟨room - offset, by omega⟩
  rw [← hact]
  exact finishes_readerAt r hk

/-- A name stands for an expression of every level. -/
theorem finishes_operator (hroom : 20 ≤ room) (level : Level) :
    Finishes (MayFollow 0) (operator room level) [blank .identifier] := by
  have hread (offset : Nat) (hoffset : offset ≤ 20) (hk : level.tightness ≤ 9)
      (hact : ∀ r, readerAt r level.tightness = operator (r + offset) level) :
      Finishes (MayFollow 0) (operator room level) [blank .identifier] :=
    finishes_of_readerAt (operator · level) offset _ hact hk (by omega)
  cases level with
  | or => exact hread 17 (by decide) (by decide) fun _ => rfl
  | and => exact hread 15 (by decide) (by decide) fun _ => rfl
  | equality => exact hread 13 (by decide) (by decide) fun _ => rfl
  | comparison => exact hread 11 (by decide) (by decide) fun _ => rfl
  | term => exact hread 9 (by decide) (by decide) fun _ => rfl
  | factor => exact hread 7 (by decide) (by decide) fun _ => rfl

theorem completesTree_tooDeep {α : Type} {follow : Token.Kind → Prop} {w : List Token}
    {act' : Reader α} (hs : deep → Finishes follow act' w) :
    CompletesTree deep follow w tooDeep act' :=
  ⟨fun _ _ => completes_tooDeep, taking_tooDeep, hs⟩

/-- What is read with some room is completed with as much or more of it, and what is passed up to a
fault if it is so much more that any tree can be begun. -/
theorem completesTrees (room more : Nat) : CompletesTrees (24 ≤ more) room (room + more) := by
  induction room using Nat.strongRecOn generalizing more with
  | ind room ih =>
    constructor
    · have hs (h : 24 ≤ more) : Finishes (MayFollow 0) (expression (room + more))
          [blank .identifier] :=
        finishes_of_readerAt expression 20 0 (fun _ => rfl) (by decide) (by omega)
      match room, ih with
      | 0, _ | 1, _ => exact completesTree_tooDeep hs
      | room + 2, ih =>
        rw [Nat.add_right_comm] at hs ⊢
        exact completes_expression (ih room (by omega) more) hs
    · have hs (h : 24 ≤ more) : Finishes (MayFollow 0) (assignment (room + more))
          [blank .identifier] := by
        obtain ⟨r, hr⟩ : ∃ r, room + more = r + 18 := ⟨room + more - 18, by omega⟩
        rw [hr]
        exact finishes_assignment r
      match room, ih with
      | 0, _ => exact completesTree_tooDeep hs
      | room + 1, ih =>
        rw [Nat.add_right_comm] at hs ⊢
        exact completes_assignment (ih room (by omega) more) hs
    · intro level
      have hs (h : 24 ≤ more) : Finishes (MayFollow 0) (operator (room + more) level)
          [blank .identifier] := finishes_operator (by omega) level
      match room, ih with
      | 0, _ | 1, _ => exact completesTree_tooDeep hs
      | room + 2, ih =>
        rw [Nat.add_right_comm] at hs ⊢
        exact completes_operator (ih room (by omega) more) level hs
    · have hs (h : 24 ≤ more) : Finishes (MayFollow 0) (unary (room + more)) [blank .identifier] :=
        finishes_of_readerAt unary 5 7 (fun _ => rfl) (by decide) (by omega)
      match room, ih with
      | 0, _ => exact completesTree_tooDeep hs
      | room + 1, ih =>
        rw [Nat.add_right_comm] at hs ⊢
        exact completes_unary (ih room (by omega) more) hs
    · have hs (h : 24 ≤ more) : Finishes (MayFollow 0) (call (room + more)) [blank .identifier] :=
        finishes_of_readerAt call 4 8 (fun _ => rfl) (by decide) (by omega)
      match room, ih with
      | 0, _ | 1, _ => exact completesTree_tooDeep hs
      | room + 2, ih =>
        have hp := (ih (room + 1) (by omega) more).primary
        rw [Nat.add_right_comm] at hs hp ⊢
        exact completes_call (ih room (by omega) more).expression hp hs
    · have hs (h : 24 ≤ more) : Finishes (MayFollow 0) (primary (room + more))
          [blank .identifier] :=
        finishes_of_readerAt primary 3 9 (fun _ => rfl) (by decide) (by omega)
      match room, ih with
      | 0, _ | 1, _ | 2, _ => exact completesTree_tooDeep hs
      | room + 3, ih =>
        have he := (ih (room + 2) (by omega) more).expression
        rw [Nat.add_right_comm] at hs he ⊢
        exact completes_primary he (ih room (by omega) more).declaration hs
    · have hs (h : 24 ≤ more) := (finishes_block (show 4 ≤ room + more by omega)).1
      match room, ih with
      | 0, _ | 1, _ | 2, _ | 3, _ => exact completesTree_tooDeep hs
      | room + 4, ih =>
        have hother (more : Nat) : CompletesStatement (24 ≤ more) (variableOrStatement room)
            (variableOrStatement (room + more)) := by
          have hv := (ih (room + 2) (by omega) more).expression
          have hst := (ih (room + 3) (by omega) more).statement
          rw [Nat.add_right_comm] at hv hst
          exact completes_variableOrStatement hv hst
        rw [Nat.add_right_comm]
        exact completes_declaration (hother more) (ih room (by omega) more).declaration
          (hother 24) fun hdeep => by omega
    · have hs (h : 24 ≤ more) := (finishes_block (show 4 ≤ room + more by omega)).2
      match room, ih with
      | 0, _ | 1, _ | 2, _ => exact completesTree_tooDeep hs
      | room + 3, ih =>
        have hp := ih (room + 1) (by omega) more
        rw [Nat.add_right_comm] at hs hp ⊢
        exact completes_statement (ih room (by omega) more).expression hp hs

end

end Lox.Grammar

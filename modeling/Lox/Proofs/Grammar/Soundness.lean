import Lox.Proofs.Grammar.Passing
import Lox.Proofs.Syntax.Canonical

/-!
# What a reader returns is what it read

Every reader of the grammar is shown to return a canonical tree that writes the tokens it passed.
The loops and the parts of statements come first, each for any readers of its parts; then all trees
together, by induction on the room that is left.
-/
namespace Lox.Grammar

/-- Reads canonical expressions that are at least this tight. -/
def ReadsExpr (tightness : Nat) (act : Reader Expr) : Prop :=
  Reads act Expr.written Expr.sites fun e _ => e.Canonical ∧ tightness ≤ e.tightness

/-- Reads canonical expressions of any tightness; a question mark would have been read as well. -/
def ReadsAny (act : Reader Expr) : Prop :=
  Reads act Expr.written Expr.sites fun e c => e.Canonical ∧ c.current.kind ≠ .question

/-- What a statement is and where it ends: an `else` that belongs to it would have been read as
well. -/
def Complete (s : Statement) (c : Cursor) : Prop :=
  s.Canonical ∧ s.isDeclaration = false ∧ (s.endsOpen = true → c.current.kind ≠ .else)

/-- Anything may follow a statement that does not end in an open one. -/
theorem Complete.of_closed {s : Statement} {c : Cursor} (hs : s.Canonical)
    (hd : s.isDeclaration = false) (hclosed : s.endsOpen = false) : Complete s c :=
  ⟨hs, hd, fun hopen => absurd (hclosed.symm.trans hopen) Bool.false_ne_true⟩

/-- Reads canonical statements that are no declarations. -/
def ReadsStatement (act : Reader Statement) : Prop :=
  Reads act Statement.written Statement.sites Complete

def ReadsDeclaration (act : Reader Statement) : Prop :=
  Reads act Statement.written Statement.sites fun s _ => s.Canonical

-- The words and the uses of a tree are read off its constructor.
attribute [local simp] Expr.written Expr.sites Statement.written Statement.sites

section
variable {c c₁ : Cursor} {us : List Site}

theorem ends_chain {level : Level} {operand : Reader Expr}
    (ho : ReadsExpr (level.tightness + 1) operand) (bound : List Token) {left : Expr}
    (h : Passes c left.written left.sites c₁) (hc : left.Canonical)
    (ht : level.tightness ≤ left.tightness) :
    Ends (chain level operand bound left) c₁
      (fun e c₂ => Passes c e.written e.sites c₂ ∧ e.Canonical ∧ level.tightness ≤ e.tightness)
      (Fails c) := by
  induction bound generalizing left c₁ with
  | nil => exact ⟨h, hc, ht⟩
  | cons _ bound ih =>
    refine h.accept (by cases level <;> decide) (fun _ => ⟨h, hc, ht⟩) fun op c₂ h₂ _ hk => ?_
    apply h₂.step ho
    intro right c₃ h₃ hr
    have hj : level.Joins left op right := ⟨hk, ht, hr.2⟩
    refine ih (h₃.cast ?_ ?_) (Level.canonical_combine hc hr.1 hj)
      (Nat.le_of_eq (Level.tightness_combine hk).symm)
    · cases level <;> simp [Level.combine]
    · cases level <;> simp [Level.combine]

theorem reads_moreItems {α : Type} {item : Reader α} {write : α → List Terminal}
    {sites : α → List Site} {P : α → Prop} (tooMany : Fault)
    (hi : Reads item write sites fun a _ => P a) (bound : List Token) (count : Nat) :
    Reads (moreItems tooMany item bound count) (moreWritten write) (·.flatMap sites)
      fun xs _ => ∀ x ∈ xs, P x := by
  intro c
  induction bound generalizing c count with
  | nil => exact ⟨.refl c, by simp⟩
  | cons _ bound ih =>
    refine (Passes.refl c).accept (by decide) (fun _ => ⟨.refl c, by simp⟩) fun t c₁ h₁ _ hk => ?_
    have rest : ∀ c₂, Passes c [.fixed .comma] [] c₂ →
        Ends (do let x ← item; let xs ← moreItems tooMany item bound (count + 1); pure (x :: xs))
          c₂ (fun xs c' => Passes c (moreWritten write xs) (xs.flatMap sites) c' ∧ ∀ x ∈ xs, P x)
          (Fails c) := by
      intro c₂ h₂
      apply h₂.step hi
      intro x c₃ h₃ hx
      refine h₃.step (fun c => ih (count + 1) c) fun xs c₄ h₄ hxs => ?_
      exact ⟨h₄.cast (by simp [moreWritten]) (by simp), by simpa using ⟨hx, hxs⟩⟩
    have hcomma : Passes c [.fixed .comma] [] c₁ := h₁.fixed (by simpa using hk)
    by_cases hmax : maxArguments ≤ count
    · simp only [hmax, if_true]
      rw [ends_bind, ends_current]
      exact hcomma.report fun c₂ h₂ => rest c₂ (h₂ _)
    · simpa only [hmax, if_false] using rest c₁ hcomma

theorem reads_items {α : Type} {item : Reader α} {write : α → List Terminal}
    {sites : α → List Site} {P : α → Prop} (tooMany : Fault)
    (hi : Reads item write sites fun a _ => P a) :
    Reads (items tooMany item) (fun xs => separated (xs.map write)) (·.flatMap sites)
      fun xs _ => ∀ x ∈ xs, P x := by
  intro c
  unfold items
  rw [ends_bind, ends_check]
  by_cases hk : c.current.kind = .rightParen
  · simpa [hk, separated] using Passes.refl c
  · simp only [hk, decide_false]
    apply (Passes.refl c).step hi
    intro x c₁ h₁ hx
    rw [ends_bind, ends_ahead]
    apply h₁.step (reads_moreItems tooMany hi c₁.ahead 1)
    intro xs c₂ h₂ hxs
    exact ⟨h₂.cast (by simp [separated_cons]) (by simp), by simpa using ⟨hx, hxs⟩⟩

theorem ends_calls {argument : Reader Expr} (ha : ReadsAny argument) (bound : List Token)
    {callee : Expr} (h : Passes c callee.written callee.sites c₁) (hc : callee.Canonical)
    (ht : 8 ≤ callee.tightness) :
    Ends (calls argument bound callee) c₁
      (fun e c₂ => Passes c e.written e.sites c₂ ∧ e.Canonical ∧ 8 ≤ e.tightness) (Fails c) := by
  induction bound generalizing callee c₁ with
  | nil => exact ⟨h, hc, ht⟩
  | cons _ bound ih =>
    refine h.accept (by decide) (fun _ => ⟨h, hc, ht⟩) fun open_ c₂ h₂ _ hk => ?_
    have hopen := h₂.fixed (show open_.kind = .leftParen by simpa using hk)
    have harg : Reads argument Expr.written Expr.sites fun e _ => e.Canonical :=
      fun c => (ha c).imp (fun _ _ h => ⟨h.1, h.2.1⟩) fun _ _ h => h
    apply hopen.step (reads_items .tooManyArguments harg)
    intro arguments c₃ h₃ hargs
    apply h₃.expect_kept (by decide)
    intro paren c₄ h₄ hp
    refine ih (h₄.cast ?_ ?_) ⟨hc, ht, hp, Expr.allCanonical_iff.2 hargs⟩ (by simp [Expr.tightness])
    · simp [Expr.eachWritten_eq_map]
    · simp [Expr.allSites_eq_flatMap]

theorem reads_declarations {declaration : Reader Statement} (hd : ReadsDeclaration declaration)
    (bound : List Token) :
    Reads (declarations declaration bound) Statement.allWritten Statement.allSites
      fun ss _ => Statement.AllCanonical ss := by
  intro c
  induction bound generalizing c with
  | nil => exact ⟨.refl c, trivial⟩
  | cons t bound ih =>
    by_cases hk : c.current.kind = .rightBrace ∨ c.current.kind = .eof
    · have hok : declarations declaration (t :: bound) c = .ok [] c := by simp [declarations, hk]
      exact .of_ok hok ⟨.refl c, trivial⟩
    · simp only [Ends, declarations, hk, if_false]
      apply (Passes.refl c).step hd
      intro s c₁ h₁ hs
      apply h₁.step ih
      intro ss c₂ h₂ hss
      exact ⟨h₂.cast (by simp [Statement.allWritten]) (by simp [Statement.allSites]), hs, hss⟩

end

section
variable {c c₁ : Cursor} {expression : Reader Expr} {statement declaration : Reader Statement}

theorem reads_blockRest (hd : ReadsDeclaration declaration) :
    Reads (blockRest declaration) (fun ss => Statement.allWritten ss ++ [.fixed .rightBrace])
      Statement.allSites fun ss _ => Statement.AllCanonical ss := by
  intro c
  unfold blockRest
  rw [ends_bind, ends_ahead]
  apply (Passes.refl c).step (reads_declarations hd c.ahead)
  intro ss c₁ h₁ hss
  apply h₁.expect (by decide)
  intro _ c₂ h₂
  exact ⟨h₂.cast (by simp) (by simp), hss⟩

theorem reads_functionRest (hd : ReadsDeclaration declaration) :
    Reads (functionRest declaration) functionWritten (fun f => Statement.allSites f.2)
      fun f _ => (∀ name ∈ f.1, name.kind = .identifier) ∧ Statement.AllCanonical f.2 := by
  intro c
  have hname : Reads (expect .identifier .parameterName) (fun t => [.kept t]) (fun _ => [])
      fun t _ => t.kind = .identifier := by
    intro c
    rw [← bind_pure (expect _ _)]
    exact (Passes.refl c).expect_kept (by decide) fun t c₂ h₂ hk => ⟨h₂, hk⟩
  apply (Passes.refl c).step (reads_items .tooManyParameters hname)
  intro names c₁ h₁ hn
  apply h₁.expect (by decide)
  intro _ c₂ h₂
  apply h₂.expect (by decide)
  intro _ c₃ h₃
  apply h₃.step (reads_blockRest hd)
  intro body c₄ h₄ hb
  exact ⟨h₄.cast (by simp [functionWritten, writtenNames]) (by simp), hn, hb⟩

theorem ends_variableRest (he : ReadsAny expression) (h : Passes c [.fixed .var] [] c₁) :
    Ends (variableRest expression) c₁
      (fun s c₂ => Passes c s.written s.sites c₂ ∧ s.Canonical ∧ s.endsOpen = false) (Fails c) := by
  apply h.expect_kept (by decide)
  intro name c₂ h₂ hn
  refine h₂.accept (by decide) (fun _ => ?_) fun t c₃ h₃ _ hk => ?_
  · simp only [pure_bind]
    apply h₂.expect (by decide)
    intro _ c₄ h₄
    exact ⟨h₄.cast (by simp) (by simp), hn, rfl⟩
  · simp only [ends_bind, ends_map]
    have hequal := h₃.fixed (show t.kind = .equal by simpa using hk)
    refine (he c₃).imp (fun e c₄ h' => ?_) fun _ _ hf => hf.trans hequal.onward
    simp only [← ends_bind]
    apply (hequal.trans h'.1).expect (by decide)
    intro _ c₅ h₅
    exact ⟨h₅.cast (by simp) (by simp), ⟨hn, h'.2.1⟩, rfl⟩

theorem reads_expressionStatement (he : ReadsAny expression) :
    Reads (expressionStatement expression) Statement.written Statement.sites
      fun s _ => s.Canonical ∧ s.isDeclaration = false ∧ s.endsOpen = false := by
  intro c
  apply (Passes.refl c).step he
  intro e c₁ h₁ h
  apply h₁.expect (by decide)
  intro _ c₂ h₂
  exact ⟨h₂.cast (by simp) (by simp), h.1, rfl, rfl⟩

theorem reads_unlessNext (he : ReadsAny expression) (kind : Token.Kind) :
    Reads (unlessNext kind expression) (fun o => o.elim [] Expr.written)
      (fun o => o.elim [] Expr.sites) fun o _ => ∀ e, o = some e → e.Canonical := by
  intro c
  unfold unlessNext
  rw [ends_bind, ends_check]
  by_cases hk : c.current.kind = kind
  · simpa [hk] using Passes.refl c
  · simp only [hk, decide_false]
    apply (Passes.refl c).map he
    intro e c₁ h₁ h
    exact ⟨h₁, by simpa using h.1⟩

theorem ends_ifRest (he : ReadsAny expression) (hs : ReadsStatement statement)
    (h : Passes c [.fixed .if] [] c₁) :
    Ends (ifRest expression statement) c₁
      (fun s c₂ => Passes c s.written s.sites c₂ ∧ Complete s c₂) (Fails c) := by
  apply h.expect (by decide)
  intro _ c₂ h₂
  apply h₂.step he
  intro condition c₃ h₃ hc
  apply h₃.expect (by decide)
  intro _ c₄ h₄
  apply h₄.step hs
  intro thenBranch c₅ h₅ ht
  refine h₅.accept (by decide) (fun hk => ?_) fun t c₆ h₆ heq hk => ?_
  · refine ⟨h₅.cast ?_ ?_, ⟨hc.1, ht.1, ht.2.1⟩, rfl, fun _ => by simpa using hk⟩
    · simp
    · simp
  · have helse : t.kind = .else := by simpa using hk
    have hclosed : thenBranch.endsOpen = false := by
      by_contra hopen
      exact ht.2.2 (by simpa using hopen) (by rw [heq, helse])
    simp only [bind_map_left]
    apply (h₆.fixed helse).step hs
    intro elseBranch c₇ h₇ hb
    refine ⟨h₇.cast ?_ ?_, ⟨hc.1, ht.1, ht.2.1, hclosed, hb.1, hb.2.1⟩, rfl, hb.2.2⟩
    · simp
    · simp

theorem ends_returnRest {keyword : Token} (he : ReadsAny expression) (hk : keyword.kind = .return)
    (h : Passes c [.kept keyword] [] c₁) :
    Ends (returnRest expression keyword) c₁
      (fun s c₂ => Passes c s.written s.sites c₂ ∧ Complete s c₂) (Fails c) := by
  apply h.step (reads_unlessNext he .semicolon)
  intro value c₂ h₂ hv
  apply h₂.expect (by decide)
  intro _ c₃ h₃
  cases value with
  | none =>
    exact ⟨h₃.cast (by simp) (by simp), .of_closed hk rfl rfl⟩
  | some e =>
    have hc : (Statement.return keyword (some e)).Canonical := ⟨hk, hv e rfl⟩
    exact ⟨h₃.cast (by simp) (by simp), .of_closed hc rfl rfl⟩

theorem ends_printRest (he : ReadsAny expression) (h : Passes c [.fixed .print] [] c₁) :
    Ends (printRest expression) c₁
      (fun s c₂ => Passes c s.written s.sites c₂ ∧ Complete s c₂) (Fails c) := by
  apply h.step he
  intro value c₂ h₂ hv
  apply h₂.expect (by decide)
  intro _ c₃ h₃
  exact ⟨h₃.cast (by simp) (by simp), .of_closed hv.1 rfl rfl⟩

theorem ends_whileRest (he : ReadsAny expression) (hs : ReadsStatement statement)
    (h : Passes c [.fixed .while] [] c₁) :
    Ends (whileRest expression statement) c₁
      (fun s c₂ => Passes c s.written s.sites c₂ ∧ Complete s c₂) (Fails c) := by
  apply h.expect (by decide)
  intro _ c₂ h₂
  apply h₂.step he
  intro condition c₃ h₃ hc
  apply h₃.expect (by decide)
  intro _ c₄ h₄
  apply h₄.step hs
  intro body c₅ h₅ hb
  refine ⟨h₅.cast (by simp) (by simp), ?_, rfl, hb.2.2⟩
  exact ⟨hc.1, hb.1, hb.2.1⟩

theorem plain_of_quiet {t : Token} (h : Passes c [.kept t] [] c₁) (hk : t.kind ≠ .eof)
    (hq : Quiet c c₁) : Plain t := by
  obtain ⟨ts, hts⟩ := h.tokens hq
  have hplain := hq.plain
  rw [hts.rest] at hplain
  cases hts.spells with
  | cons ht _ =>
    rw [List.cons_append, PlainAhead, ht] at hplain
    exact (hplain.resolve_left hk).1

theorem complete_forTree {initializer : Option Statement} {condition increment : Option Expr}
    {body : Statement} {c : Cursor} (hi : ∀ s, initializer = some s → s.Canonical)
    (hc : ∀ e, condition = some e → e.Canonical) (hn : ∀ e, increment = some e → e.Canonical)
    (hb : Complete body c) : Complete (forTree initializer condition increment body) c := by
  have hcond : (condition.getD (.literal (.bool true))).Canonical := by
    cases condition with
    | none => trivial
    | some e => exact hc e rfl
  have hloop : Complete (forTree none condition increment body) c := by
    cases increment with
    | none => exact ⟨⟨hcond, hb.1, hb.2.1⟩, rfl, hb.2.2⟩
    | some e => exact .of_closed ⟨hcond, ⟨hb.1, hn e rfl, trivial⟩, rfl⟩ rfl rfl
  cases initializer with
  | none => exact hloop
  | some s => exact .of_closed ⟨hi s rfl, hloop.1, trivial⟩ rfl rfl

/-- The increment is read before the body and stands behind it. -/
theorem sites_forTree (initializer : Option Statement) (condition increment : Option Expr)
    (body : Statement) :
    (initializer.elim [] Statement.sites ++ condition.elim [] Expr.sites ++
      increment.elim [] Expr.sites ++ body.sites).Perm
      (forTree initializer condition increment body).sites := by
  have hloop : (condition.elim [] Expr.sites ++ (increment.elim [] Expr.sites ++ body.sites)).Perm
      (forTree none condition increment body).sites := by
    refine (List.Perm.append_left _ List.perm_append_comm).trans (.of_eq ?_)
    cases condition <;> cases increment <;>
      simp [forTree, Statement.allSites]
  cases initializer with
  | none => simpa using hloop
  | some s =>
    have h := hloop.append_left s.sites
    simpa [forTree, Statement.allSites] using h

theorem reads_forInitializer {first : Reader Expr} (hf : ReadsAny first) :
    Reads (forInitializer first) (fun o => o.elim [.fixed .semicolon] Statement.written)
      (fun o => o.elim [] Statement.sites) fun o _ => ∀ s, o = some s → s.Canonical := by
  intro c
  refine (Passes.refl c).accept (by decide) (fun _ => ?_) fun t c₁ h₁ _ hk => ?_
  · apply (Passes.refl c).map (reads_expressionStatement hf)
    intro s c₁ h₁ hs
    exact ⟨h₁, by simpa using hs.1⟩
  · by_cases hvar : t.kind = .var
    · simp only [hvar, if_true, ends_map]
      refine (ends_variableRest hf (h₁.fixed hvar)).imp (fun s c₂ h => ?_) fun _ _ hf => hf
      exact ⟨h.1, by simpa using h.2.1⟩
    · have hsemicolon : t.kind = .semicolon := by simpa [hvar] using hk
      simp only [hvar, if_false]
      exact ⟨h₁.fixed hsemicolon, by simp⟩

/-- A `for` statement is turned into a canonical tree, and keeps the uses in all its clauses. -/
theorem ends_forRest {first : Reader Expr} {t : Token} (hf : ReadsAny first)
    (he : ReadsAny expression) (hs : ReadsStatement statement) (hk : t.kind = .for)
    (h : Passes c [.kept t] [] c₁) :
    Ends (forRest first expression statement) c₁
      (fun s c₂ => Passes c s.written s.sites c₂ ∧ Complete s c₂) (Fails c) := by
  -- the clauses are followed from `c₁` on, as what counts of the keyword is only that it is passed
  have hrest : Ends (forRest first expression statement) c₁
      (fun s c₂ => (∃ xs, Passes c₁ xs s.sites c₂) ∧ Complete s c₂) (Fails c₁) := by
    apply (Passes.refl c₁).expect (by decide)
    intro _ c₂ h₂
    apply h₂.step (reads_forInitializer hf)
    intro initializer c₃ h₃ hi
    apply h₃.step (reads_unlessNext he .semicolon)
    intro condition c₄ h₄ hc
    apply h₄.expect (by decide)
    intro _ c₅ h₅
    apply h₅.step (reads_unlessNext he .rightParen)
    intro increment c₆ h₆ hn
    apply h₆.expect (by decide)
    intro _ c₇ h₇
    apply h₇.step hs
    intro body c₈ h₈ hb
    exact ⟨⟨_, h₈.perm (sites_forTree initializer condition increment body)⟩,
      complete_forTree hi hc hn hb⟩
  refine hrest.imp (fun s c₂ hend => ?_) fun _ _ hf => hf.trans h.onward
  obtain ⟨⟨xs, hx⟩, hc⟩ := hend
  have hq : ¬ Quiet c c₂ := fun hq =>
    (plain_of_quiet h (by simp [hk]) (Passes.quiet_left h.onward hx.onward hq)).notFor hk
  exact ⟨(h.trans hx).of_not_quiet hq, hc⟩

end

/-- Reads canonical expressions; a question mark behind a loose one would have been read as well. -/
def ReadsAssignment (act : Reader Expr) : Prop :=
  Reads act Expr.written Expr.sites fun e c =>
    e.Canonical ∧ (e.tightness = 0 → c.current.kind ≠ .question)

/-- What all readers of trees promise with this much room. -/
structure ReadsTrees (room : Nat) : Prop where
  expression : ReadsAny (expression room)
  assignment : ReadsAssignment (assignment room)
  operator : ∀ level : Level, ReadsExpr level.tightness (operator room level)
  unary : ReadsExpr 7 (unary room)
  call : ReadsExpr 8 (call room)
  primary : ReadsExpr 9 (primary room)
  declaration : ReadsDeclaration (declaration room)
  statement : ReadsStatement (statement room)

theorem reads_tooDeep {α : Type} (xs : α → List Terminal) (us : α → List Site)
    (P : α → Cursor → Prop) : Reads tooDeep xs us P := fun c => ⟨.refl c, by simp⟩

section
variable {room : Nat}

theorem reads_expression (h : ReadsTrees room) : ReadsAny (expression (room + 2)) := by
  intro c
  apply (Passes.refl c).step h.assignment
  intro condition c₁ h₁ hc
  refine h₁.accept (by decide) (fun hk => ?_) fun t c₂ h₂ heq hk => ?_
  · exact ⟨h₁, hc.1, by simpa using hk⟩
  · have hquestion : t.kind = .question := by simpa using hk
    have htight : 1 ≤ condition.tightness := by
      refine Nat.one_le_iff_ne_zero.2 fun h0 => hc.2 h0 ?_
      rw [heq, hquestion]
    apply (h₂.fixed hquestion).step h.expression
    intro thenBranch c₃ h₃ ht
    apply h₃.expect (by decide)
    intro _ c₄ h₄
    apply h₄.step h.expression
    intro elseBranch c₅ h₅ he
    refine ⟨h₅.cast ?_ ?_, ⟨hc.1, htight, ht.1, he.1⟩, he.2⟩
    · simp
    · simp

theorem reads_assignment (h : ReadsTrees room) : ReadsAssignment (assignment (room + 1)) := by
  intro c
  apply (Passes.refl c).step (h.operator .or)
  intro target c₁ h₁ ht
  have hloose : target.tightness ≠ 0 := Nat.one_le_iff_ne_zero.1 ht.2
  refine h₁.accept (by decide) (fun _ => ?_) fun equals c₂ h₂ _ hk => ?_
  · exact ⟨h₁, ht.1, fun h0 => absurd h0 hloose⟩
  · apply (h₂.fixed (show equals.kind = .equal by simpa using hk)).step h.expression
    intro value c₃ h₃ hv
    -- what was to be assigned is dropped, and with it its uses
    have hinvalid : Ends (do report equals .invalidAssignmentTarget; pure target) c₃
        (fun e c' => Passes c e.written e.sites c' ∧
          e.Canonical ∧ (e.tightness = 0 → c'.current.kind ≠ .question)) (Fails c) := by
      apply h₃.report
      intro c₄ h₄
      exact ⟨(h₄ _).sublist (by simp), ht.1, fun h0 => absurd h0 hloose⟩
    cases target with
    | access site name =>
      exact ⟨h₃.cast (by simp) (by simp), ⟨ht.1, hv.1⟩, fun _ => hv.2⟩
    | _ => exact hinvalid

/-- Operands of a tighter level, joined by the operators of a level. -/
theorem reads_chain {level : Level} {operand : Reader Expr}
    (ho : ReadsExpr (level.tightness + 1) operand) :
    ReadsExpr level.tightness (do let left ← operand; chain level operand (← ahead) left) := by
  intro c
  apply (Passes.refl c).step ho
  intro left c₁ h₁ hl
  rw [ends_bind, ends_ahead]
  exact ends_chain ho c₁.ahead h₁ hl.1 (Nat.le_of_succ_le hl.2)

theorem reads_operator (h : ReadsTrees room) (level : Level) :
    ReadsExpr level.tightness (operator (room + 2) level) := by
  cases level with
  | factor => exact reads_chain h.unary
  | or | and | equality | comparison | term => exact reads_chain (h.operator _)

theorem reads_unary (h : ReadsTrees room) : ReadsExpr 7 (unary (room + 1)) := by
  intro c
  refine (Passes.refl c).accept (by decide) (fun _ => ?_) fun sign c₁ h₁ _ hk => ?_
  · exact (h.call c).imp (fun e c' he => ⟨he.1, he.2.1, Nat.le_of_succ_le he.2.2⟩) fun _ _ hf => hf
  · apply h₁.map h.unary
    intro operand c₂ h₂ ho
    exact ⟨h₂.cast (by simp) (by simp), ⟨hk, ho⟩, Nat.le_refl _⟩

theorem reads_call (h : ReadsTrees room) (hp : ReadsExpr 9 (primary (room + 1))) :
    ReadsExpr 8 (call (room + 2)) := by
  intro c
  apply (Passes.refl c).step hp
  intro callee c₁ h₁ hc
  rw [ends_bind, ends_ahead]
  exact ends_calls h.expression c₁.ahead h₁ hc.1 (Nat.le_of_succ_le hc.2)

theorem reads_primary (he : ReadsAny (expression (room + 2)))
    (hd : ReadsDeclaration (declaration room)) : ReadsExpr 9 (primary (room + 3)) := by
  intro c
  refine (Passes.refl c).accept (by decide) (fun _ => fails_report _ _ _) fun t c₁ h₁ _ hk => ?_
  have hconstant {value : Literal} (hv : Quiet c c₁ → value.kind = t.kind)
      (hl : t.kind = .number ∨ t.kind = .string → t.literal = value) :
      Passes c [.constant value] [] c₁ := by
    apply h₁.last
    intro hq u hu
    subst hu
    exact ⟨(hv hq).symm, fun h => hl (by rwa [← hv hq])⟩
  have hplain := plain_of_quiet h₁
  simp only [primaryStarts, List.mem_cons, List.not_mem_nil, or_false] at hk
  rcases hk with hk | hk | hk | hk | hk | hk | hk | hk <;> simp only [hk]
  · exact ⟨hconstant (by simp [hk, Literal.kind]) (by simp [hk]), trivial, Nat.le_refl _⟩
  · exact ⟨hconstant (by simp [hk, Literal.kind]) (by simp [hk]), trivial, Nat.le_refl _⟩
  · exact ⟨hconstant (by simp [hk, Literal.kind]) (by simp [hk]), trivial, Nat.le_refl _⟩
  · refine ⟨hconstant (fun hq => ?_) fun _ => rfl, trivial, Nat.le_refl _⟩
    rw [(hplain (by simp [hk]) hq).number hk, hk]
  · refine ⟨hconstant (fun hq => ?_) fun _ => rfl, trivial, Nat.le_refl _⟩
    rw [(hplain (by simp [hk]) hq).string hk, hk]
  · simp only [ends_bind, ends_freshSite]
    exact ⟨h₁.trans (passes_freshSite c₁), hk, Nat.le_refl _⟩
  · apply h₁.expect (by decide)
    intro _ c₂ h₂
    apply h₂.step (reads_functionRest hd)
    intro f c₃ h₃ hf
    refine ⟨h₃.cast ?_ ?_, ⟨hk, hf⟩, Nat.le_refl _⟩
    · simp [functionWritten]
    · simp
  · apply (h₁.fixed hk).step he
    intro inner c₂ h₂ hi
    apply h₂.expect (by decide)
    intro _ c₃ h₃
    exact ⟨h₃.cast (by simp) (by simp), hi.1, Nat.le_refl _⟩

theorem declaration_add_four (c : Cursor) : declaration (room + 4) c =
    if c.current.kind = .fun ∧ c.second.kind = .identifier then (do
      let _ ← advance
      let name ← advance
      let _ ← expect .leftParen .parenAfterFunctionName
      let (parameters, body) ← functionRest (declaration room)
      pure (.function name parameters body) : Reader Statement) c
    else (do
      match ← accept [.var] with
      | some _ => variableRest (expression (room + 2))
      | none => statement (room + 3) : Reader Statement) c :=
  rfl

theorem reads_declaration (hd : ReadsDeclaration (declaration room))
    (he : ReadsAny (expression (room + 2))) (hs : ReadsStatement (statement (room + 3))) :
    ReadsDeclaration (declaration (room + 4)) := by
  intro c
  rw [Ends, declaration_add_four]
  by_cases hfun : c.current.kind = .fun ∧ c.second.kind = .identifier
  · simp only [hfun, and_self, if_true]
    have hend : c.atEnd = false := by simp [Cursor.atEnd, hfun.1]
    have hname : c.advance.current.kind = .identifier := by
      rw [← hfun.2]
      simp [Cursor.advance, hend, Cursor.current, Cursor.second]
    have h₀ : Passes c ([] ++ [.kept c.current]) [] c.advance :=
      passes_advance (by simp [hfun.1])
    have h₁ := h₀.fixed hfun.1
    have h₂ := h₁.trans (passes_advance (c := c.advance) (by simp [hname]))
    show Ends _ c _ _
    rw [ends_bind, ends_advance, ends_bind, ends_advance]
    apply h₂.expect (by decide)
    intro _ c₃ h₃
    apply h₃.step (reads_functionRest hd)
    intro f c₄ h₄ hf
    refine ⟨h₄.cast ?_ ?_, hname, hf⟩
    · simp [functionWritten]
    · simp
  · simp only [hfun, if_false]
    refine (Passes.refl c).accept (by decide) (fun _ => ?_) fun t c₁ h₁ _ hk => ?_
    · exact (hs c).imp (fun s c' h => ⟨h.1, h.2.1⟩) fun _ _ hf => hf
    · refine (ends_variableRest he (h₁.fixed (by simpa using hk))).imp (fun s c' h => ?_)
        fun _ _ hf => hf
      exact ⟨h.1, h.2.1⟩

theorem reads_statement (hf : ReadsAny (expression room)) (h : ReadsTrees (room + 1)) :
    ReadsStatement (statement (room + 3)) := by
  intro c
  refine (Passes.refl c).accept (by decide) (fun _ => ?_) fun t c₁ h₁ _ hk => ?_
  · refine (reads_expressionStatement h.expression c).imp (fun s c' hs => ?_) fun _ _ hf => hf
    exact ⟨hs.1, hs.2.1, hs.2.2.1, by simp [hs.2.2.2]⟩
  · simp only [statementStarts, List.mem_cons, List.not_mem_nil, or_false] at hk
    rcases hk with hk | hk | hk | hk | hk | hk <;> simp only [hk]
    · exact ends_forRest hf h.expression h.statement hk h₁
    · exact ends_ifRest h.expression h.statement (h₁.fixed hk)
    · exact ends_returnRest h.expression hk h₁
    · exact ends_printRest h.expression (h₁.fixed hk)
    · exact ends_whileRest h.expression h.statement (h₁.fixed hk)
    · apply (h₁.fixed hk).map (reads_blockRest h.declaration)
      intro ss c₂ h₂ hss
      exact ⟨h₂.cast (by simp) (by simp),
        .of_closed hss rfl rfl⟩

end

/-- Every reader of trees keeps its promise, with any room. -/
theorem readsTrees (room : Nat) : ReadsTrees room := by
  induction room using Nat.strongRecOn with
  | ind room ih =>
    constructor
    · match room, ih with
      | 0, _ | 1, _ => exact reads_tooDeep _ _ _
      | room + 2, ih => exact reads_expression (ih room (by omega))
    · match room, ih with
      | 0, _ => exact reads_tooDeep _ _ _
      | room + 1, ih => exact reads_assignment (ih room (by omega))
    · match room, ih with
      | 0, _ | 1, _ => exact fun _ => reads_tooDeep _ _ _
      | room + 2, ih => exact reads_operator (ih room (by omega))
    · match room, ih with
      | 0, _ => exact reads_tooDeep _ _ _
      | room + 1, ih => exact reads_unary (ih room (by omega))
    · match room, ih with
      | 0, _ | 1, _ => exact reads_tooDeep _ _ _
      | room + 2, ih => exact reads_call (ih room (by omega)) (ih (room + 1) (by omega)).primary
    · match room, ih with
      | 0, _ | 1, _ | 2, _ => exact reads_tooDeep _ _ _
      | room + 3, ih =>
        exact reads_primary (ih (room + 2) (by omega)).expression (ih room (by omega)).declaration
    · match room, ih with
      | 0, _ | 1, _ | 2, _ | 3, _ => exact reads_tooDeep _ _ _
      | room + 4, ih =>
        exact reads_declaration (ih room (by omega)).declaration
          (ih (room + 2) (by omega)).expression (ih (room + 3) (by omega)).statement
    · match room, ih with
      | 0, _ | 1, _ | 2, _ => exact reads_tooDeep _ _ _
      | room + 3, ih =>
        exact reads_statement (ih room (by omega)).expression (ih (room + 1) (by omega))

theorem skipFrom_hasEnd (previous : Token) {tokens : List Token} (h : HasEnd tokens) :
    ∃ rest, skipFrom previous tokens = some rest ∧ HasEnd rest := by
  induction tokens generalizing previous with
  | nil => exact absurd h not_hasEnd_nil
  | cons t tokens ih =>
    by_cases hstop : t.kind = .eof ∨ previous.kind = .semicolon ∨ startsStatement t.kind
    · exact ⟨t :: tokens, by rw [skipFrom, if_pos hstop], h⟩
    · obtain ⟨rest, hrest⟩ := ih t (h.tail fun hk => hstop (.inl hk))
      exact ⟨rest, by rw [skipFrom, if_neg hstop]; exact hrest.1, hrest.2⟩

/-- Recovery succeeds as long as an end token lies ahead, and does not pass it. -/
theorem recover_hasEnd {tokens : List Token} (h : HasEnd tokens) :
    ∃ rest, recover tokens = some rest ∧ HasEnd rest := by
  cases tokens with
  | nil => exact absurd h not_hasEnd_nil
  | cons t tokens =>
    by_cases hk : t.kind = .eof
    · exact ⟨t :: tokens, by rw [recover, if_pos hk], h⟩
    · rw [recover, if_neg hk]
      exact skipFrom_hasEnd t (h.tail hk)

theorem fails_afterStop {c c₁ : Cursor} {stop : Stop} (h : Fails c stop c₁) :
    Onward c (afterStop stop c₁) ∧ c.reports.length < (afterStop stop c₁).reports.length := by
  cases stop with
  | fault => exact ⟨h.onward, h.reported rfl⟩
  | tooDeep =>
    refine ⟨h.onward.trans (onward_report _ _ _), ?_⟩
    exact Nat.lt_of_le_of_lt h.onward.reports.length_le (by simp [afterStop, Cursor.report])

/-- A quiet step that returns a statement takes a token. -/
theorem length_lt_of_passes {s : Statement} {us : List Site} {c c₁ : Cursor}
    (h : Passes c s.written us c₁) (hq : Quiet c c₁) : c₁.rest.length < c.rest.length := by
  obtain ⟨ts, hts⟩ := h.tokens hq
  have hlen : s.written.length = ts.length := hts.spells.length_eq
  have hpos : 0 < s.written.length := List.length_pos_iff.2 s.written_ne_nil
  rw [hts.rest, List.length_append]
  omega

/-- Reading a program goes to the end token, whatever is wrong with it; quietly only if the rounds
suffice. -/
theorem programFrom_passes (room : Nat) (bound : List Token) (c : Cursor) (hend : HasEnd c.rest) :
    ∃ ss c', programFrom room bound c = some (ss, c') ∧
      Passes c (Statement.allWritten ss) (Statement.allSites ss) c' ∧ Statement.AllCanonical ss ∧
      (c.rest.length < bound.length → Quiet c c' → c'.atEnd = true) := by
  induction bound generalizing c with
  | nil => exact ⟨[], c, rfl, .refl c, trivial, by simp⟩
  | cons t bound ih =>
    cases hat : c.atEnd with
    | true => exact ⟨[], c, by simp [programFrom, hat], .refl c, trivial, fun _ _ => hat⟩
    | false =>
      have hread := (readsTrees room).declaration c
      cases hd : declaration room c with
      | ok s c₁ =>
        obtain ⟨hs, hcanonical⟩ := hread.ok hd
        obtain ⟨ss, c₂, hrun, hpass, hss, hquiet⟩ := ih c₁ (hs.onward.hasEnd hend)
        refine ⟨s :: ss, c₂, by simp [programFrom, hat, hd, hrun], hs.trans hpass,
          ⟨hcanonical, hss⟩, fun hlen hq => ?_⟩
        have hqs := Passes.quiet_left hs.onward hpass.onward hq
        have hshorter := length_lt_of_passes hs hqs
        rw [List.length_cons] at hlen
        exact hquiet (by omega) (hs.quiet_right hpass.onward hq)
      | error stop c₁ =>
        obtain ⟨honward, hreported⟩ := fails_afterStop (hread.error hd)
        obtain ⟨rest, hrest, hend'⟩ := recover_hasEnd (honward.hasEnd hend)
        obtain ⟨ss, c₂, hrun, hpass, hss, -⟩ := ih { afterStop stop c₁ with rest := rest } hend'
        have hskip : Passes c [] [] { afterStop stop c₁ with rest := rest } :=
          ⟨⟨honward.reports, fun _ => hend', honward.sites⟩, .nil honward.sites,
            fun hq => absurd hq.reports (Nat.ne_of_gt hreported)⟩
        have hmore := hpass.onward.reports.length_le
        refine ⟨ss, c₂, by simp [programFrom, hat, hd, hrest, hrun], hskip.trans hpass, hss,
          fun _ hq => absurd hq.reports (Nat.ne_of_gt (Nat.lt_of_lt_of_le hreported hmore))⟩

/-- Tokens with an end are read as canonical trees in any case, with a site of its own for every use
of a variable. -/
theorem program?_fresh (room : Nat) (site : Site) (tokens : List Token)
    (hend : ∃ t ∈ tokens, t.kind = .eof) :
    ∃ parsed, program? room site tokens = some parsed ∧ Statement.AllCanonical parsed.tree ∧
      FreshSites site (Statement.allSites parsed.tree) parsed.nextSite := by
  obtain ⟨last, hlast⟩ : ∃ last, tokens.getLast? = some last := by
    obtain ⟨t, ht, -⟩ := hend
    exact ⟨_, List.getLast?_eq_some_getLast (List.ne_nil_of_mem ht)⟩
  let c : Cursor := ⟨tokens, last, [], site⟩
  obtain ⟨ss, c', hrun, hpass, hss, -⟩ := programFrom_passes room c.ahead c hend
  refine ⟨⟨ss, c'.reports.reverse, c'.nextSite⟩, ?_, hss, hpass.fresh⟩
  simp only [program?, start?, hlast, Option.map_some, Option.bind_eq_bind, Option.bind_some]
  rw [hrun]
  rfl

/-- Tokens with an end are read as an expression in any case, with a site of its own for every use
of a variable; if there is none, something was reported. -/
theorem expression?_fresh (room : Nat) (site : Site) (tokens : List Token) (hend : HasEnd tokens) :
    ∃ parsed, expression? room site tokens = some parsed ∧
      FreshSites site (parsed.tree.elim [] Expr.sites) parsed.nextSite ∧
      (parsed.tree = none → parsed.reports ≠ []) := by
  obtain ⟨last, hlast⟩ : ∃ last, tokens.getLast? = some last := by
    obtain ⟨t, ht, -⟩ := hend
    exact ⟨_, List.getLast?_eq_some_getLast (List.ne_nil_of_mem ht)⟩
  let c : Cursor := ⟨tokens, last, [], site⟩
  have hends := (readsTrees room).expression c
  simp only [expression?, start?, hlast, Option.map_some, Option.bind_eq_bind, Option.bind_some]
  cases hread : expression room c with
  | ok e c₁ =>
    exact ⟨⟨some e, c₁.reports.reverse, c₁.nextSite⟩, rfl, (hends.ok hread).1.fresh, nofun⟩
  | error stop c₁ =>
    obtain ⟨honward, hmore⟩ := fails_afterStop (hends.error hread)
    obtain ⟨rest, hrest, -⟩ := recover_hasEnd (honward.hasEnd hend)
    refine ⟨⟨none, (afterStop stop c₁).reports.reverse, (afterStop stop c₁).nextSite⟩, ?_,
      .nil honward.sites, fun _ hnil => ?_⟩
    · cases stop with
      | fault =>
        simp only [if_true, hrest, Option.bind_some]
        rfl
      | tooDeep => rfl
    · rw [List.reverse_eq_nil_iff.1 hnil] at hmore
      cases hmore

/-- The tokens up to the first end token. -/
def beforeEnd (tokens : List Token) : List Token := tokens.takeWhile (·.kind ≠ .eof)

theorem plainAhead_of_beforeEnd {tokens : List Token} (hend : HasEnd tokens)
    (hplain : ∀ t ∈ beforeEnd tokens, Plain t) : PlainAhead tokens := by
  induction tokens with
  | nil => exact absurd hend not_hasEnd_nil
  | cons t tokens ih =>
    by_cases hk : t.kind = .eof
    · exact .inl hk
    · rw [beforeEnd, List.takeWhile_cons_of_pos (by simpa using hk)] at hplain
      refine .inr ⟨hplain t List.mem_cons_self, ih (hend.tail hk) ?_⟩
      exact fun v hv => hplain v (List.mem_cons_of_mem t hv)

theorem beforeEnd_append {ts rest : List Token} (hts : ∀ t ∈ ts, t.kind ≠ .eof)
    (hrest : beforeEnd rest = []) : beforeEnd (ts ++ rest) = ts := by
  rw [beforeEnd, List.takeWhile_append_of_pos (by simpa using hts)]
  rw [beforeEnd] at hrest
  rw [hrest, List.append_nil]

/-- A program that is read without a report is written as the tokens that it was read from, up to
the end token: none is left out, added or moved, and those that the tree keeps are where they were.
The tree is canonical in any case. -/
theorem program?_written (room : Nat) (site : Site) (tokens : List Token)
    (hend : ∃ t ∈ tokens, t.kind = .eof) (hplain : ∀ t ∈ beforeEnd tokens, Plain t) :
    ∃ parsed, program? room site tokens = some parsed ∧
      (∀ s ∈ parsed.tree, s.Canonical) ∧
      (parsed.reports = [] →
        (beforeEnd tokens).map Token.kind = (Statement.allWritten parsed.tree).map Terminal.kind ∧
        Spells (Statement.allWritten parsed.tree) (beforeEnd tokens)) := by
  obtain ⟨last, hlast⟩ : ∃ last, tokens.getLast? = some last := by
    obtain ⟨t, ht, -⟩ := hend
    exact ⟨_, List.getLast?_eq_some_getLast (List.ne_nil_of_mem ht)⟩
  let c : Cursor := ⟨tokens, last, [], site⟩
  obtain ⟨ss, c', hrun, hpass, hss, hatEnd⟩ := programFrom_passes room c.ahead c hend
  refine ⟨⟨ss, c'.reports.reverse, c'.nextSite⟩, ?_, Statement.allCanonical_iff.1 hss, ?_⟩
  · simp only [program?, start?, hlast, Option.map_some, Option.bind_eq_bind, Option.bind_some]
    rw [hrun]
    rfl
  · intro hreports
    have hq : Quiet c c' :=
      ⟨by simpa [c] using hreports, plainAhead_of_beforeEnd hend hplain⟩
    obtain ⟨ts, hts⟩ := hpass.tokens hq
    have hnil : beforeEnd c'.rest = [] := by
      have hat := hatEnd (by simp [c, Cursor.ahead]) hq
      have hk : c'.current.kind = .eof := by simpa [Cursor.atEnd] using hat
      rw [Cursor.rest_eq_cons hts.plain, beforeEnd, List.takeWhile_cons_of_neg (by simp [hk])]
    have heq : beforeEnd tokens = ts := by
      rw [show tokens = ts ++ c'.rest from hts.rest]
      exact beforeEnd_append hts.noEnd hnil
    rw [heq]
    exact ⟨hts.spells.kinds, hts.spells⟩

/-- The tokens of `x = -f("a") ? nil : 1;`, with another one behind the end. -/
def signedCall : List Token :=
  [⟨.identifier, "x", .nil, 1⟩, ⟨.equal, "=", .nil, 1⟩, ⟨.minus, "-", .nil, 1⟩,
   ⟨.identifier, "f", .nil, 1⟩, ⟨.leftParen, "(", .nil, 1⟩, ⟨.string, "a", .string "a", 1⟩,
   ⟨.rightParen, ")", .nil, 1⟩, ⟨.question, "?", .nil, 1⟩, ⟨.nil, "nil", .nil, 1⟩,
   ⟨.colon, ":", .nil, 1⟩, ⟨.number, "1", .number 1, 1⟩, ⟨.semicolon, ";", .nil, 1⟩,
   ⟨.eof, "", .nil, 1⟩, ⟨.for, "for", .nil, 1⟩]

theorem program?_written_signedCall :
    (∃ t ∈ signedCall, t.kind = .eof) ∧ (∀ t ∈ beforeEnd signedCall, Plain t) ∧
      ∃ parsed, program? 60 0 signedCall = some parsed ∧ parsed.reports = [] ∧
        Spells (Statement.allWritten parsed.tree) (beforeEnd signedCall) := by
  have hend : ∃ t ∈ signedCall, t.kind = .eof := by decide
  have hplain : ∀ t ∈ beforeEnd signedCall, Plain t := by
    intro t ht
    have ht' : t ∈ signedCall.take 12 := ht
    simp only [signedCall, List.take, List.mem_cons, List.not_mem_nil, or_false] at ht'
    constructor <;> rcases ht' with h | h | h | h | h | h | h | h | h | h | h | h <;>
      simp [h, Literal.kind]
  have hquiet : (program? 60 0 signedCall).map (·.reports) = some [] := rfl
  obtain ⟨parsed, hparsed, -, hwritten⟩ := program?_written 60 0 signedCall hend hplain
  have hreports : parsed.reports = [] := by simpa [hparsed] using hquiet
  exact ⟨hend, hplain, parsed, hparsed, hreports, (hwritten hreports).2⟩

end Lox.Grammar

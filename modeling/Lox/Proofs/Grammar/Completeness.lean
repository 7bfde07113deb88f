import Lox.Proofs.Grammar.Levels
import Lox.Proofs.Grammar.Soundness

/-!
# A canonical tree is read from what it writes

Every reader of the grammar reads the spellings of the canonical trees that it is for, with the room
that they need. The reports that this makes are those of arguments and parameters beyond the
greatest number.
-/
namespace Lox.Grammar

/-- What stands behind a statement must not be taken for its `else`. -/
def MayFollowStatement (s : Statement) (kind : Token.Kind) : Prop :=
  s.endsOpen = true → kind ≠ .else

def ParsesStatement (act : Reader Statement) (s : Statement) : Prop :=
  Parses act s.written (MayFollowStatement s) s.excess fun s' => s'.shape = s.shape

/-- An expression of any level is read as what it is, up to sites. -/
def ParsesAny (act : Reader Expr) (e : Expr) : Prop :=
  Parses act e.written (MayFollow 0) e.excess fun e' => e'.shape = e.shape

section
variable {expression : Reader Expr} {statement declaration : Reader Statement}

/-- Behind a statement of a list there is no `else` unless one stands behind the list. -/
theorem not_else_ahead {ss : List Statement} {xs : List Terminal} {kind : Token.Kind}
    (hc : ∀ s ∈ ss, s.Canonical) (hk : (xs.head?.map Terminal.kind).getD kind ≠ .else) :
    ((Statement.allWritten ss ++ xs).head?.map Terminal.kind).getD kind ≠ .else := by
  cases ss with
  | nil => exact hk
  | cons s ss =>
    obtain ⟨y, ys, hy, hne⟩ := s.head_written (hc s (by simp))
    simp only [Statement.allWritten, hy, List.cons_append, List.head?_cons]
    exact fun helse => hne (by simpa using .inl helse)

theorem succeeds_declarations {ss : List Statement} {c c₁ : Cursor} {xs : List Terminal}
    {t : Token} {bound rest : List Token} {m : Nat}
    (hd : ∀ s ∈ ss, s.Canonical ∧ ParsesStatement declaration s)
    (h : Faces c (Statement.allWritten ss ++ .fixed .rightBrace :: xs) (t :: rest) m c₁)
    (hb : c₁.rest.length ≤ bound.length) :
    Succeeds (declarations declaration bound) c₁ fun ss' c₂ =>
      ss'.map Statement.shape = ss.map Statement.shape ∧
        Faces c (.fixed .rightBrace :: xs) (t :: rest) (m + Statement.totalExcess ss) c₂ := by
  have hlen := h.length
  induction ss generalizing c₁ bound m with
  | nil =>
    cases bound with
    | nil =>
      simp only [List.length_append, List.length_cons, List.length_nil] at hlen hb
      omega
    | cons u bound =>
      have hok : declarations declaration (u :: bound) c₁ = .ok [] c₁ := by
        simp [declarations, show c₁.current.kind = .rightBrace from h.current_kind]
      exact .of_ok hok ⟨rfl, h⟩
  | cons s ss ih =>
    obtain ⟨hc, hs⟩ := hd s (by simp)
    obtain ⟨x, ys, hx, hk⟩ := s.head_written hc
    rw [Statement.allWritten, List.append_assoc] at h hlen
    rw [List.length_append, hx, List.length_cons] at hlen
    cases bound with
    | nil =>
      rw [List.length_nil] at hb
      omega
    | cons u bound =>
      rw [List.length_cons] at hb
      simp only [List.mem_cons, List.not_mem_nil, or_false, not_or] at hk
      have hkind : ¬(c₁.current.kind = .rightBrace ∨ c₁.current.kind = .eof) := by
        rw [hx] at h
        rw [h.current_kind]
        exact not_or.2 hk.2
      have hnext : MayFollowStatement s (((Statement.allWritten ss ++
          .fixed .rightBrace :: xs).head?.map Terminal.kind).getD t.kind) := by
        refine fun _ => not_else_ahead (fun s hs => (hd s (by simp [hs])).1) ?_
        show Token.Kind.rightBrace ≠ .else
        decide
      simp only [Succeeds, Ends, declarations, hkind, if_false]
      apply h.step hs hnext
      intro s' c₂ h₂ hs'
      have hlen₂ := h₂.length
      refine (ih (fun s hs => hd s (by simp [hs])) h₂ (by omega) hlen₂).bind fun ss' c₃ h₃ => ?_
      refine ⟨by simp [hs', h₃.1], h₃.2.cast ?_⟩
      rw [Statement.totalExcess, Nat.add_assoc]

theorem parses_blockRest {ss : List Statement}
    (hd : ∀ s ∈ ss, s.Canonical ∧ ParsesStatement declaration s) :
    Parses (blockRest declaration) (Statement.allWritten ss ++ [.fixed .rightBrace])
      (fun _ => True) (Statement.totalExcess ss)
      fun ss' => ss'.map Statement.shape = ss.map Statement.shape := by
  refine .of_faces fun c t rest _ h => ?_
  apply h.ahead
  intro bound hb
  apply (succeeds_declarations hd h (Nat.le_of_lt hb)).bind
  intro ss' c₁ h₁
  exact h₁.2.expect rfl (by decide) fun _ c₂ _ h₂ => ⟨h₁.1, h₂.cast (Nat.zero_add _)⟩

theorem parses_functionRest {names : List Token} {body : List Statement}
    (hnames : ∀ name ∈ names, name.kind = .identifier)
    (hd : ∀ s ∈ body, s.Canonical ∧ ParsesStatement declaration s) :
    Parses (functionRest declaration) (functionWritten (names, body)) (fun _ => True)
      (excessOf names.length + Statement.totalExcess body)
      fun f => f.1 = names ∧ f.2.map Statement.shape = body.map Statement.shape := by
  have hitems : Parses (items .tooManyParameters (expect .identifier .parameterName))
      (writtenNames names) (· = .rightParen) ((names.map fun _ => 0).sum + excessOf names.length)
      fun ts => ts.map id = names.map id := by
    refine parses_items (.inr rfl) names (fun name hn => ?_) fun name hn => ?_
    · refine .of_faces fun c t rest _ h => ?_
      rw [← bind_pure (expect _ _)]
      exact h.expect (hnames name hn) (by decide) fun u c₁ hu h₁ => ⟨hu, h₁⟩
    · exact ⟨_, _, rfl, by simp [Terminal.kind, hnames name hn]⟩
  refine .of_faces fun c t rest _ h => ?_
  simp only [functionWritten, List.append_assoc, List.cons_append] at h
  apply h.step hitems rfl
  intro names' c₁ h₁ hn
  apply h₁.expect rfl (by decide)
  intro _ c₂ _ h₂
  apply h₂.expect rfl (by decide)
  intro _ c₃ _ h₃
  apply h₃.last (parses_blockRest hd) trivial
  intro body' c₄ h₄ hb
  exact ⟨⟨by simpa using hn, hb⟩, h₄.cast (by simp)⟩

theorem parses_variableRest {name : Token} {initializer : Option Expr}
    (hc : (Statement.var name initializer).Canonical)
    (he : ∀ e ∈ initializer, ParsesAny expression e) :
    Parses (variableRest expression) (Statement.var name initializer).written.tail (fun _ => True)
      (Statement.var name initializer).excess
      fun s' => s'.shape = (Statement.var name initializer).shape := by
  refine .of_faces fun c t rest _ h => ?_
  cases initializer with
  | none =>
    apply h.expect hc (by decide)
    intro _ c₂ hu h₂
    obtain rfl := hu
    apply h₂.refuse (by decide)
    simp only [pure_bind]
    exact h₂.expect rfl (by decide) fun _ c₃ _ h₃ => ⟨rfl, h₃⟩
  | some e =>
    apply h.expect hc.1 (by decide)
    intro _ c₂ hu h₂
    obtain rfl := hu
    apply h₂.accept (by decide) (by decide)
    intro _ c₃ _ h₃
    simp only [bind_map_left]
    apply h₃.step (he e rfl) (show MayFollow 0 .semicolon by decide)
    intro e' c₄ h₄ hshape
    apply h₄.expect rfl (by decide)
    intro _ c₅ _ h₅
    exact ⟨by simp [Statement.shape, hshape], h₅.cast (Nat.zero_add _)⟩

theorem parses_expressionStatement {e : Expr} (he : ParsesAny expression e) :
    ParsesStatement (expressionStatement expression) (.expression e) := by
  refine .of_faces fun c t rest _ h => ?_
  apply h.step he (show MayFollow 0 .semicolon by decide)
  intro e' c₁ h₁ hshape
  apply h₁.expect rfl (by decide)
  intro _ c₂ _ h₂
  exact ⟨by simp [Statement.shape, hshape], h₂.cast (Nat.zero_add _)⟩

theorem parses_printRest {e : Expr} (he : ParsesAny expression e) :
    Parses (printRest expression) (e.written ++ [.fixed .semicolon]) (fun _ => True) e.excess
      fun s' => s'.shape = (Statement.print e).shape := by
  refine .of_faces fun c t rest _ h => ?_
  apply h.step he (show MayFollow 0 .semicolon by decide)
  intro e' c₁ h₁ hshape
  apply h₁.expect rfl (by decide)
  intro _ c₂ _ h₂
  exact ⟨by simp [Statement.shape, hshape], h₂.cast (Nat.zero_add _)⟩

theorem parses_returnRest {keyword : Token} {value : Option Expr}
    (hc : (Statement.return keyword value).Canonical)
    (he : ∀ e ∈ value, ParsesAny expression e) :
    Parses (returnRest expression keyword) (Statement.return keyword value).written.tail
      (fun _ => True) (Statement.return keyword value).excess
      fun s' => s'.shape = (Statement.return keyword value).shape := by
  refine .of_faces fun c t rest _ h => ?_
  cases value with
  | none =>
    rw [returnRest, unlessNext, bind_assoc]
    apply h.check
    exact h.expect rfl (by decide) fun _ c₂ _ h₂ => ⟨rfl, h₂⟩
  | some e =>
    have hsemicolon : Opens expressionStarts (e.written ++ [.fixed .semicolon]) :=
      (e.opens_both hc.2).1.append _
    obtain ⟨x, xs, hx, hmem, -⟩ := hsemicolon
    have hk : x.kind ≠ .semicolon := fun hk => absurd (hk ▸ hmem) (by decide)
    rw [returnRest, unlessNext, bind_assoc]
    have hfirst : Faces c (x :: xs) (t :: rest) 0 c := hx ▸ h
    apply hfirst.check
    simp only [hk, decide_false, Bool.false_eq_true, if_false, bind_map_left]
    apply h.step (he e rfl) (show MayFollow 0 .semicolon by decide)
    intro e' c₂ h₂ hshape
    apply h₂.expect rfl (by decide)
    intro _ c₃ _ h₃
    exact ⟨by simp [Statement.shape, hshape], h₃.cast (Nat.zero_add _)⟩

theorem parses_whileRest {condition : Expr} {body : Statement}
    (he : ParsesAny expression condition) (hs : ParsesStatement statement body) :
    Parses (whileRest expression statement) (Statement.while condition body).written.tail
      (MayFollowStatement body) (condition.excess + body.excess)
      fun s' => s'.shape = (Statement.while condition body).shape := by
  refine .of_faces fun c t rest hf h => ?_
  simp only [Statement.written, List.cons_append, List.tail_cons] at h
  apply h.expect rfl (by decide)
  intro _ c₁ _ h₁
  apply h₁.step he (show MayFollow 0 .rightParen by decide)
  intro e' c₂ h₂ hshape
  apply h₂.expect rfl (by decide)
  intro _ c₃ _ h₃
  apply h₃.last hs hf
  intro s' c₄ h₄ hshape'
  exact ⟨by simp [Statement.shape, hshape, hshape'], h₄.cast (by simp)⟩

theorem parses_ifRest {condition : Expr} {thenBranch : Statement} {elseBranch : Option Statement}
    (hc : (Statement.ifElse condition thenBranch elseBranch).Canonical)
    (he : ParsesAny expression condition) (ht : ParsesStatement statement thenBranch)
    (hs : ∀ s ∈ elseBranch, ParsesStatement statement s) :
    Parses (ifRest expression statement)
      (Statement.ifElse condition thenBranch elseBranch).written.tail
      (MayFollowStatement (.ifElse condition thenBranch elseBranch))
      (Statement.ifElse condition thenBranch elseBranch).excess
      fun s' => s'.shape = (Statement.ifElse condition thenBranch elseBranch).shape := by
  refine .of_faces fun c t rest hf h => ?_
  cases elseBranch with
  | none =>
    simp only [Statement.written, List.cons_append, List.tail_cons] at h
    apply h.expect rfl (by decide)
    intro _ c₁ _ h₁
    apply h₁.step he (show MayFollow 0 .rightParen by decide)
    intro e' c₂ h₂ hshape
    apply h₂.expect rfl (by decide)
    intro _ c₃ _ h₃
    have helse : t.kind ≠ .else := hf rfl
    refine h₃.last ht (fun _ => helse) fun s' c₄ h₄ hshape' => ?_
    apply h₄.refuse_last (by simpa using helse)
    exact ⟨by simp [Statement.shape, hshape, hshape'], h₄.cast (by simp [Statement.excess])⟩
  | some elseBranch =>
    simp only [Statement.written, List.append_assoc, List.cons_append, List.tail_cons] at h
    apply h.expect rfl (by decide)
    intro _ c₁ _ h₁
    apply h₁.step he (show MayFollow 0 .rightParen by decide)
    intro e' c₂ h₂ hshape
    apply h₂.expect rfl (by decide)
    intro _ c₃ _ h₃
    have hclosed : thenBranch.endsOpen = false := hc.2.2.2.1
    refine h₃.step ht (fun hopen => by simp [hclosed] at hopen) fun s' c₄ h₄ hshape' => ?_
    apply h₄.accept (by decide) (by decide)
    intro _ c₅ _ h₅
    simp only [bind_map_left]
    apply h₅.last (hs elseBranch rfl) hf
    intro s'' c₆ h₆ hshape''
    refine ⟨by simp [Statement.shape, hshape, hshape', hshape''], h₆.cast ?_⟩
    simp [Statement.excess]

end

/-- An expression is read in all ways, with the room that it needs. -/
def Understood (e : Expr) : Prop := ∀ room, e.need ≤ room + 20 → Readable room e

theorem Understood.parsesAny {e : Expr} {room : Nat} (h : Understood e) (hr : e.need ≤ room) :
    ParsesAny (expression room) e := by
  have hle := e.twenty_le_need
  obtain ⟨r, rfl⟩ : ∃ r, room = r + 20 := ⟨room - 20, by omega⟩
  exact (h r hr).parses 0 (Nat.zero_le _)

/-- A statement is read with the room that it needs, also where no declaration may stand unless it
is one. -/
structure UnderstoodStatement (s : Statement) : Prop where
  declaration : ∀ room, s.need ≤ room → ParsesStatement (declaration room) s
  statement : s.isDeclaration = false → ∀ room, s.need ≤ room + 1 →
    ParsesStatement (statement room) s

/-- What is tightest of all is read as a primary expression. -/
theorem understood_primary {e : Expr} (hc : e.Canonical) (ht : e.tightness = 9)
    (h : ∀ room, e.need ≤ room + 20 → ParsesAt room 9 e) : Understood e := by
  intro room hr
  refine .of_own hc (ht ▸ h room hr) (fun level hl => ?_) fun h8 => ?_
  · have hle := level.tightness_le_six
    omega
  · omega

theorem understood_literal (value : Literal) : Understood (.literal value) := by
  refine understood_primary trivial rfl fun room _ => .of_faces fun c t rest _ h => ?_
  obtain ⟨x, xs, hx, hmem, -⟩ := value.opens
  cases hx
  apply h.accept hmem (by decide)
  intro u c₁ hu h₁
  obtain ⟨hk, hl⟩ := hu
  cases value with
  | nil =>
    simp only [show u.kind = .nil from hk]
    exact ⟨rfl, h₁⟩
  | bool b =>
    cases b with
    | false =>
      simp only [show u.kind = .false from hk]
      exact ⟨rfl, h₁⟩
    | true =>
      simp only [show u.kind = .true from hk]
      exact ⟨rfl, h₁⟩
  | number x =>
    simp only [show u.kind = .number from hk, hl (.inl rfl)]
    exact ⟨rfl, h₁⟩
  | string s =>
    simp only [show u.kind = .string from hk, hl (.inr rfl)]
    exact ⟨rfl, h₁⟩

theorem understood_access {site : Site} {name : Token} (hc : (Expr.access site name).Canonical) :
    Understood (.access site name) := by
  have hk : name.kind = .identifier := hc
  refine understood_primary hc rfl fun room _ => .of_faces fun c t rest _ h => ?_
  apply h.accept (by simp [Terminal.kind, hk, primaryStarts]) (by decide)
  intro u c₁ hu h₁
  obtain rfl : u = name := hu
  simp only [hk]
  exact h₁.freshSite fun site c₂ h₂ => ⟨rfl, h₂⟩

theorem understood_grouping {inner : Expr} (hc : inner.Canonical) (hi : Understood inner) :
    Understood (.grouping inner) := by
  refine understood_primary hc rfl fun room hr => .of_faces fun c t rest _ h => ?_
  rw [Expr.need] at hr
  apply h.accept (by decide) (by decide)
  intro u c₁ hu h₁
  simp only [show u.kind = .leftParen from hu]
  apply h₁.step (hi.parsesAny (by omega)) (show MayFollow 0 .rightParen by decide)
  intro e' c₂ h₂ hshape
  apply h₂.expect rfl (by decide)
  intro _ c₃ _ h₃
  exact ⟨by simp [Expr.shape, hshape], h₃.cast (Nat.zero_add _)⟩

theorem understood_function {keyword : Token} {names : List Token} {body : List Statement}
    (hc : (Expr.function keyword names body).Canonical)
    (hb : ∀ s ∈ body, UnderstoodStatement s) : Understood (.function keyword names body) := by
  obtain ⟨hk, hnames, hbody⟩ := hc
  refine understood_primary ⟨hk, hnames, hbody⟩ rfl fun room hr =>
    .of_faces fun c t rest _ h => ?_
  rw [Expr.need] at hr
  have hd (s : Statement) (hs : s ∈ body) :
      s.Canonical ∧ ParsesStatement (declaration room) s := by
    have hneed := Statement.need_le_needs hs
    exact ⟨Statement.allCanonical_iff.1 hbody s hs, (hb s hs).declaration room (by omega)⟩
  apply h.accept (by simp [Terminal.kind, hk, primaryStarts]) (by decide)
  intro u c₁ hu h₁
  obtain rfl : u = keyword := hu
  simp only [hk]
  apply h₁.expect rfl (by decide)
  intro _ c₂ _ h₂
  apply h₂.last (parses_functionRest hnames hd) trivial
  intro f c₃ h₃ hf
  exact ⟨by simp [Expr.shape, hf.1, hf.2, Statement.shapes_eq_map], h₃.cast (Nat.zero_add _)⟩

theorem understood_call {callee : Expr} {paren : Token} {arguments : List Expr}
    (hc : (Expr.call callee paren arguments).Canonical) (hcallee : Understood callee)
    (ha : ∀ e ∈ arguments, Understood e) : Understood (.call callee paren arguments) := by
  obtain ⟨hcc, ht, hp, hargs⟩ := hc
  intro room hr
  rw [Expr.need] at hr
  have hcalls : LeadsToCalls room (.call callee paren arguments) := by
    apply ((hcallee room (by omega)).calls ht).call hp
    intro e he
    have hneed := Expr.need_le_needs he
    have hce := Expr.allCanonical_iff.1 hargs e he
    exact ⟨(e.opens_both hce).1, (ha e he).parsesAny (by omega)⟩
  refine .of_own ⟨hcc, ht, hp, hargs⟩ hcalls.parsesAt (fun level hl => ?_) fun _ => hcalls
  have hle := level.tightness_le_six
  rw [hl, Expr.tightness] at hle
  omega

theorem understood_unary {operator : Token} {operand : Expr}
    (hc : (Expr.unary operator operand).Canonical) (ho : Understood operand) :
    Understood (.unary operator operand) := by
  obtain ⟨hk, hco, ht⟩ := hc
  intro room hr
  have hle := operand.twenty_le_need
  rw [Expr.need] at hr
  obtain ⟨r, rfl⟩ : ∃ r, room = r + 1 := ⟨room - 1, by omega⟩
  have hown : ParsesAt (r + 1) 7 (.unary operator operand) := by
    refine .of_faces fun c t rest hf h => ?_
    apply h.accept hk (by decide)
    intro u c₁ hu h₁
    obtain rfl : u = operator := hu
    simp only [← bind_pure_comp]
    apply h₁.last ((ho r (by omega)).parses 7 ht) hf
    intro e' c₂ h₂ hshape
    exact ⟨by simp [Expr.shape, hshape], h₂.cast (Nat.zero_add _)⟩
  refine .of_own ⟨hk, hco, ht⟩ hown (fun level hl => ?_) fun h8 => ?_
  · have hle := level.tightness_le_six
    rw [hl, Expr.tightness] at hle
    omega
  · rw [Expr.tightness] at h8
    omega

/-- An expression that is joined by an operator of a level is read by the loop of the level. -/
theorem understood_combine {level : Level} {left right : Expr} {operator : Token}
    (hl : left.Canonical) (hr : right.Canonical) (hj : level.Joins left operator right)
    (hul : Understood left) (hur : Understood right) :
    Understood (level.combine left operator right) := by
  intro room hroom
  rw [Level.need_combine] at hroom
  obtain ⟨hmem, htl, htr⟩ := hj
  have hchain : LeadsToChain room level (level.combine left operator right) :=
    .combine ((hul room (by omega)).chain level htl) ((hur room (by omega)).parses _ htr) hmem
  have ht : (level.combine left operator right).tightness = level.tightness :=
    Level.tightness_combine hmem
  refine .of_own (Level.canonical_combine hl hr ⟨hmem, htl, htr⟩) (ht ▸ hchain.parsesAt)
    (fun level' hlevel => ?_) fun h8 => ?_
  · rw [Level.eq_of_tightness_eq (hlevel.trans ht)]
    exact hchain
  · have hle := level.tightness_le_six
    omega

theorem understood_loose {e : Expr} (hc : e.Canonical) (ht : e.tightness = 0)
    (h : ∀ room, e.need ≤ room + 20 → ParsesAny (expression (room + 20)) e) : Understood e := by
  intro room hr
  refine .of_own hc (ht ▸ h room hr) (fun level hl => ?_) fun h8 => ?_
  · have hle := level.one_le_tightness
    omega
  · omega

theorem understood_ternary {condition thenBranch elseBranch : Expr}
    (hc : (Expr.ternary condition thenBranch elseBranch).Canonical) (huc : Understood condition)
    (hut : Understood thenBranch) (hue : Understood elseBranch) :
    Understood (.ternary condition thenBranch elseBranch) := by
  obtain ⟨hcc, htight, hct, hce⟩ := hc
  refine understood_loose ⟨hcc, htight, hct, hce⟩ rfl
    fun room hr => .of_faces fun c t rest hf h => ?_
  rw [Expr.need] at hr
  simp only [Expr.written, List.append_assoc, List.cons_append] at h
  refine h.step ((huc room (by omega)).parses 1 htight).assignment
    ⟨show MayFollow 1 .question by decide,
      show Token.Kind.question ≠ .equal by decide⟩ fun e₁ c₁ h₁ hs₁ => ?_
  apply h₁.accept (by decide) (by decide)
  intro _ c₂ _ h₂
  apply h₂.step (hut.parsesAny (by omega)) (show MayFollow 0 .colon by decide)
  intro e₂ c₃ h₃ hs₂
  apply h₃.expect rfl (by decide)
  intro _ c₄ _ h₄
  apply h₄.last (hue.parsesAny (by omega)) hf
  intro e₃ c₅ h₅ hs₃
  exact ⟨by simp [Expr.shape, hs₁, hs₂, hs₃], h₅.cast (by simp [Expr.excess])⟩

theorem understood_assign {site : Site} {name : Token} {value : Expr}
    (hc : (Expr.assign site name value).Canonical) (hv : Understood value) :
    Understood (.assign site name value) := by
  have hname : Understood (.access site name) := understood_access hc.1
  refine understood_loose hc rfl fun room hr => .of_faces fun c t rest hf h => ?_
  rw [Expr.need] at hr
  have hassignment : Parses (assignment (room + 18)) (Expr.assign site name value).written
      (MayFollow 0) value.excess fun e' => e'.shape = (Expr.assign site name value).shape := by
    refine .of_faces fun c t rest hf h => ?_
    have hfaces : Faces c ((Expr.access site name).written ++ .fixed .equal :: value.written)
        (t :: rest) 0 c := h
    refine hfaces.step ((hname room (Nat.le_add_left _ _)).parses 1 (show 1 ≤ 9 by omega))
      (show MayFollow 1 .equal by decide) fun target c₁ h₁ htarget => ?_
    obtain ⟨site', rfl⟩ : ∃ site', target = .access site' name := by
      cases target with
      | access site' name' =>
        cases htarget
        exact ⟨site', rfl⟩
      | _ => cases htarget
    apply h₁.accept (by decide) (by decide)
    intro _ c₂ _ h₂
    apply h₂.last (hv.parsesAny (by omega)) hf
    intro e' c₃ h₃ hs
    exact ⟨by simp [Expr.shape, hs], h₃.cast (by simp [Expr.excess])⟩
  apply h.last hassignment hf
  intro e' c₁ h₁ hs
  exact h₁.refuse_last (hf.not_mem (Nat.le_refl _) (by decide)) ⟨hs, h₁.cast (Nat.zero_add _)⟩

/-- What is no declaration is read as a statement where a declaration may stand. -/
theorem understood_of_statement {s : Statement} (hc : s.Canonical) (hd : s.isDeclaration = false)
    (h : ∀ room, s.need ≤ room + 4 → ParsesStatement (statement (room + 3)) s) :
    UnderstoodStatement s := by
  have hle := s.four_le_need
  refine ⟨fun room hr => ?_, fun _ room hr => ?_⟩
  · obtain ⟨r, rfl⟩ : ∃ r, room = r + 4 := ⟨room - 4, by omega⟩
    intro c ts t rest hs hrest hf
    obtain ⟨u, us, rfl, hu, hfun⟩ := (s.opens hc hd).spelled hs
    have hno : ¬(c.current.kind = .fun ∧ c.second.kind = .identifier) := by
      rintro ⟨hk, hsecond⟩
      rw [(Arrives.refl hrest).current] at hk
      obtain ⟨v, vs, rfl, hv⟩ := hfun hk
      simp [Cursor.second, hrest, hv] at hsecond
    have hvar : u.kind ∉ [Token.Kind.var] := by
      intro hk
      have hnot : Token.Kind.var ∉ statementStarts ++ expressionStarts := by decide
      exact hnot (List.mem_singleton.1 hk ▸ hu)
    simp only [Succeeds, Ends, declaration_add_four, if_neg hno]
    exact (Arrives.refl hrest).refuse hvar (h r hr c (u :: us) t rest hs hrest hf)
  · obtain ⟨r, rfl⟩ : ∃ r, room = r + 3 := ⟨room - 3, by omega⟩
    exact h r hr

theorem understood_expression {e : Expr} (hc : e.Canonical) (he : Understood e) :
    UnderstoodStatement (.expression e) := by
  refine understood_of_statement hc rfl fun room hr => ?_
  rw [Statement.need] at hr
  intro c ts t rest hs hrest hf
  obtain ⟨u, us, rfl, hu, -⟩ := ((e.opens_both hc).1.append _).spelled hs
  have hstart : u.kind ∉ statementStarts := by
    intro hk
    have hdisjoint : ∀ kind ∈ statementStarts, kind ∉ expressionStarts := by decide
    exact hdisjoint u.kind hk hu
  have hparses : ParsesStatement (expressionStatement (expression (room + 1))) (.expression e) :=
    parses_expressionStatement (he.parsesAny (by omega))
  exact (Arrives.refl hrest).refuse hstart (hparses c (u :: us) t rest hs hrest hf)

theorem understood_print {e : Expr} (hc : e.Canonical) (he : Understood e) :
    UnderstoodStatement (.print e) := by
  refine understood_of_statement hc rfl fun room hr => .of_faces fun c t rest _ h => ?_
  rw [Statement.need] at hr
  apply h.accept (by decide) (by decide)
  intro u c₁ hu h₁
  simp only [show u.kind = .print from hu]
  exact h₁.finish (parses_printRest (he.parsesAny (by omega))) trivial

theorem understood_return {keyword : Token} {value : Option Expr}
    (hc : (Statement.return keyword value).Canonical) (he : ∀ e ∈ value, Understood e) :
    UnderstoodStatement (.return keyword value) := by
  have hk : keyword.kind = .return := by
    cases value with
    | none => exact hc
    | some e => exact hc.1
  have hwritten : (Statement.return keyword value).written =
      .kept keyword :: (Statement.return keyword value).written.tail := by
    cases value <;> rfl
  refine understood_of_statement hc rfl fun room hr => .of_faces fun c t rest _ h => ?_
  have hvalue (e : Expr) (hmem : e ∈ value) : ParsesAny (expression (room + 1)) e := by
    obtain rfl := hmem
    rw [Statement.need] at hr
    exact (he e rfl).parsesAny (by omega)
  rw [hwritten] at h
  apply h.accept (by simp [Terminal.kind, hk, statementStarts]) (by decide)
  intro u c₁ hu h₁
  obtain rfl : u = keyword := hu
  simp only [hk]
  exact h₁.finish (parses_returnRest hc hvalue) trivial

theorem understood_while {condition : Expr} {body : Statement}
    (hc : (Statement.while condition body).Canonical) (he : Understood condition)
    (hs : UnderstoodStatement body) : UnderstoodStatement (.while condition body) := by
  refine understood_of_statement hc rfl fun room hr => .of_faces fun c t rest hf h => ?_
  rw [Statement.need] at hr
  apply h.accept (by decide) (by decide)
  intro u c₁ hu h₁
  simp only [show u.kind = .while from hu]
  have hbody := hs.statement hc.2.2 (room + 1) (by omega)
  exact h₁.finish (parses_whileRest (he.parsesAny (by omega)) hbody) hf

theorem understood_ifElse {condition : Expr} {thenBranch : Statement}
    {elseBranch : Option Statement}
    (hc : (Statement.ifElse condition thenBranch elseBranch).Canonical)
    (he : Understood condition) (ht : UnderstoodStatement thenBranch)
    (hs : ∀ s ∈ elseBranch, UnderstoodStatement s) :
    UnderstoodStatement (.ifElse condition thenBranch elseBranch) := by
  have hwritten : (Statement.ifElse condition thenBranch elseBranch).written =
      .fixed .if :: (Statement.ifElse condition thenBranch elseBranch).written.tail := by
    cases elseBranch <;> rfl
  refine understood_of_statement hc rfl fun room hr => .of_faces fun c t rest hf h => ?_
  have hneed : max (condition.need + 3) (thenBranch.need + 2) ≤ room + 4 := by
    cases elseBranch <;> rw [Statement.need] at hr <;> omega
  have hthen : thenBranch.isDeclaration = false := by
    cases elseBranch with
    | none => exact hc.2.2
    | some s => exact hc.2.2.1
  have helse (s : Statement) (hmem : s ∈ elseBranch) :
      ParsesStatement (statement (room + 1)) s := by
    obtain rfl := hmem
    rw [Statement.need] at hr
    exact (hs s rfl).statement hc.2.2.2.2.2 _ (by omega)
  rw [hwritten] at h
  apply h.accept (by decide) (by decide)
  intro u c₁ hu h₁
  simp only [show u.kind = .if from hu]
  have hbranch := ht.statement hthen (room + 1) (by omega)
  exact h₁.finish (parses_ifRest hc (he.parsesAny (by omega)) hbranch helse) hf

theorem understood_block {ss : List Statement} (hc : Statement.AllCanonical ss)
    (hs : ∀ s ∈ ss, UnderstoodStatement s) : UnderstoodStatement (.block ss) := by
  refine understood_of_statement hc rfl fun room hr => .of_faces fun c t rest hf h => ?_
  rw [Statement.need] at hr
  have hd (s : Statement) (hmem : s ∈ ss) :
      s.Canonical ∧ ParsesStatement (declaration (room + 1)) s := by
    have hneed := Statement.need_le_needs hmem
    exact ⟨Statement.allCanonical_iff.1 hc s hmem, (hs s hmem).declaration _ (by omega)⟩
  apply h.accept (by decide) (by decide)
  intro u c₁ hu h₁
  simp only [show u.kind = .leftBrace from hu, ← bind_pure_comp]
  apply h₁.last (parses_blockRest hd) trivial
  intro ss' c₂ h₂ hshape
  exact ⟨by simp [Statement.shape, Statement.shapes_eq_map, hshape], h₂.cast (Nat.zero_add _)⟩

theorem understood_var {name : Token} {initializer : Option Expr}
    (hc : (Statement.var name initializer).Canonical) (he : ∀ e ∈ initializer, Understood e) :
    UnderstoodStatement (.var name initializer) := by
  have hwritten : (Statement.var name initializer).written =
      .fixed .var :: (Statement.var name initializer).written.tail := by
    cases initializer <;> rfl
  refine ⟨fun room hr => ?_, nofun⟩
  have hle := (Statement.var name initializer).four_le_need
  obtain ⟨r, rfl⟩ : ∃ r, room = r + 4 := ⟨room - 4, by omega⟩
  have hvalue (e : Expr) (hmem : e ∈ initializer) : ParsesAny (expression (r + 2)) e := by
    obtain rfl := hmem
    rw [Statement.need] at hr
    exact (he e rfl).parsesAny (by omega)
  refine .of_faces fun c t rest _ h => ?_
  rw [hwritten] at h
  have hkind : c.current.kind = .var := h.current_kind
  simp only [Succeeds, Ends, declaration_add_four, hkind, reduceCtorEq, false_and, if_false]
  apply h.accept (by decide) (by decide)
  intro u c₁ hu h₁
  exact h₁.finish (parses_variableRest hc hvalue) trivial

theorem understood_functionStatement {name : Token} {names : List Token} {body : List Statement}
    (hc : (Statement.function name names body).Canonical)
    (hs : ∀ s ∈ body, UnderstoodStatement s) :
    UnderstoodStatement (.function name names body) := by
  obtain ⟨hname, hnames, hbody⟩ := hc
  refine ⟨fun room hr => ?_, nofun⟩
  rw [Statement.need] at hr
  obtain ⟨r, rfl⟩ : ∃ r, room = r + 4 := ⟨room - 4, by omega⟩
  have hd (s : Statement) (hmem : s ∈ body) :
      s.Canonical ∧ ParsesStatement (declaration r) s := by
    have hneed := Statement.need_le_needs hmem
    exact ⟨Statement.allCanonical_iff.1 hbody s hmem, (hs s hmem).declaration _ (by omega)⟩
  refine .of_faces fun c t rest _ h => ?_
  have hfun : c.current.kind = .fun ∧ c.second.kind = .identifier :=
    ⟨h.current_kind, h.second_kind.trans hname⟩
  simp only [Succeeds, Ends, declaration_add_four, hfun, and_self, if_true]
  apply h.advance (by decide)
  intro _ c₁ _ h₁
  apply h₁.advance (by simp [Terminal.kind, hname])
  intro u c₂ hu h₂
  obtain rfl : u = name := hu
  apply h₂.expect rfl (by decide)
  intro _ c₃ _ h₃
  apply h₃.last (parses_functionRest hnames hd) trivial
  intro f c₄ h₄ hf
  refine ⟨?_, h₄.cast (Nat.zero_add _)⟩
  simp [Statement.shape, hf.1, hf.2, Statement.shapes_eq_map]

mutual

theorem understood : (e : Expr) → e.Canonical → Understood e
  | .literal value, _ => understood_literal value
  | .grouping inner, hc => understood_grouping hc (understood inner hc)
  | .unary _ operand, hc => understood_unary hc (understood operand hc.2.1)
  | .binary left operator right, ⟨hl, hr, level, hlogical, hj⟩ => by
    have h := understood_combine hl hr hj (understood left hl) (understood right hr)
    cases level <;> first | exact h | cases hlogical
  | .logical left operator right, ⟨hl, hr, level, hlogical, hj⟩ => by
    have h := understood_combine hl hr hj (understood left hl) (understood right hr)
    cases level <;> first | exact h | cases hlogical
  | .ternary condition thenBranch elseBranch, hc =>
    understood_ternary hc (understood condition hc.1) (understood thenBranch hc.2.2.1)
      (understood elseBranch hc.2.2.2)
  | .access _ _, hc => understood_access hc
  | .assign _ _ value, hc => understood_assign hc (understood value hc.2)
  | .call callee _ arguments, hc =>
    understood_call hc (understood callee hc.1) (understood_arguments arguments hc.2.2.2)
  | .function _ _ body, hc => understood_function hc (understood_statements body hc.2.2)

theorem understood_arguments : (es : List Expr) → Expr.AllCanonical es → ∀ e ∈ es, Understood e
  | [], _ => by simp
  | e :: es, hc => List.forall_mem_cons.2 ⟨understood e hc.1, understood_arguments es hc.2⟩

theorem understood_statement : (s : Statement) → s.Canonical → UnderstoodStatement s
  | .block ss, hc => understood_block hc (understood_statements ss hc)
  | .expression value, hc => understood_expression hc (understood value hc)
  | .function _ _ body, hc => understood_functionStatement hc (understood_statements body hc.2.2)
  | .ifElse condition thenBranch none, hc =>
    understood_ifElse hc (understood condition hc.1) (understood_statement thenBranch hc.2.1)
      (by simp)
  | .ifElse condition thenBranch (some elseBranch), hc =>
    understood_ifElse hc (understood condition hc.1) (understood_statement thenBranch hc.2.1)
      (by simpa using understood_statement elseBranch hc.2.2.2.2.1)
  | .print value, hc => understood_print hc (understood value hc)
  | .return _ none, hc => understood_return hc (by simp)
  | .return _ (some value), hc => understood_return hc (by simpa using understood value hc.2)
  | .var _ none, hc => understood_var hc (by simp)
  | .var _ (some initializer), hc => understood_var hc (by simpa using understood initializer hc.2)
  | .while condition body, hc =>
    understood_while hc (understood condition hc.1) (understood_statement body hc.2.1)

theorem understood_statements : (ss : List Statement) → Statement.AllCanonical ss →
    ∀ s ∈ ss, UnderstoodStatement s
  | [], _ => by simp
  | s :: ss, hc =>
    List.forall_mem_cons.2 ⟨understood_statement s hc.1, understood_statements ss hc.2⟩

end

theorem programFrom_written {room : Nat} {ss : List Statement} {c c₁ : Cursor}
    {bound rest : List Token} {t : Token} {m : Nat} (hc : Statement.AllCanonical ss)
    (hr : ∀ s ∈ ss, s.need ≤ room) (h : Faces c (Statement.allWritten ss) (t :: rest) m c₁)
    (ht : t.kind = .eof) (hb : c₁.rest.length ≤ bound.length) :
    ∃ ss' c₂, programFrom room bound c₁ = some (ss', c₂) ∧
      ss'.map Statement.shape = ss.map Statement.shape ∧
      Arrives c (t :: rest) (m + Statement.totalExcess ss) c₂ := by
  have hlen := h.length
  induction ss generalizing c₁ bound m with
  | nil =>
    obtain ⟨ts, hnil, harr⟩ := h
    cases hnil
    cases bound with
    | nil => simp [harr.rest] at hb
    | cons u bound =>
      have hend : c₁.atEnd = true := by simp [Cursor.atEnd, harr.current, ht]
      exact ⟨[], c₁, by simp [programFrom, hend], rfl, harr⟩
  | cons s ss ih =>
    obtain ⟨x, ys, hx, hk⟩ := s.head_written hc.1
    rw [Statement.allWritten] at h hlen
    rw [List.length_append, hx, List.length_cons] at hlen
    cases bound with
    | nil =>
      rw [List.length_nil] at hb
      omega
    | cons u bound =>
      rw [List.length_cons] at hb
      simp only [List.mem_cons, List.not_mem_nil, or_false, not_or] at hk
      have hend : c₁.atEnd = false := by
        rw [hx] at h
        simp [Cursor.atEnd, h.current_kind, hk]
      have hnext : MayFollowStatement s
          (((Statement.allWritten ss ++ []).head?.map Terminal.kind).getD t.kind) := by
        refine fun _ => not_else_ahead (Statement.allCanonical_iff.1 hc.2) ?_
        simp [ht]
      rw [List.append_nil] at hnext
      have hread := (understood_statement s hc.1).declaration room (hr s (by simp))
      have hstep : Succeeds (declaration room >>= pure) c₁ fun s' c₂ => s'.shape = s.shape ∧
          Faces c (Statement.allWritten ss) (t :: rest) (m + s.excess) c₂ :=
        h.step hread hnext fun s' c₂ h₂ hs => ⟨hs, h₂⟩
      rw [bind_pure] at hstep
      obtain ⟨s', c₂, hok, hs, h₂⟩ := hstep.exists_ok
      have hlen₂ := h₂.length
      have hb₂ : c₂.rest.length ≤ bound.length := by omega
      obtain ⟨ss', c₃, hrun, hss, h₃⟩ := ih hc.2 (fun s hs => hr s (by simp [hs])) h₂ hb₂ hlen₂
      refine ⟨s' :: ss', c₃, by simp [programFrom, hend, hok, hrun], by simp [hs, hss], h₃.cast ?_⟩
      rw [Statement.totalExcess, Nat.add_assoc]

/-- The tokens of canonical statements are read as these statements, up to the sites of variables,
if their nesting leaves room. The only reports are those of the arguments and parameters beyond the
greatest number, one each. -/
theorem program?_of_written (room : Nat) (site : Site) (ss : List Statement) (tokens : List Token)
    (eof : Token) (hc : ∀ s ∈ ss, s.Canonical) (hr : ∀ s ∈ ss, s.need ≤ room)
    (hs : Spells (Statement.allWritten ss) tokens) (he : eof.kind = .eof) :
    ∃ parsed, program? room site (tokens ++ [eof]) = some parsed ∧
      parsed.tree.map Statement.shape = ss.map Statement.shape ∧
      parsed.reports.length = Statement.totalExcess ss ∧
      ∀ r ∈ parsed.reports, r.fault = .tooManyArguments ∨ r.fault = .tooManyParameters := by
  let c : Cursor := ⟨tokens ++ [eof], eof, [], site⟩
  have hfaces : Faces c (Statement.allWritten ss) [eof] 0 c := ⟨tokens, hs, .refl rfl⟩
  have hb : c.rest.length ≤ c.ahead.length := by simp [Cursor.ahead]
  obtain ⟨ss', c', hrun, hshape, harr⟩ :=
    programFrom_written (Statement.allCanonical_iff.2 hc) hr hfaces he hb
  obtain ⟨new, hnew, hsurplus⟩ := harr.reports
  have hreports : c'.reports = new := by simpa [c] using hnew
  refine ⟨⟨ss', c'.reports.reverse, c'.nextSite⟩, ?_, hshape, ?_, ?_⟩
  · have hlast : (tokens ++ [eof]).getLast? = some eof := by simp
    simp only [program?, start?, hlast, Option.map_some, Option.bind_eq_bind, Option.bind_some]
    rw [hrun]
    rfl
  · simp [hreports, hsurplus.length]
  · intro r hmem
    exact hsurplus.faults r (by simpa [hreports] using hmem)

/-- The tree of `if (a) f(b); else g = -c ? nil : (d);`. -/
def conditionalCall : List Statement :=
  let name (text : String) : Token := ⟨.identifier, text, .nil, 1⟩
  [.ifElse (.access 0 (name "a"))
    (.expression (.call (.access 1 (name "f")) ⟨.rightParen, ")", .nil, 1⟩ [.access 2 (name "b")]))
    (some (.expression (.assign 3 (name "g")
      (.ternary (.unary ⟨.minus, "-", .nil, 1⟩ (.access 4 (name "c"))) (.literal .nil)
        (.grouping (.access 5 (name "d")))))))]

/-- Tokens that spell a tree, with empty texts where the tree does not keep a token. -/
def tokensOf (xs : List Terminal) : List Token :=
  xs.map fun
    | .kept t => t
    | .constant v => ⟨v.kind, "", v, 1⟩
    | .fixed kind => ⟨kind, "", .nil, 1⟩

theorem spells_tokensOf (xs : List Terminal) : Spells xs (tokensOf xs) := by
  induction xs with
  | nil => exact .nil
  | cons x xs ih =>
    refine .cons ?_ ih
    cases x with
    | kept t => rfl
    | constant v => exact ⟨rfl, fun _ => rfl⟩
    | fixed kind => rfl

theorem program?_of_written_conditionalCall :
    (∀ s ∈ conditionalCall, s.Canonical) ∧ (∀ s ∈ conditionalCall, s.need ≤ 60) ∧
      Spells (Statement.allWritten conditionalCall)
        (tokensOf (Statement.allWritten conditionalCall)) ∧
      ∃ parsed, program? 60 0 (tokensOf (Statement.allWritten conditionalCall) ++
          [⟨.eof, "", .nil, 2⟩]) = some parsed ∧
        parsed.tree.map Statement.shape = conditionalCall.map Statement.shape ∧
        parsed.reports = [] := by
  have hc : ∀ s ∈ conditionalCall, s.Canonical := by
    simp [conditionalCall, Statement.Canonical, Expr.Canonical, Expr.AllCanonical, Expr.tightness,
      Statement.isDeclaration, Statement.endsOpen]
  have hr : ∀ s ∈ conditionalCall, s.need ≤ 60 := by
    simp [conditionalCall, Statement.need, Expr.need, Expr.needs]
  have hs := spells_tokensOf (Statement.allWritten conditionalCall)
  obtain ⟨parsed, hrun, hshape, hreports, -⟩ :=
    program?_of_written 60 0 conditionalCall _ ⟨.eof, "", .nil, 2⟩ hc hr hs rfl
  exact ⟨hc, hr, hs, parsed, hrun, hshape, List.length_eq_zero_iff.1 hreports⟩

end Lox.Grammar

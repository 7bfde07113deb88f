import Lox.Proofs.Grammar.Rounds

/-!
# Room enough for any nesting

Between two nested readers of the same level a token is taken. So a reader is never stopped because
trees are nested too deep if the room suffices for one nested construct at every token that is left.
`Shallow n` says that of a reader and up to `n` tokens; the end token, which is never taken, is one
of them.
-/
namespace Lox.Grammar

/-- In front of at most `n` tokens a reader is stopped by faults alone, and it does not go back. -/
def Shallow {α : Type} (n : Nat) (act : Reader α) : Prop :=
  ∀ c, HasEnd c.rest → c.rest.length ≤ n → Ends act c
    (fun _ c₁ => HasEnd c₁.rest ∧ c₁.rest.length ≤ c.rest.length) fun stop _ => stop = .fault

section
variable {α β : Type} {n m : Nat} {act : Reader α} {next : α → Reader β}

theorem Shallow.mono (h : Shallow n act) (hm : m ≤ n) : Shallow m act :=
  fun c hc hlen => h c hc (Nat.le_trans hlen hm)

theorem shallow_zero (act : Reader α) : Shallow 0 act := by
  intro c hc hlen
  rw [List.eq_nil_of_length_eq_zero (Nat.le_zero.1 hlen)] at hc
  exact absurd hc not_hasEnd_nil

theorem Shallow.bind (h : Shallow n act) (hn : ∀ a, Shallow n (next a)) :
    Shallow n (act >>= next) := by
  refine fun c hc hlen => (ends_bind ..).2 ((h c hc hlen).imp (fun a c₁ => ?_) fun _ _ hs => hs)
  rintro ⟨hc₁, hle⟩
  exact (hn a c₁ hc₁ (Nat.le_trans hle hlen)).imp
    (fun b c₂ hb => ⟨hb.1, Nat.le_trans hb.2 hle⟩) fun _ _ hs => hs

theorem shallow_pure (a : α) : Shallow n (pure a) :=
  fun _ hc _ => (ends_pure ..).2 ⟨hc, Nat.le_refl _⟩

theorem Shallow.map (h : Shallow n act) (f : α → β) : Shallow n (f <$> act) := by
  rw [map_eq_pure_bind]
  exact h.bind fun a => shallow_pure (f a)

theorem shallow_fail (fault : Fault) : Shallow n (fail fault : Reader α) :=
  fun _ _ _ => .of_error rfl rfl

theorem shallow_freshSite : Shallow n freshSite := fun _ hc _ => .of_ok rfl ⟨hc, Nat.le_refl _⟩

theorem shallow_report (t : Token) (fault : Fault) : Shallow n (report t fault) :=
  fun _ hc _ => .of_ok rfl ⟨hc, Nat.le_refl _⟩

theorem shallow_current : Shallow n current := fun _ hc _ => .of_ok rfl ⟨hc, Nat.le_refl _⟩

theorem shallow_check (kind : Token.Kind) : Shallow n (check kind) :=
  fun _ hc _ => .of_ok rfl ⟨hc, Nat.le_refl _⟩

theorem shallow_ahead : Shallow n ahead := fun _ hc _ => .of_ok rfl ⟨hc, Nat.le_refl _⟩

/-- Behind a token that may follow, one less is left. -/
theorem Shallow.accept {kinds : List Token.Kind} {k : Option Token → Reader β}
    (hnone : Shallow n (k none)) (hsome : ∀ t, t.kind ∈ kinds → Shallow m (k (some t)))
    (heof : .eof ∉ kinds) (hm : n ≤ m + 1) : Shallow n (Grammar.accept kinds >>= k) := by
  intro c hc hlen
  by_cases hmem : c.current.kind ∈ kinds
  · have hadvance := moves_advance hc fun he => heof (he ▸ hmem)
    have hlength := hadvance.length
    rw [List.length_singleton] at hlength
    rw [Ends.congr (accept_bind_of_mem hmem), ends_bind]
    exact .of_ok rfl ((hsome _ hmem c.advance (hadvance.hasEnd hc) (by omega)).imp
      (fun b c₂ hb => ⟨hb.1, by omega⟩) fun _ _ hs => hs)
  · exact (Ends.congr (accept_bind_of_not_mem hmem)).2 (hnone c hc hlen)

theorem shallow_expect {kind : Token.Kind} {what : Expected} (heof : kind ≠ .eof) :
    Shallow n (expect kind what) := by
  rw [expect_eq_accept]
  exact .accept (shallow_fail _) (fun t _ => shallow_pure t) (by simpa using heof.symm)
    (Nat.le_succ n)

/-- Behind a token that has to follow, one less is left. -/
theorem Shallow.expect {kind : Token.Kind} {what : Expected} {k : Token → Reader β}
    (h : ∀ t, Shallow n (k t)) (heof : kind ≠ .eof) :
    Shallow (n + 1) (Grammar.expect kind what >>= k) := by
  rw [expect_eq_accept, bind_assoc]
  exact .accept (fun _ _ _ => .of_error rfl rfl) (fun t _ => h t) (by simpa using heof.symm)
    (Nat.le_refl _)

end

section
variable {α : Type} {n : Nat} {item : Reader α} {expression operand : Reader Expr}
  {statement declaration : Reader Statement}

theorem shallow_chain {level : Level} (ho : Shallow n operand) (bound : List Token) (left : Expr) :
    Shallow n (chain level operand bound left) := by
  induction bound generalizing left with
  | nil => exact shallow_pure left
  | cons t bound ih =>
    exact .accept (shallow_pure left) (fun _ _ => ho.bind fun _ => ih _)
      (by cases level <;> decide) (Nat.le_succ n)

theorem shallow_moreItems {tooMany : Fault} (hi : Shallow n item) (bound : List Token)
    (count : Nat) : Shallow n (moreItems tooMany item bound count) := by
  induction bound generalizing count with
  | nil => exact shallow_pure []
  | cons t bound ih =>
    refine .accept (shallow_pure []) (fun _ _ => ?_) (by decide) (Nat.le_succ n)
    have hrest : Shallow n (do
        let x ← item
        let xs ← moreItems tooMany item bound (count + 1)
        pure (x :: xs)) :=
      hi.bind fun _ => (ih (count + 1)).bind fun _ => shallow_pure _
    by_cases hmax : maxArguments ≤ count
    · simp only [hmax, if_true]
      exact shallow_current.bind fun _ => (shallow_report _ _).bind fun _ => hrest
    · simpa only [hmax, if_false] using hrest

theorem shallow_items {tooMany : Fault} (hi : Shallow n item) :
    Shallow n (items tooMany item) := by
  refine (shallow_check _).bind fun closed => ?_
  cases closed with
  | true => exact shallow_pure []
  | false => exact hi.bind fun _ => shallow_ahead.bind fun _ =>
      (shallow_moreItems hi _ _).bind fun _ => shallow_pure _

theorem shallow_calls (ha : Shallow n operand) (bound : List Token) (callee : Expr) :
    Shallow (n + 1) (calls operand bound callee) := by
  induction bound generalizing callee with
  | nil => exact shallow_pure callee
  | cons t bound ih =>
    exact .accept (shallow_pure callee) (fun _ _ => (shallow_items ha).bind fun _ =>
      (shallow_expect (by decide)).bind fun _ => (ih _).mono (Nat.le_succ n)) (by decide)
      (Nat.le_refl _)

theorem shallow_declarations (hd : Shallow n declaration) (bound : List Token) :
    Shallow n (declarations declaration bound) := by
  induction bound with
  | nil => exact shallow_pure []
  | cons t bound ih =>
    have hround : Shallow n (do
        let first ← declaration
        let rest ← declarations declaration bound
        pure (first :: rest)) :=
      hd.bind fun _ => ih.bind fun _ => shallow_pure _
    intro c hc hlen
    by_cases hclosed : c.current.kind = .rightBrace ∨ c.current.kind = .eof
    · exact .of_ok (if_pos hclosed) ⟨hc, Nat.le_refl _⟩
    · have hmore : declarations declaration (t :: bound) c = _ := if_neg hclosed
      exact (Ends.congr hmore).2 (hround c hc hlen)

theorem shallow_blockRest (hd : Shallow n declaration) : Shallow n (blockRest declaration) :=
  shallow_ahead.bind fun _ => (shallow_declarations hd _).bind fun _ =>
    (shallow_expect (by decide)).bind fun _ => shallow_pure _

theorem shallow_functionRest (hd : Shallow n declaration) : Shallow n (functionRest declaration) :=
  (shallow_items (shallow_expect (by decide))).bind fun _ =>
    (shallow_expect (by decide)).bind fun _ => (shallow_expect (by decide)).bind fun _ =>
      (shallow_blockRest hd).bind fun _ => shallow_pure _

theorem shallow_variableRest (he : Shallow n expression) :
    Shallow n (variableRest expression) := by
  refine (shallow_expect (by decide)).bind fun name => .accept ?_ (fun _ _ => ?_) (by decide)
    (Nat.le_succ n)
  · exact (shallow_expect (by decide)).bind fun _ => shallow_pure _
  · exact (he.map some).bind fun _ => (shallow_expect (by decide)).bind fun _ => shallow_pure _

theorem shallow_expressionStatement (he : Shallow n expression) :
    Shallow n (expressionStatement expression) :=
  he.bind fun _ => (shallow_expect (by decide)).bind fun _ => shallow_pure _

theorem shallow_unlessNext {kind : Token.Kind} (he : Shallow n expression) :
    Shallow n (unlessNext kind expression) := by
  refine (shallow_check kind).bind fun missing => ?_
  cases missing with
  | true => exact shallow_pure none
  | false => exact he.map some

theorem shallow_forInitializer (he : Shallow n expression) :
    Shallow n (forInitializer expression) := by
  refine .accept ((shallow_expressionStatement he).map some) (fun t _ => ?_) (by decide)
    (Nat.le_succ n)
  by_cases hk : t.kind = .var
  · simpa only [hk, if_true] using (shallow_variableRest he).map some
  · simpa only [hk, if_false] using shallow_pure none

theorem shallow_forRest {first : Reader Expr} (hf : Shallow n first) (he : Shallow n expression)
    (hs : Shallow n statement) : Shallow n (forRest first expression statement) :=
  (shallow_expect (by decide)).bind fun _ => (shallow_forInitializer hf).bind fun _ =>
    (shallow_unlessNext he).bind fun _ => (shallow_expect (by decide)).bind fun _ =>
      (shallow_unlessNext he).bind fun _ => (shallow_expect (by decide)).bind fun _ =>
        hs.bind fun _ => shallow_pure _

theorem shallow_ifRest (he : Shallow n expression) (hs : Shallow n statement) :
    Shallow n (ifRest expression statement) := by
  refine (shallow_expect (by decide)).bind fun _ => he.bind fun _ =>
    (shallow_expect (by decide)).bind fun _ => hs.bind fun _ =>
      .accept (shallow_pure _) (fun _ _ => ?_) (by decide) (Nat.le_succ n)
  exact (hs.map some).bind fun _ => shallow_pure _

theorem shallow_returnRest (he : Shallow n expression) (keyword : Token) :
    Shallow n (returnRest expression keyword) :=
  (shallow_unlessNext he).bind fun _ => (shallow_expect (by decide)).bind fun _ => shallow_pure _

theorem shallow_printRest (he : Shallow n expression) : Shallow n (printRest expression) :=
  he.bind fun _ => (shallow_expect (by decide)).bind fun _ => shallow_pure _

theorem shallow_whileRest (he : Shallow n expression) (hs : Shallow n statement) :
    Shallow n (whileRest expression statement) :=
  (shallow_expect (by decide)).bind fun _ => he.bind fun _ =>
    (shallow_expect (by decide)).bind fun _ => hs.bind fun _ => shallow_pure _

end

/-- The room that suffices for each reader in front of at most `n` tokens. -/
structure ShallowTrees (n : Nat) : Prop where
  expression : ∀ room, 23 * n ≤ room + 3 → Shallow n (Grammar.expression room)
  unary : ∀ room, 23 * n ≤ room + 18 → Shallow n (unary room)
  declaration : ∀ room, 23 * n ≤ room → Shallow n (Grammar.declaration room)
  statement : ∀ room, 23 * n ≤ room + 1 → Shallow n (Grammar.statement room)

section
variable {n : Nat}

/-- A nested reader has the room that suffices behind the first token. -/
theorem shallow_primary (h : ShallowTrees n) (room : Nat) (hroom : 23 * (n + 1) ≤ room + 20) :
    Shallow (n + 1) (primary room) := by
  obtain ⟨r, rfl⟩ : ∃ r, room = r + 3 := ⟨room - 3, by omega⟩
  refine .accept (shallow_fail _) (fun t ht => ?_) (by decide) (Nat.le_refl _)
  simp only [primaryStarts, List.mem_cons, List.not_mem_nil, or_false] at ht
  rcases ht with hk | hk | hk | hk | hk | hk | hk | hk <;> simp only [hk]
  · exact shallow_pure _
  · exact shallow_pure _
  · exact shallow_pure _
  · exact shallow_pure _
  · exact shallow_pure _
  · exact shallow_freshSite.bind fun _ => shallow_pure _
  · exact (shallow_expect (by decide)).bind fun _ =>
      (shallow_functionRest (h.declaration r (by omega))).bind fun _ => shallow_pure _
  · exact (h.expression (r + 2) (by omega)).bind fun _ =>
      (shallow_expect (by decide)).bind fun _ => shallow_pure _

theorem shallow_call (h : ShallowTrees n) (room : Nat) (hroom : 23 * (n + 1) ≤ room + 19) :
    Shallow (n + 1) (call room) := by
  obtain ⟨r, rfl⟩ : ∃ r, room = r + 2 := ⟨room - 2, by omega⟩
  exact (shallow_primary h (r + 1) (by omega)).bind fun _ => shallow_ahead.bind fun _ =>
    shallow_calls (h.expression r (by omega)) _ _

theorem shallow_unary (h : ShallowTrees n) (room : Nat) (hroom : 23 * (n + 1) ≤ room + 18) :
    Shallow (n + 1) (unary room) := by
  obtain ⟨r, rfl⟩ : ∃ r, room = r + 1 := ⟨room - 1, by omega⟩
  exact .accept (shallow_call h r (by omega)) (fun sign _ => (h.unary r (by omega)).map _)
    (by decide) (Nat.le_refl _)

/-- Each level of operators takes two nested readers. -/
theorem shallow_or (h : ShallowTrees n) (room : Nat) (hroom : 23 * (n + 1) ≤ room + 6) :
    Shallow (n + 1) (operator room .or) := by
  have hchain {level : Level} {operand : Reader Expr} (ho : Shallow (n + 1) operand) :
      Shallow (n + 1) (do let left ← operand; chain level operand (← ahead) left) :=
    ho.bind fun _ => shallow_ahead.bind fun _ => shallow_chain ho _ _
  obtain ⟨r, rfl⟩ : ∃ r, room = r + 12 := ⟨room - 12, by omega⟩
  have hfactor : Shallow (n + 1) (operator (r + 2) .factor) := hchain (shallow_unary h r (by omega))
  have hterm : Shallow (n + 1) (operator (r + 4) .term) := hchain hfactor
  have hcomparison : Shallow (n + 1) (operator (r + 6) .comparison) := hchain hterm
  have hequality : Shallow (n + 1) (operator (r + 8) .equality) := hchain hcomparison
  have hand : Shallow (n + 1) (operator (r + 10) .and) := hchain hequality
  exact hchain hand

theorem shallow_assignment (h : ShallowTrees n) (room : Nat) (hroom : 23 * (n + 1) ≤ room + 5) :
    Shallow (n + 1) (assignment room) := by
  obtain ⟨r, rfl⟩ : ∃ r, room = r + 1 := ⟨room - 1, by omega⟩
  refine (shallow_or h r (by omega)).bind fun target =>
    .accept (shallow_pure target) (fun equals _ => (h.expression r (by omega)).bind fun value => ?_)
      (by decide) (Nat.le_refl _)
  cases target with
  | access site name => exact shallow_pure _
  | _ => exact (shallow_report equals .invalidAssignmentTarget).bind fun _ => shallow_pure _

theorem shallow_expression (h : ShallowTrees n) (room : Nat) (hroom : 23 * (n + 1) ≤ room + 3) :
    Shallow (n + 1) (expression room) := by
  obtain ⟨r, rfl⟩ : ∃ r, room = r + 2 := ⟨room - 2, by omega⟩
  have hbranch := h.expression r (by omega)
  exact (shallow_assignment h r (by omega)).bind fun _ => .accept (shallow_pure _)
    (fun _ _ => hbranch.bind fun _ => (shallow_expect (by decide)).bind fun _ =>
      hbranch.bind fun _ => shallow_pure _) (by decide) (Nat.le_refl _)

theorem shallow_statement (h : ShallowTrees n) (room : Nat) (hroom : 23 * (n + 1) ≤ room + 1) :
    Shallow (n + 1) (statement room) := by
  obtain ⟨r, rfl⟩ : ∃ r, room = r + 3 := ⟨room - 3, by omega⟩
  have he := h.expression (r + 1) (by omega)
  have hs := h.statement (r + 1) (by omega)
  refine .accept (shallow_expressionStatement (shallow_expression h (r + 1) (by omega)))
    (fun t ht => ?_) (by decide) (Nat.le_refl _)
  simp only [statementStarts, List.mem_cons, List.not_mem_nil, or_false] at ht
  rcases ht with hk | hk | hk | hk | hk | hk <;> simp only [hk]
  · exact shallow_forRest (h.expression r (by omega)) he hs
  · exact shallow_ifRest he hs
  · exact shallow_returnRest he t
  · exact shallow_printRest he
  · exact shallow_whileRest he hs
  · exact (shallow_blockRest (h.declaration (r + 1) (by omega))).map _

theorem shallow_declaration (h : ShallowTrees n) (room : Nat) (hroom : 23 * (n + 1) ≤ room) :
    Shallow (n + 1) (declaration room) := by
  obtain ⟨r, rfl⟩ : ∃ r, room = r + 4 := ⟨room - 4, by omega⟩
  have hfunction : Shallow (n + 1) (functionDeclaration (declaration r)) :=
    .expect (fun _ => (shallow_expect (by decide)).bind fun _ => (shallow_expect (by decide)).bind
      fun _ => (shallow_functionRest (h.declaration r (by omega))).bind fun _ => shallow_pure _)
      (by decide)
  have hother : Shallow (n + 1) (variableOrStatement r) :=
    .accept (shallow_statement h (r + 3) (by omega))
      (fun _ _ => shallow_variableRest (h.expression (r + 2) (by omega))) (by decide)
      (Nat.le_refl _)
  intro c hc hlen
  by_cases hfun : c.current.kind = .fun ∧ c.second.kind = .identifier
  · exact (Ends.congr (declaration_of_fun hfun)).2 (hfunction c hc hlen)
  · exact (Ends.congr (declaration_of_not_fun hfun)).2 (hother c hc hlen)

/-- Every reader is shallow with a room that grows with the tokens that are left. -/
theorem shallowTrees (n : Nat) : ShallowTrees n := by
  induction n with
  | zero => exact ⟨fun _ _ => shallow_zero _, fun _ _ => shallow_zero _, fun _ _ => shallow_zero _,
      fun _ _ => shallow_zero _⟩
  | succ n ih => exact ⟨shallow_expression ih, shallow_unary ih, shallow_declaration ih,
      shallow_statement ih⟩

end

/-- Reports of anything but nesting. -/
def Unnested (made : List Report) : Prop := ∀ r ∈ made, r.fault ≠ .tooMuchNesting

section
variable {room : Nat} {c c₁ : Cursor} {ss : List Statement} {made made' : List Report}

theorem Unnested.append (h : Unnested made) (h' : Unnested made') : Unnested (made ++ made') :=
  fun r hr => (List.mem_append.1 hr).elim (h r) (h' r)

theorem Minor.unnested (h : Minor made) : Unnested made := by
  intro r hr heq
  have hminor := h r hr
  rw [heq] at hminor
  cases hminor

theorem Rounds.unnested (h : Rounds room c ss c₁) (hc : HasEnd c.rest)
    (hroom : 23 * c.rest.length ≤ room) (hu : Unnested c.reports) : Unnested c₁.reports := by
  induction h with
  | none c => exact hu
  | @round c c₂ c₁ ss ss' hround _ ih =>
    obtain ⟨passed, _, hmoves, -⟩ := hround.moves hc
    have hlength := hmoves.length
    refine ih (hmoves.hasEnd hc) (by omega) ?_
    cases hround with
    | statement hat hd =>
      obtain ⟨_, made, hmoves, hminor, -⟩ := declaration_ok hc hd
      exact hmoves.reports ▸ hminor.unnested.append hu
    | @fault stop c₂ rest hat hd hrecover =>
      have hshallow := (shallowTrees c.rest.length).declaration room hroom c hc (Nat.le_refl _)
      have hstop := Ends.error hshallow hd
      obtain rfl : stop = .fault := hstop
      obtain ⟨_, made, hmoves, hstopped⟩ := declaration_error hc hd
      cases hstopped with
      | @fault what minor hminor =>
        have hmade : Unnested (⟨c₂.current, .expected what⟩ :: minor) :=
          List.forall_mem_cons.2 ⟨nofun, hminor.unnested⟩
        show Unnested c₂.reports
        exact hmoves.reports ▸ hmade.append hu

end

/-- The nesting of a program is never too deep for a room that grows with its tokens. -/
theorem program?_unnested {room : Nat} {site : Site} {tokens : List Token}
    {parsed : Parsed (List Statement)} (hend : HasEnd tokens) (hroom : 23 * tokens.length ≤ room)
    (hparsed : program? room site tokens = some parsed) :
    ∀ r ∈ parsed.reports, r.fault ≠ .tooMuchNesting := by
  obtain ⟨parsed', start, last, hparsed', hstart, hrounds, -, hreports, -⟩ :=
    exists_program? room site hend
  obtain rfl : parsed' = parsed := Option.some.inj (hparsed'.symm.trans hparsed)
  obtain ⟨start', hstart', hrest, hnone, -⟩ := exists_start hend site
  obtain rfl : start' = start := Option.some.inj (hstart'.symm.trans hstart)
  have hlast := hrounds.unnested (hrest ▸ hend) (hrest ▸ hroom) (by simp [Unnested, hnone])
  rw [hreports]
  exact fun r hr => hlast r (List.mem_reverse.1 hr)

end Lox.Grammar

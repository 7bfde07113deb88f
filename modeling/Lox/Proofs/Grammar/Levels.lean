import Lox.Proofs.Grammar.Items
import Lox.Proofs.Syntax.Shape
import Lox.Proofs.Syntax.Starts
import Mathlib.Data.Nat.Init

/-!
# The levels of expressions

The readers of expressions are numbered by the tightness that they ask for, from 0 for any
expression to 9 for primary ones. What one of them reads is read by all looser ones, if the token
behind it has no hold on it.

An operator of a level is read by a loop that has been through the operators before it, and so are
calls. It is therefore followed from one expression to the next how a reader gets into the middle of
its loop.
-/
namespace Lox.Grammar

/-- How tightly a token of this kind holds the expression before it, if it does. -/
def hold? (kind : Token.Kind) : Option Nat :=
  if kind ∈ [.question, .equal] then some 0
  else if kind = .leftParen then some 8
  else (Level.ofKind? kind).map (·.tightness)

/-- Whether an expression of this tightness is not held by a token of the kind behind it. -/
def MayFollow (k : Nat) (kind : Token.Kind) : Prop := ∀ held ∈ hold? kind, held < k

instance (k : Nat) (kind : Token.Kind) : Decidable (MayFollow k kind) :=
  inferInstanceAs (Decidable (∀ held ∈ hold? kind, held < k))

theorem MayFollow.mono {k k' : Nat} {kind : Token.Kind} (h : MayFollow k kind) (hk : k ≤ k') :
    MayFollow k' kind :=
  fun held hheld => Nat.lt_of_lt_of_le (h held hheld) hk

theorem hold?_operator {level : Level} {kind : Token.Kind} (h : kind ∈ level.operators) :
    hold? kind = some level.tightness := by
  have hlevel := Level.ofKind?_of_mem h
  have hloose : kind ∉ [Token.Kind.question, .equal] := by
    cases level <;> simp only [Level.operators, List.mem_cons, List.not_mem_nil, or_false] at h <;>
      rcases h with rfl | rfl | rfl | rfl <;> decide
  have hparen : kind ≠ .leftParen := by
    rintro rfl
    simp [show Level.ofKind? .leftParen = none by decide] at hlevel
  rw [hold?, if_neg hloose, if_neg hparen, hlevel]
  rfl

theorem mayFollow_operator {level : Level} {kind : Token.Kind} (h : kind ∈ level.operators) :
    MayFollow (level.tightness + 1) kind := by
  intro held hheld
  rw [hold?_operator h] at hheld
  cases hheld
  exact Nat.lt_succ_self _

theorem mayFollow_nine (kind : Token.Kind) : MayFollow 9 kind := by
  cases kind <;> decide

/-- A reader is not tempted to go on behind an expression. -/
theorem MayFollow.not_mem {k held : Nat} {kind : Token.Kind} {kinds : List Token.Kind}
    (h : MayFollow k kind) (hk : k ≤ held) (hkinds : ∀ kind ∈ kinds, hold? kind = some held) :
    kind ∉ kinds := by
  intro hmem
  have hlt := h held (hkinds kind hmem)
  omega

/-- The reader of expressions that are at least this tight, with the room that is left when reading
began with 20 more than `room`. -/
def readerAt (room : Nat) : Nat → Reader Expr
  | 0 => expression (room + 20)
  | 1 => operator (room + 17) .or
  | 2 => operator (room + 15) .and
  | 3 => operator (room + 13) .equality
  | 4 => operator (room + 11) .comparison
  | 5 => operator (room + 9) .term
  | 6 => operator (room + 7) .factor
  | 7 => unary (room + 5)
  | 8 => call (room + 4)
  | _ => primary (room + 3)

theorem readerAt_level (room : Nat) (level : Level) :
    readerAt room level.tightness = (do
      let left ← readerAt room (level.tightness + 1)
      chain level (readerAt room (level.tightness + 1)) (← ahead) left) := by
  cases level <;> rfl

/-- An expression is read at a tightness as what it is, up to sites. -/
def ParsesAt (room k : Nat) (e : Expr) : Prop :=
  Parses (readerAt room k) e.written (MayFollow k) e.excess fun e' => e'.shape = e.shape

/-- Reading an expression at a level leads into the loop of the level, with the expression as the
left operand of what follows. -/
def LeadsToChain (room : Nat) (level : Level) (e : Expr) : Prop :=
  ∀ (c c₁ : Cursor) (ts : List Token) (t : Token) (rest : List Token) (m : Nat)
    (Q : Expr → Cursor → Prop), Spells e.written ts → Arrives c (ts ++ t :: rest) m c₁ →
    MayFollow (level.tightness + 1) t.kind →
    (∀ e' c₂ bound, e'.shape = e.shape → Arrives c (t :: rest) (m + e.excess) c₂ →
      rest.length < bound.length →
      Succeeds (chain level (readerAt room (level.tightness + 1)) bound e') c₂ Q) →
    Succeeds (readerAt room level.tightness) c₁ Q

/-- Reading an expression leads into the loop of its calls. -/
def LeadsToCalls (room : Nat) (e : Expr) : Prop :=
  ∀ (c c₁ : Cursor) (ts : List Token) (t : Token) (rest : List Token) (m : Nat)
    (Q : Expr → Cursor → Prop), Spells e.written ts → Arrives c (ts ++ t :: rest) m c₁ →
    (∀ e' c₂ bound, e'.shape = e.shape → Arrives c (t :: rest) (m + e.excess) c₂ →
      rest.length < bound.length →
      Succeeds (calls (expression (room + 2)) bound e') c₂ Q) →
    Succeeds (readerAt room 8) c₁ Q

/-- All the ways in which an expression is read. -/
structure Readable (room : Nat) (e : Expr) : Prop where
  parses : ∀ k ≤ e.tightness, ParsesAt room k e
  chain : ∀ level : Level, level.tightness ≤ e.tightness → LeadsToChain room level e
  calls : 8 ≤ e.tightness → LeadsToCalls room e

section
variable {room : Nat} {level : Level} {e : Expr}

/-- A tighter expression is the first operand of a chain. -/
theorem ParsesAt.leadsToChain (h : ParsesAt room (level.tightness + 1) e) :
    LeadsToChain room level e := by
  intro c c₁ ts t rest m Q hs harr hf hn
  rw [readerAt_level]
  apply harr.step h hs hf
  intro e' c₂ h₂ he
  exact h₂.ahead fun bound hb => hn e' c₂ bound he h₂ (Nat.lt_of_succ_lt hb)

theorem LeadsToChain.parsesAt (h : LeadsToChain room level e) :
    ParsesAt room level.tightness e := by
  intro c ts t rest hs hrest hf
  apply h c c ts t rest 0 _ hs (.refl hrest) (hf.mono (Nat.le_succ _))
  intro e' c₂ bound he h₂ hb
  cases bound with
  | nil => simp at hb
  | cons _ bound =>
    refine h₂.refuse ?_ ⟨he, h₂.cast (Nat.zero_add _)⟩
    exact hf.not_mem (Nat.le_refl _) fun kind hk => hold?_operator hk

theorem Level.written_combine (level : Level) (left : Expr) (operator : Token) (right : Expr) :
    (level.combine left operator right).written =
      left.written ++ .kept operator :: right.written := by
  cases level <;> rfl

/-- A chain is extended by an operator and a tighter operand. -/
theorem LeadsToChain.combine {left right : Expr} {operator : Token}
    (hl : LeadsToChain room level left) (hr : ParsesAt room (level.tightness + 1) right)
    (hk : operator.kind ∈ level.operators) :
    LeadsToChain room level (level.combine left operator right) := by
  intro c c₁ ts t rest m Q hs harr hf hn
  rw [Level.written_combine] at hs
  obtain ⟨tl, tmore, rfl, hleft, hmore⟩ := Spells.split hs
  obtain ⟨u, tr, hu, hright, rfl⟩ := List.forall₂_cons_left_iff.1 hmore
  obtain rfl : u = operator := hu
  rw [List.append_assoc, List.cons_append] at harr
  apply hl c c₁ tl u (tr ++ t :: rest) m Q hleft harr (mayFollow_operator hk)
  intro l c₂ bound hl' h₂ hb
  cases bound with
  | nil => simp at hb
  | cons _ bound =>
    apply h₂.accept hk (by cases level <;> decide)
    intro c₃ h₃
    apply h₃.step hr hright hf
    intro r c₄ h₄ hr'
    refine hn _ c₄ bound ?_ (h₄.cast ?_) ?_
    · cases level <;> simp [Level.combine, Expr.shape, hl', hr']
    · cases level <;> simp [Level.combine, Expr.excess, Nat.add_assoc]
    · simp only [List.length_append, List.length_cons] at hb
      omega

/-- A primary expression is the callee of the calls behind it. -/
theorem ParsesAt.leadsToCalls (h : ParsesAt room 9 e) : LeadsToCalls room e := by
  intro c c₁ ts t rest m Q hs harr hn
  apply harr.step h hs (mayFollow_nine t.kind)
  intro e' c₂ h₂ he
  exact h₂.ahead fun bound hb => hn e' c₂ bound he h₂ (Nat.lt_of_succ_lt hb)

theorem LeadsToCalls.parsesAt (h : LeadsToCalls room e) : ParsesAt room 8 e := by
  intro c ts t rest hs hrest hf
  apply h c c ts t rest 0 _ hs (.refl hrest)
  intro e' c₂ bound he h₂ hb
  cases bound with
  | nil => simp at hb
  | cons _ bound =>
    refine h₂.refuse ?_ ⟨he, h₂.cast (Nat.zero_add _)⟩
    exact hf.not_mem (Nat.le_refl _) (by decide)

/-- A call is the callee of the calls behind it. -/
theorem LeadsToCalls.call {callee : Expr} {paren : Token} {arguments : List Expr}
    (hc : LeadsToCalls room callee) (hp : paren.kind = .rightParen)
    (ha : ∀ e ∈ arguments, Opens expressionStarts e.written ∧
      Parses (expression (room + 2)) e.written (MayFollow 0) e.excess
        fun e' => e'.shape = e.shape) :
    LeadsToCalls room (.call callee paren arguments) := by
  intro c c₁ ts t rest m Q hs harr hn
  have hwritten : (Expr.call callee paren arguments).written = callee.written ++
      .fixed .leftParen :: (separated (arguments.map Expr.written) ++ [.kept paren]) := by
    simp [Expr.written, Expr.eachWritten_eq_map]
  rw [hwritten] at hs
  obtain ⟨tc, tmore, rfl, hcallee, hmore⟩ := Spells.split hs
  obtain ⟨u, tbehind, hu, hbehind, rfl⟩ := List.forall₂_cons_left_iff.1 hmore
  obtain ⟨ta, tp, rfl, hargs, hparen⟩ := Spells.split hbehind
  obtain ⟨v, _, hv, hnil, rfl⟩ := List.forall₂_cons_left_iff.1 hparen
  obtain rfl : v = paren := hv
  cases hnil
  simp only [List.append_assoc, List.cons_append, List.nil_append] at harr
  apply hc c c₁ tc u _ m Q hcallee harr
  intro f c₂ bound hf h₂ hb
  cases bound with
  | nil => simp at hb
  | cons _ bound =>
    apply h₂.accept (by simp [hu.kind_eq, Terminal.kind]) (by decide)
    intro c₃ h₃
    have hitems : Parses (items .tooManyArguments (expression (room + 2)))
        (separated (arguments.map Expr.written)) (· = .rightParen)
        ((arguments.map Expr.excess).sum + excessOf arguments.length)
        fun es => es.map Expr.shape = arguments.map Expr.shape := by
      refine parses_items (.inl rfl) arguments (fun e he => ?_) fun e he => ?_
      · exact (ha e he).2.before (by decide)
      · obtain ⟨x, xs, hx, hmem, -⟩ := (ha e he).1
        refine ⟨x, xs, hx, fun hk => ?_⟩
        exact absurd (hk ▸ hmem) (by decide)
    apply h₃.step hitems hargs hp
    intro args c₄ h₄ hshape
    apply h₄.expect hp (by decide)
    intro c₅ h₅
    refine hn _ c₅ bound ?_ (h₅.cast ?_) ?_
    · simp [Expr.shape, hf, Expr.shapes_eq_map, hshape]
    · simp [Expr.excess, Expr.totalExcess_eq_sum, Nat.add_assoc]
    · simp only [List.length_append, List.length_cons] at hb
      omega

/-- What is no assignment is read as one, if no `=` follows. -/
theorem ParsesAt.assignment (h : ParsesAt room 1 e) :
    Parses (assignment (room + 18)) e.written (fun kind => MayFollow 1 kind ∧ kind ≠ .equal)
      e.excess fun e' => e'.shape = e.shape := by
  intro c ts t rest hs hrest hf
  apply (Arrives.refl hrest).step h hs hf.1
  intro e' c₁ h₁ he
  exact h₁.refuse (by simpa using hf.2) ⟨he, h₁.cast (Nat.zero_add _)⟩

theorem ParsesAt.of_operator (h : ParsesAt room 1 e) : ParsesAt room 0 e := by
  intro c ts t rest hs hrest hf
  have hequal : t.kind ∉ [Token.Kind.equal] := hf.not_mem (Nat.le_refl _) (by decide)
  have hmay : MayFollow 1 t.kind ∧ t.kind ≠ .equal :=
    ⟨hf.mono (Nat.zero_le _), by simpa using hequal⟩
  apply (h.assignment c ts t rest hs hrest hmay).bind
  intro e' c₁ h₁
  exact h₁.2.refuse (hf.not_mem (Nat.le_refl _) (by decide)) h₁

theorem ParsesAt.of_call (h : ParsesAt room 8 e) (ho : Opens primaryStarts e.written) :
    ParsesAt room 7 e := by
  intro c ts t rest hs hrest hf
  obtain ⟨u, us, rfl, hu, -⟩ := ho.spelled hs
  have harr := Arrives.refl hrest
  have hsign : u.kind ∉ [Token.Kind.bang, .minus] := by
    intro hk
    have hdisjoint : ∀ kind ∈ [Token.Kind.bang, .minus], kind ∉ primaryStarts := by decide
    exact hdisjoint u.kind hk hu
  exact harr.refuse hsign (h c (u :: us) t rest hs hrest (hf.mono (Nat.le_succ _)))

/-- An expression that is tighter than asked for is read all the same. -/
theorem ParsesAt.loosen {k : Nat} (h : ParsesAt room (k + 1) e) (hk : k + 1 ≤ e.tightness)
    (hc : e.Canonical) : ParsesAt room k e := by
  have hlevel (level : Level) (h : ParsesAt room (level.tightness + 1) e) :
      ParsesAt room level.tightness e :=
    h.leadsToChain.parsesAt
  match k, h with
  | 0, h => exact h.of_operator
  | 1, h => exact hlevel .or h
  | 2, h => exact hlevel .and h
  | 3, h => exact hlevel .equality h
  | 4, h => exact hlevel .comparison h
  | 5, h => exact hlevel .term h
  | 6, h => exact hlevel .factor h
  | 7, h => exact h.of_call ((e.opens_both hc).2 hk)
  | 8, h => exact h.leadsToCalls.parsesAt
  | k + 9, h =>
    have hle := Expr.tightness_le_nine hc
    omega

/-- What is read at its own tightness is read in all ways. -/
theorem Readable.of_own (hc : e.Canonical) (h : ParsesAt room e.tightness e)
    (hchain : ∀ level : Level, level.tightness = e.tightness → LeadsToChain room level e)
    (hcalls : e.tightness = 8 → LeadsToCalls room e) : Readable room e := by
  have hparses (k : Nat) (hk : k ≤ e.tightness) : ParsesAt room k e := by
    induction hk using Nat.decreasingInduction with
    | self => exact h
    | of_succ k hk ih => exact ih.loosen hk hc
  refine ⟨hparses, fun level hle => ?_, fun hle => ?_⟩
  · rcases Nat.lt_or_eq_of_le hle with hlt | heq
    · exact (hparses _ hlt).leadsToChain
    · exact hchain level heq
  · rcases Nat.lt_or_eq_of_le hle with hlt | heq
    · exact (hparses 9 hlt).leadsToCalls
    · exact hcalls heq.symm

end

end Lox.Grammar

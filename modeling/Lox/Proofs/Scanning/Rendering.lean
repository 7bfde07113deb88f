import Lox.Proofs.Scanning.Partition

/-!
# Scanning what was written out

Tokens are written out as their lexemes with a blank between each two. A blank ends every lexeme
and is part of strings only, which have quotes of their own. So the scanner finds the tokens again,
whatever stands side by side, and a token comes to stand below the line ends of the strings that
are written up to it.
-/
namespace Lox.Token

variable {text after : List Char} {line : Int} {t : Token} {ts : List Token}

/-- The lexemes of some tokens with a blank between each two. -/
def rendered (ts : List Token) : String := " ".intercalate (ts.map (·.lexeme))

/-- The number of line ends in the strings among some tokens. -/
def newlinesInStrings (ts : List Token) : Nat :=
  countNewlines ((ts.filter (·.kind = .string)).flatMap (·.lexeme.toList))

/-- The tokens on the lines that they end on when they are written out. -/
def placed (ts : List Token) : List Token :=
  ts.mapIdx fun i t => { t with line := 1 + newlinesInStrings (ts.take (i + 1)) }

/-- The tokens on the lines that they end on when they are written out from a line on. -/
def placedFrom (line : Int) : List Token → List Token
  | [] => []
  | t :: ts =>
    { t with line := line + newlinesInStrings [t] } ::
      placedFrom (line + newlinesInStrings [t]) ts

theorem newlinesInStrings_cons (t : Token) (ts : List Token) :
    newlinesInStrings (t :: ts) = newlinesInStrings [t] + newlinesInStrings ts := by
  by_cases h : t.kind = .string <;> simp [newlinesInStrings, countNewlines, h]

theorem placedFrom_eq_mapIdx (line : Int) (ts : List Token) : placedFrom line ts =
    ts.mapIdx fun i t => { t with line := line + newlinesInStrings (ts.take (i + 1)) } := by
  induction ts generalizing line with
  | nil => rfl
  | cons t ts ih =>
    have hlines (i : Nat) : line + newlinesInStrings [t] + newlinesInStrings (ts.take i) =
        line + newlinesInStrings (t :: ts.take i) := by
      rw [newlinesInStrings_cons t (ts.take i)]
      omega
    simp only [placedFrom, ih, List.mapIdx_cons, List.take_succ_cons, List.take_zero, hlines]

/-- No lexeme goes on over a blank or over the end of the text. -/
theorem not_extends (h : after.head?.all (· = ' ')) : ¬ Extends text after := by
  intro hext
  have hdigit : Number.isDigit ' ' = false := by decide
  have hpart : isWordPart ' ' = false := by decide
  cases hext with
  | operator | comment | fraction => simp at h
  | digit _ hc =>
    obtain rfl : _ = ' ' := by simpa using h
    exact absurd hc (by simp [hdigit])
  | word _ hc =>
    obtain rfl : _ = ' ' := by simpa using h
    exact absurd hc (by simp [hpart])

/-- A lexeme has the line ends that it has as a string. -/
theorem newlinesInStrings_singleton (h : IsLexeme t.kind t.lexeme.toList t.literal) :
    newlinesInStrings [t] = countNewlines t.lexeme.toList := by
  by_cases hk : t.kind = .string
  · simp [newlinesInStrings, hk]
  · have hnone : countNewlines t.lexeme.toList = 0 :=
      List.count_eq_zero_of_not_mem (h.newline_not_mem hk)
    rw [hnone]
    simp [newlinesInStrings, countNewlines, hk]

/-- A lexeme in front of a blank, or at the end of a text, is the token that it was written for. -/
theorem piecesFrom_lexeme (h : IsLexeme t.kind t.lexeme.toList t.literal)
    (hafter : after.head?.all (· = ' ')) : piecesFrom line 0 (t.lexeme.toList ++ after) =
      .token { t with line := line + newlinesInStrings [t] } ::
        piecesFrom (line + newlinesInStrings [t]) 0 after := by
  obtain ⟨c, text, htext, -⟩ := begins_of_isLexeme h
  have hwhole : t.lexeme.toList ++ after = c :: (text ++ after) := by rw [htext, List.cons_append]
  have hfirst : firstPiece line c (text ++ after) =
      .token { t with line := line + newlinesInStrings [t] } := by
    rw [firstPiece_of_isLexeme h (not_extends hafter) hwhole, newlinesInStrings_singleton h,
      ofChars, String.ofList_toList]
  have hpiece : (Piece.token { t with line := line + newlinesInStrings [t] }).text = c :: text :=
    htext
  have hpieces := piecesFrom_append_text hpiece hfirst
  rwa [Piece.text, ← newlinesInStrings_singleton h] at hpieces

theorem toList_rendered (ts : List Token) :
    (rendered ts).toList = [' '].intercalate (ts.map (·.lexeme.toList)) := by
  rw [rendered, String.toList_intercalate, List.map_map]
  rfl

theorem toList_rendered_cons (t u : Token) (ts : List Token) :
    (rendered (t :: u :: ts)).toList = t.lexeme.toList ++ ' ' :: (rendered (u :: ts)).toList := by
  simp [toList_rendered, List.intercalate_cons_cons]

/-- The pieces of tokens that are written out are these tokens, with the blanks between them. -/
theorem piecesFrom_rendered (h : ∀ t ∈ ts, IsLexeme t.kind t.lexeme.toList t.literal) :
    piecesFrom line 0 (rendered ts).toList =
      ((placedFrom line ts).map Piece.token).intersperse (.gap [' ']) := by
  induction ts generalizing line with
  | nil => rfl
  | cons t ts ih =>
    obtain ⟨ht, hts⟩ := List.forall_mem_cons.1 h
    cases ts with
    | nil =>
      have hone : (rendered [t]).toList = t.lexeme.toList ++ [] := by simp [toList_rendered]
      rw [hone, piecesFrom_lexeme ht rfl]
      rfl
    | cons u ts =>
      have hblank (line : Int) : piecesFrom line 0 (' ' :: (rendered (u :: ts)).toList) =
          .gap [' '] :: piecesFrom line 0 (rendered (u :: ts)).toList := by
        conv_rhs => rw [← Int.add_zero line]
        rfl
      rw [toList_rendered_cons, piecesFrom_lexeme ht rfl, hblank, ih hts]
      rfl

theorem filterMap_intersperse {α β : Type} {f : α → Option β} {a : α} (h : f a = none)
    (xs : List α) : (xs.intersperse a).filterMap f = xs.filterMap f := by
  induction xs with
  | nil => rfl
  | cons x xs ih =>
    cases xs with
    | nil => rfl
    | cons y ys => simp only [List.intersperse_cons_cons, List.filterMap_cons, h] at ih ⊢; rw [ih]

theorem countNewlines_rendered (h : ∀ t ∈ ts, IsLexeme t.kind t.lexeme.toList t.literal) :
    countNewlines (rendered ts).toList = newlinesInStrings ts := by
  induction ts with
  | nil => rfl
  | cons t ts ih =>
    obtain ⟨ht, hts⟩ := List.forall_mem_cons.1 h
    rw [newlinesInStrings_cons, newlinesInStrings_singleton ht, ← ih hts]
    cases ts with
    | nil => simp [toList_rendered, countNewlines]
    | cons u ts =>
      rw [toList_rendered_cons, countNewlines_append]
      rfl

/-- Tokens that are written out with blanks between them are scanned without a fault to the same
kinds, lexemes and literals in the same order, each on the line that it ends on. -/
theorem scan_rendered (h : ∀ t ∈ ts, IsLexeme t.kind t.lexeme.toList t.literal) :
    scan (rendered ts) =
      ⟨placed ts ++ [⟨.eof, "", .nil, 1 + newlinesInStrings ts⟩], []⟩ := by
  have hpieces : pieces (rendered ts).toList =
      ((placed ts).map Piece.token).intersperse (.gap [' ']) := by
    rw [pieces, piecesFrom_rendered h, placedFrom_eq_mapIdx, placed]
  have htokens : (pieces (rendered ts).toList).filterMap Piece.token? = placed ts := by
    rw [hpieces, filterMap_intersperse rfl, List.filterMap_map]
    exact List.filterMap_some
  have hfaults : (pieces (rendered ts).toList).filterMap Piece.fault? = [] := by
    rw [hpieces, filterMap_intersperse rfl, List.filterMap_map, List.filterMap_eq_nil_iff]
    exact fun _ _ => rfl
  rw [scan, htokens, hfaults, endToken, countNewlines_rendered h]

/-- Tokens that would run together, or begin a comment, without the blanks between them. -/
def neighbours : List Token :=
  [⟨.bang, "!", .nil, 0⟩, ⟨.equal, "=", .nil, 0⟩, ⟨.slash, "/", .nil, 0⟩, ⟨.slash, "/", .nil, 0⟩,
    ⟨.number, "1", .number (Number.ofDigits ['1'] []), 0⟩, ⟨.dot, ".", .nil, 0⟩,
    ⟨.or, "or", .nil, 0⟩, ⟨.identifier, "orchid", .nil, 0⟩,
    ⟨.string, "\"// \x00\n!\"", .string "// \x00\n!", 0⟩, ⟨.equalEqual, "==", .nil, 0⟩]

theorem scan_rendered_neighbours :
    (∀ t ∈ neighbours, IsLexeme t.kind t.lexeme.toList t.literal) ∧
      scan "! = / / 1 . or orchid \"// \x00\n!\" ==" =
        ⟨[⟨.bang, "!", .nil, 1⟩, ⟨.equal, "=", .nil, 1⟩, ⟨.slash, "/", .nil, 1⟩,
          ⟨.slash, "/", .nil, 1⟩, ⟨.number, "1", .number (Number.ofDigits ['1'] []), 1⟩,
          ⟨.dot, ".", .nil, 1⟩, ⟨.or, "or", .nil, 1⟩, ⟨.identifier, "orchid", .nil, 1⟩,
          ⟨.string, "\"// \x00\n!\"", .string "// \x00\n!", 2⟩, ⟨.equalEqual, "==", .nil, 2⟩,
          ⟨.eof, "", .nil, 2⟩], []⟩ := by
  have hlexemes : ∀ t ∈ neighbours, IsLexeme t.kind t.lexeme.toList t.literal := by
    have hword {word : String} {kind : Kind} (h : wordKind word = kind) : IsWordKind word kind :=
      isWordKind_iff.2 h
    simp only [neighbours, List.forall_mem_cons, List.not_mem_nil, false_imp_iff, implies_true,
      and_true]
    exact ⟨.plain rfl, .plain rfl, .slash, .slash, .whole (by decide) (List.all_eq_true.1 rfl),
      .punctuation rfl, .word rfl (List.all_eq_true.1 rfl) (hword rfl),
      .word rfl (List.all_eq_true.1 rfl) (hword rfl),
      @IsLexeme.string "// \x00\n!".toList (by decide), .extended rfl⟩
  exact ⟨hlexemes, scan_rendered hlexemes⟩

end Lox.Token

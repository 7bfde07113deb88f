import Lox.Proofs.Syntax.Relabelling
import Lox.Token.Scan
import Mathlib.Tactic.SplitIfs

/-!
# Texts one after the other

A scanner that comes to a line end has nothing begun but perhaps a string. So a text behind another
one, with a line end between them, is scanned as it is alone, further down by the lines before it;
only the text in front may not end inside a string.
-/
namespace Lox.Token

open Relabelling (down)

/-- The piece some lines further down. -/
def Piece.down (lines : Int) : Piece → Piece
  | .token t => .token (t.relabel (Relabelling.down lines))
  | .gap text => .gap text
  | .stray c line => .stray c (line + lines)
  | .unclosed text line => .unclosed text (line + lines)

@[simp] theorem Piece.text_down (lines : Int) (p : Piece) : (p.down lines).text = p.text := by
  cases p <;> rfl

theorem stringPiece_down (line lines : Int) (rest : List Char) :
    stringPiece (line + lines) rest = (stringPiece line rest).down lines := by
  have hline : line + lines + countNewlines (rest.takeWhile (· ≠ '"')) =
      line + countNewlines (rest.takeWhile (· ≠ '"')) + lines := Int.add_right_comm _ _ _
  simp only [stringPiece, hline]
  split <;> rfl

/-- The first piece depends on its line only for its own. -/
theorem firstPiece_down (line lines : Int) (c : Char) (rest : List Char) :
    firstPiece (line + lines) c rest = (firstPiece line c rest).down lines := by
  unfold firstPiece
  split
  · rfl
  · split <;> rfl
  · split_ifs
    · split <;> rfl
    · rfl
    · exact stringPiece_down line lines rest
    · rfl
    · rfl
    · rfl

theorem piecesFrom_down (line lines : Int) (skip : Nat) (cs : List Char) :
    piecesFrom (line + lines) skip cs = (piecesFrom line skip cs).map (Piece.down lines) := by
  induction cs generalizing line skip with
  | nil => cases skip <;> rfl
  | cons c rest ih =>
    cases skip with
    | succ skip => exact ih line skip
    | zero =>
      simp only [piecesFrom, firstPiece_down, Piece.text_down, List.map_cons]
      rw [Int.add_right_comm, ih]

/-- Whether a piece is a string that is not closed. -/
def Piece.isUnclosed : Piece → Bool
  | .unclosed _ _ => true
  | _ => false

theorem takeWhile_append_of_stop {p : Char → Bool} {x : Char} (hx : p x = false)
    (cs more : List Char) : (cs ++ x :: more).takeWhile p = cs.takeWhile p := by
  induction cs with
  | nil => simp [hx]
  | cons c cs ih => simp [List.takeWhile_cons, ih]

theorem dropWhile_append_of_stop {p : Char → Bool} {x : Char} (hx : p x = false)
    (cs more : List Char) : (cs ++ x :: more).dropWhile p = cs.dropWhile p ++ x :: more := by
  induction cs with
  | nil => simp [hx]
  | cons c cs ih =>
    rw [List.cons_append, List.dropWhile_cons, List.dropWhile_cons]
    split
    · exact ih
    · rfl

/-- What stops within a text stops there whatever follows the text. -/
theorem takeWhile_append_of_ne {p : Char → Bool} {cs : List Char} (h : cs.dropWhile p ≠ [])
    (more : List Char) : (cs ++ more).takeWhile p = cs.takeWhile p := by
  induction cs with
  | nil => exact absurd rfl h
  | cons c cs ih =>
    rw [List.dropWhile_cons] at h
    rw [List.cons_append, List.takeWhile_cons, List.takeWhile_cons]
    split at h
    · next hc => rw [if_pos hc, if_pos hc, ih h]
    · next hc => rw [if_neg hc, if_neg hc]

theorem dropWhile_append_of_ne {p : Char → Bool} {cs : List Char} (h : cs.dropWhile p ≠ [])
    (more : List Char) : (cs ++ more).dropWhile p = cs.dropWhile p ++ more := by
  rw [List.dropWhile_append, if_neg (by simpa using h)]

theorem stringPiece_append {line : Int} {rest : List Char} (more : List Char)
    (h : (stringPiece line rest).isUnclosed = false) :
    stringPiece line (rest ++ more) = stringPiece line rest := by
  unfold stringPiece at h ⊢
  dsimp only at h ⊢
  cases hdrop : rest.dropWhile (· ≠ '"') with
  | nil =>
    rw [hdrop] at h
    cases h
  | cons quote after =>
    have hne : rest.dropWhile (· ≠ '"') ≠ [] := by rw [hdrop]; nofun
    rw [takeWhile_append_of_ne hne, dropWhile_append_of_ne hne, hdrop]
    rfl

theorem numberPiece_append (line : Int) (cs more : List Char) :
    numberPiece line (cs ++ '\n' :: more) = numberPiece line cs := by
  have hstop : Number.isDigit '\n' = false := by decide
  have hfraction (cs : List Char) :
      fractionDigits (cs ++ '\n' :: more) = fractionDigits cs := by
    match cs with
    | [] => rfl
    | c :: cs =>
      by_cases hc : c = '.'
      · subst hc
        exact takeWhile_append_of_stop hstop cs more
      · simp [fractionDigits, hc]
  simp only [numberPiece, takeWhile_append_of_stop hstop, dropWhile_append_of_stop hstop, hfraction]

theorem wordPiece_append (line : Int) (cs more : List Char) :
    wordPiece line (cs ++ '\n' :: more) = wordPiece line cs := by
  have hstop : isWordPart '\n' = false := by decide
  simp only [wordPiece, takeWhile_append_of_stop hstop]

/-- A line end ends every piece but a string. -/
theorem firstPiece_append {line : Int} {c : Char} {rest : List Char} (more : List Char)
    (h : (firstPiece line c rest).isUnclosed = false) :
    firstPiece line c (rest ++ '\n' :: more) = firstPiece line c rest := by
  unfold firstPiece at h ⊢
  split
  · rfl
  · cases rest with
    | nil => rfl
    | cons c' rest => by_cases hc : c' = '=' <;> simp [hc]
  · next hp he =>
    simp only [hp, he] at h
    split_ifs at h ⊢ with hslash hblank hquote hdigit hword
    · cases rest with
      | nil => rfl
      | cons c' rest =>
        by_cases hc : c' = '/'
        · subst hc
          simp only [List.cons_append]
          rw [← List.cons_append, takeWhile_append_of_stop (by decide)]
        · simp [hc]
    · rfl
    · exact stringPiece_append _ h
    · exact numberPiece_append line (c :: rest) more
    · exact wordPiece_append line (c :: rest) more
    · rfl

theorem toList_ofChars (kind : Kind) (text : List Char) (literal : Literal) (line : Int) :
    (ofChars kind text literal line).lexeme.toList = text := String.toList_ofList

theorem text_stringPiece (line : Int) (rest : List Char) :
    (stringPiece line rest).text <+: '"' :: rest := by
  have hsplit := List.takeWhile_append_dropWhile (p := (· ≠ '"')) (l := rest)
  unfold stringPiece
  dsimp only
  cases hdrop : rest.dropWhile (· ≠ '"') with
  | nil => exact (List.prefix_cons_inj _).2 (List.takeWhile_prefix _)
  | cons quote after =>
    have hne : rest.dropWhile (· ≠ '"') ≠ [] := by rw [hdrop]; nofun
    have hquote : quote = '"' := by
      have hhead := List.head_dropWhile_not (p := (· ≠ '"')) hne
      simp only [hdrop, List.head_cons] at hhead
      simpa using hhead
    rw [hdrop, hquote] at hsplit
    rw [Piece.text, toList_ofChars]
    exact ⟨after, by simpa using congrArg ('"' :: ·) hsplit⟩

theorem text_numberPiece (line : Int) (cs : List Char) :
    (numberPiece line cs).text <+: cs := by
  have hsplit := List.takeWhile_append_dropWhile (p := Number.isDigit) (l := cs)
  unfold numberPiece
  rw [Piece.text, toList_ofChars]
  match hdrop : cs.dropWhile Number.isDigit with
  | [] => exact List.takeWhile_prefix _
  | c :: after =>
    by_cases hc : c = '.'
    · subst hc
      split
      · exact List.takeWhile_prefix _
      · have hfraction : cs.takeWhile Number.isDigit ++ '.' :: after.takeWhile Number.isDigit <+:
            cs.takeWhile Number.isDigit ++ '.' :: after :=
          (List.prefix_append_right_inj _).2 <| (List.prefix_cons_inj _).2 <|
            List.takeWhile_prefix _
        exact hfraction.trans ⟨[], by rw [List.append_nil, ← hdrop, hsplit]⟩
    · have hnone : fractionDigits (c :: after) = [] := by simp [fractionDigits, hc]
      rw [hnone]
      exact List.takeWhile_prefix _

/-- The first piece stands at the beginning of its text. -/
theorem text_firstPiece (line : Int) (c : Char) (rest : List Char) :
    (firstPiece line c rest).text <+: c :: rest := by
  have hone : [c] <+: c :: rest := ⟨rest, rfl⟩
  unfold firstPiece
  split
  · rwa [Piece.text, toList_ofChars]
  · cases rest with
    | nil => simp [Piece.text, toList_ofChars]
    | cons c' rest =>
      by_cases hc : c' = '='
      · subst hc
        exact ⟨rest, by simp [Piece.text, toList_ofChars]⟩
      · simp [hc, Piece.text, toList_ofChars]
  · split_ifs with hslash hblank hquote hdigit hword
    · cases rest with
      | nil => simp [Piece.text, toList_ofChars]
      | cons c' rest =>
        by_cases hc : c' = '/'
        · subst hc
          exact (List.prefix_cons_inj _).2 (List.takeWhile_prefix _)
        · simp [hc, Piece.text, toList_ofChars]
    · exact hone
    · subst hquote
      exact text_stringPiece line rest
    · exact text_numberPiece line (c :: rest)
    · rw [wordPiece, Piece.text, toList_ofChars]
      exact List.takeWhile_prefix _
    · exact hone

theorem text_firstPiece_ne_nil (line : Int) (c : Char) (rest : List Char) :
    (firstPiece line c rest).text ≠ [] := by
  unfold firstPiece
  split
  · simp [Piece.text, toList_ofChars]
  · split <;> simp [Piece.text, toList_ofChars]
  · split_ifs with hslash hblank hquote hdigit hword
    · split <;> simp [Piece.text, toList_ofChars]
    · simp [Piece.text]
    · unfold stringPiece
      dsimp only
      split <;> simp [Piece.text, toList_ofChars]
    · rw [numberPiece, Piece.text, toList_ofChars]
      split <;> simp [hdigit]
    · have hpart : isWordPart c = true := by simp [isWordPart, hword]
      simp [wordPiece, Piece.text, toList_ofChars, hpart]
    · simp [Piece.text]

/-- A text is its first piece and what lies behind that. -/
theorem firstPiece_split (line : Int) (c : Char) (rest : List Char) :
    (firstPiece line c rest).text ++ rest.drop ((firstPiece line c rest).text.length - 1) =
      c :: rest := by
  obtain ⟨after, hafter⟩ := text_firstPiece line c rest
  cases htext : (firstPiece line c rest).text with
  | nil => exact absurd htext (text_firstPiece_ne_nil line c rest)
  | cons c' text =>
    rw [htext] at hafter
    obtain ⟨rfl, rfl⟩ := List.cons_eq_cons.1 hafter
    simp

theorem countNewlines_append (cs ds : List Char) :
    countNewlines (cs ++ ds) = countNewlines cs + countNewlines ds := List.count_append

/-- The pieces of a text do not depend on what follows behind a line end, and what follows has the
pieces that it has alone. -/
theorem piecesFrom_append {line : Int} {skip : Nat} {cs : List Char} (hskip : skip ≤ cs.length)
    (hclosed : ∀ p ∈ piecesFrom line skip cs, p.isUnclosed = false) (more : List Char) :
    piecesFrom line skip (cs ++ '\n' :: more) = piecesFrom line skip cs ++
      piecesFrom (line + countNewlines (cs.drop skip)) 0 ('\n' :: more) := by
  induction cs generalizing line skip with
  | nil =>
    obtain rfl := Nat.le_zero.1 hskip
    simp [piecesFrom, countNewlines]
  | cons c rest ih =>
    cases skip with
    | succ skip => exact ih (Nat.le_of_succ_le_succ hskip) hclosed
    | zero =>
      obtain ⟨hfirst, hrest⟩ := List.forall_mem_cons.1 hclosed
      have hlength : (firstPiece line c rest).text.length - 1 ≤ rest.length := by
        have := (text_firstPiece line c rest).length_le
        simp only [List.length_cons] at this
        omega
      have hlines : line + countNewlines (firstPiece line c rest).text +
          countNewlines (rest.drop ((firstPiece line c rest).text.length - 1)) =
          line + countNewlines (c :: rest) := by
        rw [Int.add_assoc, ← Int.natCast_add, ← countNewlines_append, firstPiece_split]
      simp only [List.cons_append, piecesFrom, firstPiece_append more hfirst, List.drop_zero]
      rw [ih hlength hrest, hlines]
      rfl

theorem wordKind_ne_eof (word : String) : wordKind word ≠ .eof := by
  have hreserved : ∀ entry ∈ reserved, entry.2 ≠ .eof := by decide
  rw [wordKind]
  cases hlookup : reserved.lookup word with
  | none => nofun
  | some kind =>
    obtain ⟨before, after, heq, -⟩ := List.lookup_eq_some_iff.1 hlookup
    exact hreserved (word, kind) (by simp [heq])

theorem punctuation_ne_eof {c : Char} {kind : Kind} (h : punctuation c = some kind) :
    kind ≠ .eof := by
  unfold punctuation at h
  split at h <;> cases h <;> nofun

theorem extensible_ne_eof {c : Char} {plain extended : Kind}
    (h : extensible c = some (plain, extended)) : plain ≠ .eof ∧ extended ≠ .eof := by
  unfold extensible at h
  split at h <;> cases h <;> exact ⟨nofun, nofun⟩

/-- No piece is the end token. -/
theorem firstPiece_ne_eof {line : Int} {c : Char} {rest : List Char} {t : Token}
    (h : (firstPiece line c rest).token? = some t) : t.kind ≠ .eof := by
  unfold firstPiece at h
  split at h
  · next hkind =>
    cases h
    exact punctuation_ne_eof hkind
  · next hkinds =>
    obtain ⟨hplain, hextended⟩ := extensible_ne_eof hkinds
    split at h <;> cases h
    · exact hextended
    · exact hplain
  · split_ifs at h
    · split at h <;> cases h
      nofun
    · cases h
    · unfold stringPiece at h
      dsimp only at h
      split at h <;> cases h
      nofun
    · cases h
      nofun
    · cases h
      exact wordKind_ne_eof _
    · cases h

theorem piecesFrom_ne_eof {line : Int} {skip : Nat} {cs : List Char} :
    ∀ p ∈ piecesFrom line skip cs, ∀ t, p.token? = some t → t.kind ≠ .eof := by
  induction cs generalizing line skip with
  | nil => cases skip <;> exact List.forall_mem_nil _
  | cons c rest ih =>
    cases skip with
    | succ skip => exact ih
    | zero => exact List.forall_mem_cons.2 ⟨fun _ => firstPiece_ne_eof, ih⟩

/-- The number of lines that a text in front of another one takes. -/
def linesAbove (s : String) : Int := countNewlines s.toList + 1

/-- The tokens of a text without the end token. -/
def tokensOf (s : String) : List Token := (pieces s.toList).filterMap Piece.token?

theorem tokens_scan (s : String) : (scan s).tokens = tokensOf s ++ [endToken s.toList] := rfl

theorem faults_scan (s : String) : (scan s).faults = (pieces s.toList).filterMap Piece.fault? := rfl

theorem tokensOf_ne_eof {s : String} {t : Token} (h : t ∈ tokensOf s) : t.kind ≠ .eof := by
  obtain ⟨p, hp, ht⟩ := List.mem_filterMap.1 h
  exact piecesFrom_ne_eof p hp t ht

/-- Without the fault of an unclosed string there is no such piece. -/
theorem isUnclosed_eq_false {s : String}
    (h : ∀ line, (line, Fault.unterminatedString) ∉ (scan s).faults) :
    ∀ p ∈ pieces s.toList, p.isUnclosed = false := by
  intro p hp
  cases p with
  | unclosed text line =>
    have hfault : (line, Fault.unterminatedString) ∈ (scan s).faults :=
      List.mem_filterMap.2 ⟨_, hp, rfl⟩
    exact absurd hfault (h line)
  | _ => rfl

section Join

variable {s₁ : String} (h : ∀ line, (line, Fault.unterminatedString) ∉ (scan s₁).faults)
  (s₂ : String)

include h

theorem pieces_join : pieces (s₁ ++ "\n" ++ s₂).toList = pieces s₁.toList ++
    .gap ['\n'] :: (pieces s₂.toList).map (Piece.down (linesAbove s₁)) := by
  have htext : (s₁ ++ "\n" ++ s₂).toList = s₁.toList ++ '\n' :: s₂.toList := by simp
  have hbehind : piecesFrom (1 + countNewlines s₁.toList) 0 ('\n' :: s₂.toList) =
      .gap ['\n'] :: piecesFrom (1 + linesAbove s₁) 0 s₂.toList := by
    have hline : (1 : Int) + countNewlines s₁.toList + countNewlines ['\n'] =
        1 + linesAbove s₁ := Int.add_assoc _ _ _
    rw [← hline]
    rfl
  rw [htext, pieces, piecesFrom_append (Nat.zero_le _) (isUnclosed_eq_false h), List.drop_zero,
    hbehind, piecesFrom_down]
  rfl

theorem tokensOf_join : tokensOf (s₁ ++ "\n" ++ s₂) =
    tokensOf s₁ ++ (tokensOf s₂).map (Token.relabel (down (linesAbove s₁))) := by
  have hdown : Piece.token? ∘ Piece.down (linesAbove s₁) =
      fun p => p.token?.map (Token.relabel (down (linesAbove s₁))) := by
    funext p
    cases p <;> rfl
  rw [tokensOf, pieces_join h, List.filterMap_append, List.filterMap_cons_none rfl,
    List.filterMap_map, hdown, ← List.map_filterMap]
  rfl

theorem faults_join : (scan (s₁ ++ "\n" ++ s₂)).faults =
    (scan s₁).faults ++
      (scan s₂).faults.map fun (line, fault) => (line + linesAbove s₁, fault) := by
  have hdown : Piece.fault? ∘ Piece.down (linesAbove s₁) =
      fun p => p.fault?.map fun (line, fault) => (line + linesAbove s₁, fault) := by
    funext p
    cases p <;> rfl
  rw [faults_scan, pieces_join h, List.filterMap_append, List.filterMap_cons_none rfl,
    List.filterMap_map, hdown, ← List.map_filterMap]
  rfl

theorem tokens_join : (scan (s₁ ++ "\n" ++ s₂)).tokens =
    tokensOf s₁ ++ (scan s₂).tokens.map (Token.relabel (down (linesAbove s₁))) := by
  have hend : endToken (s₁ ++ "\n" ++ s₂).toList =
      (endToken s₂.toList).relabel (down (linesAbove s₁)) := by
    simp [endToken, Token.relabel, down, Relabelling.lines, linesAbove, countNewlines]
    omega
  rw [tokens_scan, tokensOf_join h, hend, tokens_scan, List.map_append, List.append_assoc]
  rfl

end Join

/-- A text behind another one without faults is scanned as it is alone, further down. -/
theorem scan_join {s₁ : String} (h : (scan s₁).faults = []) (s₂ : String) :
    scan (s₁ ++ "\n" ++ s₂) =
      ⟨tokensOf s₁ ++ (scan s₂).tokens.map (Token.relabel (down (linesAbove s₁))),
        (scan s₂).faults.map fun (line, fault) => (line + linesAbove s₁, fault)⟩ := by
  have hclosed : ∀ line, (line, Fault.unterminatedString) ∉ (scan s₁).faults := by simp [h]
  have hfaults := faults_join hclosed s₂
  rw [h, List.nil_append] at hfaults
  rw [← tokens_join hclosed, ← hfaults]

/-- A text that does not end inside a string and a text below it are scanned apart: the tokens and
the faults of the second one follow those of the first one, and their lines are counted on. -/
theorem scan_append_newline {s₁ : String}
    (h : ∀ line, (line, Fault.unterminatedString) ∉ (scan s₁).faults) (s₂ : String) :
    scan (s₁ ++ "\n" ++ s₂) =
      ⟨(scan s₁).tokens.dropLast ++
          (scan s₂).tokens.map fun t => { t with line := t.line + linesAbove s₁ },
        (scan s₁).faults ++
          (scan s₂).faults.map fun (line, fault) => (line + linesAbove s₁, fault)⟩ := by
  have htokens : (scan s₁).tokens.dropLast = tokensOf s₁ := by
    rw [tokens_scan, List.dropLast_concat]
  rw [htokens, ← faults_join h]
  exact congrArg (Scanned.mk · _) (tokens_join h s₂)

/-- The text in front has a stray character and goes over a line end in a string, and a point, a
comment and an open string stand at the ends. -/
theorem scan_append_newline_pointed :
    scan "#\"a\nb\" 1.\n= // c\n@\"" =
      ⟨[⟨.string, "\"a\nb\"", .string "a\nb", 2⟩,
          ⟨.number, "1", .number (Number.ofDigits ['1'] []), 2⟩, ⟨.dot, ".", .nil, 2⟩,
          ⟨.equal, "=", .nil, 3⟩, ⟨.eof, "", .nil, 4⟩],
        [(1, .unexpectedCharacter '#'), (4, .unexpectedCharacter '@'), (4, .unterminatedString)]⟩ :=
  @scan_append_newline "#\"a\nb\" 1." (by
    intro line hline
    rcases List.mem_singleton.1 hline with ⟨⟩) "= // c\n@\""

end Lox.Token

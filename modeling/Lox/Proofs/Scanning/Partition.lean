import Lox.Proofs.Scanning.Renaming

/-!
# What a text is cut into

Every kind of token has its lexemes. Between them stand blanks, comments, characters that begin no
lexeme, and at the end perhaps a string without its closing quote. `Partition` says what the pieces
of a text have to be: each is one of these, none could be longer, and each knows its line. There is
exactly one way to cut a text into such pieces, and the scanner finds it.
-/
namespace Lox.Token

/-- Whether a word is of a kind: a reserved word of its own, any other an identifier. -/
def IsWordKind (word : String) (kind : Kind) : Prop :=
  (word, kind) ∈ reserved ∨ kind = .identifier ∧ ∀ entry ∈ reserved, entry.1 ≠ word

theorem isWordKind_iff {word : String} {kind : Kind} :
    IsWordKind word kind ↔ wordKind word = kind := by
  have hkeys : ∀ entry ∈ reserved, wordKind entry.1 = entry.2 := by decide
  constructor
  · rintro (hmem | ⟨rfl, hnone⟩)
    · exact hkeys _ hmem
    · have hlookup : reserved.lookup word = none :=
        List.lookup_eq_none_iff.2 fun entry hentry => bne_iff_ne.2 (hnone entry hentry).symm
      rw [wordKind, hlookup]
      rfl
  · rintro rfl
    rw [IsWordKind, wordKind]
    cases hlookup : reserved.lookup word with
    | none =>
      refine .inr ⟨rfl, fun entry hentry heq => ?_⟩
      have hne := List.lookup_eq_none_iff.1 hlookup entry hentry
      simp [heq] at hne
    | some kind =>
      obtain ⟨front, behind, heq, -⟩ := List.lookup_eq_some_iff.1 hlookup
      exact .inl (by simp [heq])

/-- The texts of each kind of token, with the literals that they stand for. -/
inductive IsLexeme : Kind → List Char → Literal → Prop where
  | punctuation {c kind} (h : punctuation c = some kind) : IsLexeme kind [c] .nil
  | slash : IsLexeme .slash ['/'] .nil
  | plain {c plain extended} (h : extensible c = some (plain, extended)) : IsLexeme plain [c] .nil
  | extended {c plain extended} (h : extensible c = some (plain, extended)) :
    IsLexeme extended [c, '='] .nil
  | string {body} (h : '"' ∉ body) :
    IsLexeme .string ('"' :: body ++ ['"']) (.string (String.ofList body))
  | whole {digits} (hne : digits ≠ []) (h : ∀ c ∈ digits, Number.isDigit c = true) :
    IsLexeme .number digits (.number (Number.ofDigits digits []))
  | fraction {whole fraction} (hne : whole ≠ []) (hne' : fraction ≠ [])
    (h : ∀ c ∈ whole, Number.isDigit c = true) (h' : ∀ c ∈ fraction, Number.isDigit c = true) :
    IsLexeme .number (whole ++ '.' :: fraction) (.number (Number.ofDigits whole fraction))
  | word {c rest kind} (hc : isWordStart c = true) (h : ∀ d ∈ rest, isWordPart d = true)
    (hkind : IsWordKind (String.ofList (c :: rest)) kind) : IsLexeme kind (c :: rest) .nil

/-- A lexeme, and a text behind it with which it would be longer. -/
inductive Extends : List Char → List Char → Prop where
  | operator {c after} (h : (extensible c).isSome) : Extends [c] ('=' :: after)
  /-- Two strokes begin a comment. -/
  | comment {after} : Extends ['/'] ('/' :: after)
  | digit {text c after} (h : text.head?.any Number.isDigit) (hc : Number.isDigit c = true) :
    Extends text (c :: after)
  | fraction {text c after} (h : text.head?.any Number.isDigit) (hpoint : '.' ∉ text)
    (hc : Number.isDigit c = true) : Extends text ('.' :: c :: after)
  | word {text c after} (h : text.head?.any isWordStart) (hc : isWordPart c = true) :
    Extends text (c :: after)

def IsBlank (c : Char) : Prop := c = ' ' ∨ c = '\r' ∨ c = '\t' ∨ c = '\n'

/-- A character that is no blank and begins no lexeme. -/
structure IsStray (c : Char) : Prop where
  notBlank : ¬ IsBlank c
  noLexeme : ∀ kind text literal, IsLexeme kind text literal → text.head? ≠ some c

/-- The line that a text ends on. -/
def lineAfter (text : List Char) : Int := 1 + countNewlines text

/-- The pieces that may stand between two texts. A token is on the line that it ends on. -/
inductive Stands (before : List Char) : Piece → List Char → Prop where
  | token {kind text literal after} (h : IsLexeme kind text literal) (hmax : ¬ Extends text after) :
    Stands before (.token (ofChars kind text literal (lineAfter (before ++ text)))) after
  | blank {c after} (h : IsBlank c) : Stands before (.gap [c]) after
  | comment {body after} (h : '\n' ∉ body) (hmax : after = [] ∨ after.head? = some '\n') :
    Stands before (.gap ('/' :: '/' :: body)) after
  | stray {c after} (h : IsStray c) : Stands before (.stray c (lineAfter before)) after
  | unclosed {body} (h : '"' ∉ body) :
    Stands before (.unclosed ('"' :: body) (lineAfter (before ++ '"' :: body))) []

/-- What pieces are together. -/
def textOf (ps : List Piece) : List Char := (ps.map Piece.text).flatten

/-- Pieces that are a text together, each where it may stand. -/
structure Partition (before source : List Char) (ps : List Piece) : Prop where
  text : textOf ps = source
  stands : ∀ front p behind, ps = front ++ p :: behind →
    Stands (before ++ textOf front) p (textOf behind)

variable {before after cs rest text : List Char} {c : Char} {line : Int} {kind : Kind}
  {literal : Literal}

theorem of_punctuation (h : punctuation c = some kind) : extensible c = none ∧
    Number.isDigit c = false ∧ isWordStart c = false ∧ c ≠ '\n' ∧ kind ≠ .string := by
  unfold punctuation at h
  split at h <;> first | (cases h; decide) | cases h

theorem of_extensible {kinds : Kind × Kind} (h : extensible c = some kinds) :
    punctuation c = none ∧ Number.isDigit c = false ∧ isWordStart c = false ∧ c ≠ '\n' ∧
      kinds.1 ≠ .string ∧ kinds.2 ≠ .string := by
  unfold extensible at h
  split at h <;> first | (cases h; decide) | cases h

theorem of_isDigit (h : Number.isDigit c = true) : punctuation c = none ∧ extensible c = none ∧
    c ≠ '/' ∧ ¬ IsBlank c ∧ c ≠ '"' ∧ isWordStart c = false := by
  have hne (d : Char) (hd : Number.isDigit d = false) : c ≠ d := by
    rintro rfl
    exact Bool.false_ne_true (hd.symm.trans h)
  refine ⟨?_, ?_, hne _ (by decide), ?_, hne _ (by decide), ?_⟩
  · cases hp : punctuation c with
    | none => rfl
    | some kind => exact absurd (h.symm.trans (of_punctuation hp).2.1) nofun
  · cases he : extensible c with
    | none => rfl
    | some kinds => exact absurd (h.symm.trans (of_extensible he).2.1) nofun
  · rintro (hc | hc | hc | hc) <;> exact hne _ (by decide) hc
  · cases hw : isWordStart c with
    | false => rfl
    | true => exact absurd (h.symm.trans (isDigit_of_wordStart hw)) nofun

theorem firstPiece_of_isDigit (h : Number.isDigit c = true) :
    firstPiece line c rest = numberPiece line (c :: rest) := by
  obtain ⟨hp, he, hslash, hblank, hquote, -⟩ := of_isDigit h
  simp only [firstPiece, hp, he, hslash, hquote, h, if_false, if_true]
  exact if_neg hblank

/-- Only strings go over line ends. -/
theorem IsLexeme.newline_not_mem (h : IsLexeme kind text literal) (hk : kind ≠ .string) :
    '\n' ∉ text := by
  have hdigits {cs : List Char} (h : ∀ c ∈ cs, Number.isDigit c = true) : '\n' ∉ cs :=
    fun hmem => absurd (h _ hmem) (by decide)
  cases h with
  | punctuation h => simpa using (of_punctuation h).2.2.2.1.symm
  | slash => decide
  | plain h => simpa using (of_extensible h).2.2.2.1.symm
  | extended h => simpa using (of_extensible h).2.2.2.1.symm
  | string => exact absurd rfl hk
  | whole _ h => exact hdigits h
  | fraction _ _ h h' => simpa using ⟨hdigits h, hdigits h'⟩
  | word hc h =>
    refine List.not_mem_cons_of_ne_of_not_mem ?_ fun hmem => absurd (h _ hmem) (by decide)
    rintro rfl
    exact absurd hc (by decide)

theorem lineAfter_append (before text : List Char) :
    lineAfter (before ++ text) = lineAfter before + countNewlines text := by
  rw [lineAfter, lineAfter, countNewlines_append, Int.natCast_add, Int.add_assoc]

theorem lineAfter_of_not_mem (before : List Char) (h : '\n' ∉ text) :
    lineAfter (before ++ text) = lineAfter before := by
  rw [lineAfter_append, countNewlines, List.count_eq_zero_of_not_mem h]
  rfl

/-- A token of one line. -/
theorem IsLexeme.stands (h : IsLexeme kind text literal) (hk : kind ≠ .string)
    (hmax : ¬ Extends text after) :
    Stands before (.token (ofChars kind text literal (lineAfter before))) after := by
  rw [← lineAfter_of_not_mem before (h.newline_not_mem hk)]
  exact .token h hmax

/-- What is no number and no word is longer only with an equals sign, or as a comment. -/
theorem Extends.of_sign (h : Extends (c :: text) after) (hd : Number.isDigit c = false)
    (hw : isWordStart c = false) :
    text = [] ∧ ((extensible c).isSome ∧ after.head? = some '=' ∨
      c = '/' ∧ after.head? = some '/') := by
  cases h with
  | operator h => exact ⟨rfl, .inl ⟨h, rfl⟩⟩
  | comment => exact ⟨rfl, .inr ⟨rfl, rfl⟩⟩
  | digit h | fraction h => simp [hd] at h
  | word h => simp [hw] at h

theorem Extends.of_number (h : Extends text after) (hd : text.head?.any Number.isDigit) :
    after.head?.any Number.isDigit ∨ '.' ∉ text ∧ fractionDigits after ≠ [] := by
  cases h with
  | operator h =>
    obtain ⟨kinds, hkinds⟩ := Option.isSome_iff_exists.1 h
    exact absurd hd (by simp [(of_extensible hkinds).2.1])
  | comment => exact absurd hd (by decide)
  | digit _ hc => exact .inl hc
  | fraction _ hpoint hc => exact .inr ⟨hpoint, by simp [fractionDigits, hc]⟩
  | word h =>
    cases text with
    | nil => cases hd
    | cons c text => exact absurd h (by simpa using (of_isDigit hd).2.2.2.2.2)

theorem Extends.of_word (h : Extends text after) (hw : text.head?.any isWordStart) :
    after.head?.any isWordPart := by
  have hdigit (hd : text.head?.any Number.isDigit) : False := by
    cases text with
    | nil => cases hd
    | cons c text => exact absurd hw (by simpa using (of_isDigit hd).2.2.2.2.2)
  cases h with
  | operator h =>
    obtain ⟨kinds, hkinds⟩ := Option.isSome_iff_exists.1 h
    exact absurd hw (by simp [(of_extensible hkinds).2.2.1])
  | comment => exact absurd hw (by decide)
  | digit hd | fraction hd => exact (hdigit hd).elim
  | word _ hc => exact hc

theorem stands_stringPiece (h : (stringPiece (lineAfter before) rest).text ++ after = '"' :: rest) :
    Stands before (stringPiece (lineAfter before) rest) after := by
  have hbody : '"' ∉ rest.takeWhile (· ≠ '"') :=
    fun hmem => absurd (List.mem_takeWhile_imp hmem) (by decide)
  have hline (text : List Char) : lineAfter before + countNewlines text =
      lineAfter (before ++ '"' :: text) := by
    rw [lineAfter_append]
    rfl
  unfold stringPiece at h ⊢
  dsimp only at h ⊢
  cases hdrop : rest.dropWhile (· ≠ '"') with
  | nil =>
    have hall := List.takeWhile_append_dropWhile (p := (· ≠ '"')) (l := rest)
    rw [hdrop, List.append_nil] at hall
    rw [hdrop, Piece.text, hall] at h
    obtain rfl : after = [] := by simpa using h
    dsimp only
    rw [hline]
    exact .unclosed hbody
  | cons quote behind =>
    dsimp only
    have hclosed : countNewlines (rest.takeWhile (· ≠ '"')) =
        countNewlines (rest.takeWhile (· ≠ '"') ++ ['"']) := by
      rw [countNewlines_append]
      rfl
    rw [hclosed, hline]
    refine .token (.string hbody) fun hext => ?_
    exact absurd (hext.of_sign (by decide) (by decide)).1 (by simp)

theorem head_dropWhile (p : Char → Bool) (cs : List Char) :
    (cs.dropWhile p).head?.any p = false := by
  have hhead := List.head?_dropWhile_not p cs
  cases hd : (cs.dropWhile p).head? with
  | none => rfl
  | some d => simpa [hd] using hhead

theorem eq_dropWhile {p : Char → Bool} (h : cs.takeWhile p ++ after = cs) :
    after = cs.dropWhile p :=
  List.append_cancel_left (h.trans List.takeWhile_append_dropWhile.symm)

theorem fractionDigits_eq_of_ne_nil (h : fractionDigits cs ≠ []) :
    ∃ more, cs = '.' :: more ∧ fractionDigits cs = more.takeWhile Number.isDigit := by
  unfold fractionDigits at h ⊢
  split at h
  · exact ⟨_, rfl, rfl⟩
  · exact absurd rfl h

theorem stands_numberPiece (hc : Number.isDigit c = true)
    (h : (numberPiece (lineAfter before) (c :: rest)).text ++ after = c :: rest) :
    Stands before (numberPiece (lineAfter before) (c :: rest)) after := by
  have hsplit := List.takeWhile_append_dropWhile (p := Number.isDigit) (l := c :: rest)
  have hfirst : ((c :: rest).takeWhile Number.isDigit).head?.any Number.isDigit := by simp [hc]
  have hdigits (cs : List Char) : ∀ d ∈ cs.takeWhile Number.isDigit, Number.isDigit d = true :=
    fun d hd => List.mem_takeWhile_imp hd
  have hwhole := hdigits (c :: rest)
  have hstop := head_dropWhile Number.isDigit (c :: rest)
  unfold numberPiece at h ⊢
  rw [Piece.text, toList_ofChars] at h
  generalize (c :: rest).takeWhile Number.isDigit = whole at *
  generalize (c :: rest).dropWhile Number.isDigit = tail at *
  have hne : whole ≠ [] := by
    rintro rfl
    cases hfirst
  split at h
  · next hnone =>
    rw [List.isEmpty_iff] at hnone
    obtain rfl : after = tail := List.append_cancel_left (h.trans hsplit.symm)
    simp only [hnone, List.isEmpty_nil, if_true]
    refine (IsLexeme.whole hne hwhole).stands (by decide) fun hext => ?_
    rcases hext.of_number hfirst with hdigit | ⟨-, hfraction⟩
    · exact absurd hdigit (by simp [hstop])
    · exact hfraction hnone
  · next hsome =>
    rw [List.isEmpty_iff] at hsome
    obtain ⟨more, rfl, hmore⟩ := fractionDigits_eq_of_ne_nil hsome
    rw [hmore] at h hsome ⊢
    obtain rfl : after = more.dropWhile Number.isDigit :=
      eq_dropWhile (by simpa using h.trans hsplit.symm)
    simp only [List.isEmpty_iff, hsome, if_false]
    refine (IsLexeme.fraction hne hsome hwhole (hdigits more)).stands (by decide) fun hext => ?_
    have hfirst' : (whole ++ '.' :: more.takeWhile Number.isDigit).head?.any Number.isDigit := by
      cases whole with
      | nil => cases hfirst
      | cons d whole => exact hfirst
    rcases hext.of_number hfirst' with hdigit | ⟨hpoint, -⟩
    · exact absurd hdigit (by simp [head_dropWhile])
    · exact hpoint (by simp)

theorem wordKind_ne_string (word : String) : wordKind word ≠ .string := by
  have hreserved : ∀ entry ∈ reserved, entry.2 ≠ .string := by decide
  rcases isWordKind_iff.2 (rfl : wordKind word = wordKind word) with hmem | ⟨heq, -⟩
  · exact hreserved _ hmem
  · rw [heq]
    nofun

theorem stands_wordPiece (hc : isWordStart c = true)
    (h : (wordPiece (lineAfter before) (c :: rest)).text ++ after = c :: rest) :
    Stands before (wordPiece (lineAfter before) (c :: rest)) after := by
  have hpart := isWordPart_of_wordStart hc
  have hword : (c :: rest).takeWhile isWordPart = c :: rest.takeWhile isWordPart := by simp [hpart]
  rw [wordPiece, hword] at h ⊢
  rw [Piece.text, toList_ofChars] at h
  obtain rfl : after = rest.dropWhile isWordPart := eq_dropWhile (List.tail_eq_of_cons_eq h)
  have hlexeme : IsLexeme (wordKind (String.ofList (c :: rest.takeWhile isWordPart)))
      (c :: rest.takeWhile isWordPart) .nil :=
    .word hc (fun d hd => List.mem_takeWhile_imp hd) (isWordKind_iff.2 rfl)
  refine hlexeme.stands (wordKind_ne_string _) fun hext => ?_
  exact absurd (hext.of_word hc) (by simp [head_dropWhile])

/-- How a lexeme begins. -/
theorem begins_of_isLexeme (h : IsLexeme kind text literal) : ∃ d more, text = d :: more ∧
    ((punctuation d).isSome ∨ (extensible d).isSome ∨ d = '/' ∨ d = '"' ∨
      Number.isDigit d = true ∨ isWordStart d = true) := by
  have hdigits {cs : List Char} (hne : cs ≠ []) (h : ∀ d ∈ cs, Number.isDigit d = true) :
      ∃ d more, cs = d :: more ∧ Number.isDigit d = true := by
    obtain ⟨d, more, rfl⟩ := List.exists_cons_of_ne_nil hne
    exact ⟨d, more, rfl, h d List.mem_cons_self⟩
  cases h with
  | punctuation h => exact ⟨_, _, rfl, .inl (by simp [h])⟩
  | slash => exact ⟨_, _, rfl, by simp⟩
  | plain h | extended h => exact ⟨_, _, rfl, .inr (.inl (by simp [h]))⟩
  | string => exact ⟨_, _, rfl, by simp⟩
  | whole hne h =>
    obtain ⟨d, more, rfl, hd⟩ := hdigits hne h
    exact ⟨_, _, rfl, by simp [hd]⟩
  | fraction hne _ h =>
    obtain ⟨d, more, rfl, hd⟩ := hdigits hne h
    exact ⟨_, _, rfl, by simp [hd]⟩
  | word hc => exact ⟨_, _, rfl, by simp [hc]⟩

/-- A stray character is what is left of all that can begin a piece. -/
theorem isStray_iff : IsStray c ↔ punctuation c = none ∧ extensible c = none ∧ c ≠ '/' ∧
    ¬ IsBlank c ∧ c ≠ '"' ∧ Number.isDigit c = false ∧ isWordStart c = false := by
  constructor
  · rintro ⟨hblank, hnone⟩
    refine ⟨?_, ?_, ?_, hblank, ?_, ?_, ?_⟩
    · cases hp : punctuation c with
      | none => rfl
      | some kind => exact absurd rfl (hnone _ _ _ (.punctuation hp))
    · cases he : extensible c with
      | none => rfl
      | some kinds => exact absurd rfl (hnone _ _ _ (.plain he))
    · rintro rfl
      exact hnone _ _ _ .slash rfl
    · rintro rfl
      exact hnone _ _ _ (.string (List.not_mem_nil)) rfl
    · cases hd : Number.isDigit c with
      | false => rfl
      | true =>
        exact absurd rfl (hnone _ [c] _ (.whole (List.cons_ne_nil _ _) (by simpa using hd)))
    · cases hw : isWordStart c with
      | false => rfl
      | true => exact absurd rfl (hnone _ [c] _ (.word hw nofun (isWordKind_iff.2 rfl)))
  · rintro ⟨hp, he, hslash, hblank, hquote, hd, hw⟩
    refine ⟨hblank, fun kind text literal h hhead => ?_⟩
    obtain ⟨d, more, rfl, hd⟩ := begins_of_isLexeme h
    obtain rfl : d = c := Option.some.inj hhead
    simp_all

/-- A slash is a token, or begins a comment that goes up to the end of the line. -/
theorem stands_slashPiece
    (h : (firstPiece (lineAfter before) '/' rest).text ++ after = '/' :: rest) :
    Stands before (firstPiece (lineAfter before) '/' rest) after := by
  have hp : punctuation '/' = none := rfl
  have he : extensible '/' = none := rfl
  simp only [firstPiece, hp, he, if_true] at h ⊢
  split
  · next more =>
    have hbody : '\n' ∉ more.takeWhile (· ≠ '\n') :=
      fun hmem => absurd (List.mem_takeWhile_imp hmem) (by decide)
    have hcomment : ('/' :: more).takeWhile (· ≠ '\n') = '/' :: more.takeWhile (· ≠ '\n') := rfl
    rw [hcomment] at h ⊢
    obtain rfl : after = more.dropWhile (· ≠ '\n') := eq_dropWhile (by simpa [Piece.text] using h)
    refine .comment hbody ?_
    have hend := head_dropWhile (· ≠ '\n') more
    cases hdrop : more.dropWhile (· ≠ '\n') with
    | nil => exact .inl rfl
    | cons d behind =>
      rw [hdrop] at hend
      exact .inr (by simpa using hend)
  · next hne =>
    simp only [Piece.text, toList_ofChars, List.singleton_append, List.cons.injEq, true_and] at h
    subst h
    refine IsLexeme.slash.stands (by decide) fun hext => ?_
    rcases (hext.of_sign (by decide) (by decide)).2 with ⟨hsome, -⟩ | ⟨-, hstroke⟩
    · cases hsome
    · obtain ⟨more, rfl⟩ := List.head?_eq_some_iff.1 hstroke
      exact hne more rfl

/-- What the scanner finds first may stand where it stands. -/
theorem stands_firstPiece (h : (firstPiece (lineAfter before) c rest).text ++ after = c :: rest) :
    Stands before (firstPiece (lineAfter before) c rest) after := by
  by_cases hslash : c = '/'
  · subst hslash
    exact stands_slashPiece h
  unfold firstPiece at h ⊢
  split
  · next kind hkind =>
    obtain ⟨he, hd, hw, -, hstring⟩ := of_punctuation hkind
    refine (IsLexeme.punctuation hkind).stands hstring fun hext => ?_
    rcases (hext.of_sign hd hw).2 with ⟨hsome, -⟩ | ⟨rfl, -⟩
    · simp [he] at hsome
    · cases hkind
  · next plain extended hp he =>
    obtain ⟨-, hd, hw, -, hstring, hstring'⟩ := of_extensible he
    simp only [hp, he] at h
    split
    · refine (IsLexeme.extended he).stands hstring' fun hext => ?_
      exact absurd (hext.of_sign hd hw).1 (List.cons_ne_nil _ _)
    · next hne =>
      simp only [Piece.text, toList_ofChars, List.singleton_append, List.cons.injEq, true_and] at h
      subst h
      refine (IsLexeme.plain he).stands hstring fun hext => ?_
      rcases (hext.of_sign hd hw).2 with ⟨-, hequal⟩ | ⟨rfl, -⟩
      · obtain ⟨more, rfl⟩ := List.head?_eq_some_iff.1 hequal
        exact hne more rfl
      · cases he
  · next hp he =>
    simp only [hp, he] at h
    split_ifs at h ⊢ with hblank hquote hdigit hword
    · exact .blank hblank
    · subst hquote
      exact stands_stringPiece h
    · exact stands_numberPiece hdigit h
    · exact stands_wordPiece hword h
    · exact .stray (isStray_iff.2 ⟨hp, he, hslash, hblank, hquote, by simpa using hdigit,
        by simpa using hword⟩)

theorem takeWhile_all {p : Char → Bool} (h : ∀ d ∈ cs, p d = true)
    (hstop : after.head?.any p = false) : (cs ++ after).takeWhile p = cs := by
  rw [List.takeWhile_append_of_pos h, takeWhile_eq_nil_iff.2 hstop, List.append_nil]

theorem dropWhile_all {p : Char → Bool} (h : ∀ d ∈ cs, p d = true)
    (hstop : after.head?.any p = false) : (cs ++ after).dropWhile p = after := by
  rw [List.dropWhile_append_of_pos h]
  cases after with
  | nil => rfl
  | cons d after => simpa using hstop

theorem any_eq_false_of_not_extends {p : Char → Bool}
    (h : ∀ d more, after = d :: more → p d = true → Extends text after)
    (hmax : ¬ Extends text after) : after.head?.any p = false := by
  cases after with
  | nil => rfl
  | cons d more =>
    cases hp : p d with
    | false => simpa using hp
    | true => exact absurd (h d more rfl hp) hmax

theorem ne_of_not_mem {d : Char} (h : d ∉ cs) : ∀ e ∈ cs, decide (e ≠ d) = true := by
  intro e he
  rw [decide_eq_true_eq]
  rintro rfl
  exact h he

theorem stringPiece_of_unclosed (h : '"' ∉ cs) : stringPiece line (cs ++ []) =
    .unclosed ('"' :: cs) (line + countNewlines ('"' :: cs)) := by
  have hall := ne_of_not_mem h
  have hbody : (cs ++ []).takeWhile (· ≠ '"') = cs := takeWhile_all hall rfl
  have hrest : (cs ++ []).dropWhile (· ≠ '"') = [] := dropWhile_all hall rfl
  simp only [stringPiece, hbody, hrest]
  rfl

theorem stringPiece_of_closed (h : '"' ∉ cs) : stringPiece line (cs ++ ['"'] ++ after) =
    .token (ofChars .string ('"' :: cs ++ ['"']) (.string (String.ofList cs))
      (line + countNewlines ('"' :: cs ++ ['"']))) := by
  have hall := ne_of_not_mem h
  have hlines : countNewlines ('"' :: cs ++ ['"']) = countNewlines cs := by
    rw [countNewlines_append]
    rfl
  rw [List.append_assoc, List.singleton_append, hlines]
  have hbody : (cs ++ '"' :: after).takeWhile (· ≠ '"') = cs := takeWhile_all hall rfl
  have hrest : (cs ++ '"' :: after).dropWhile (· ≠ '"') = '"' :: after := dropWhile_all hall rfl
  simp only [stringPiece, hbody, hrest]

theorem numberPiece_of_whole (h : ∀ d ∈ cs, Number.isDigit d = true)
    (hfirst : cs.head?.any Number.isDigit) (hmax : ¬ Extends cs after) :
    numberPiece line (cs ++ after) =
      .token (ofChars .number cs (.number (Number.ofDigits cs [])) line) := by
  have hstop : after.head?.any Number.isDigit = false :=
    any_eq_false_of_not_extends (fun d more heq hd => heq ▸ .digit hfirst hd) hmax
  have hpoint : '.' ∉ cs := fun hmem => absurd (h _ hmem) (by decide)
  have hnone : fractionDigits after = [] := by
    refine fractionDigits_eq_nil_iff.2 fun hhead => ?_
    obtain ⟨more, rfl⟩ := List.head?_eq_some_iff.1 hhead
    cases more with
    | nil => rfl
    | cons d more =>
      cases hd : Number.isDigit d with
      | false => simpa using hd
      | true => exact absurd (.fraction hfirst hpoint hd) hmax
  simp only [numberPiece, takeWhile_all h hstop, dropWhile_all h hstop, hnone, List.isEmpty_nil,
    if_true]

theorem numberPiece_of_fraction {whole fraction : List Char}
    (h : ∀ d ∈ whole, Number.isDigit d = true) (h' : ∀ d ∈ fraction, Number.isDigit d = true)
    (hne : fraction ≠ []) (hstop : after.head?.any Number.isDigit = false) :
    numberPiece line (whole ++ '.' :: fraction ++ after) =
      .token (ofChars .number (whole ++ '.' :: fraction)
        (.number (Number.ofDigits whole fraction)) line) := by
  have hpoint : ('.' :: fraction ++ after).head?.any Number.isDigit = false := rfl
  have hdigits : fractionDigits ('.' :: fraction ++ after) = fraction := takeWhile_all h' hstop
  rw [List.append_assoc]
  simp only [numberPiece, takeWhile_all h hpoint, dropWhile_all h hpoint, hdigits,
    List.isEmpty_iff, hne, if_false]

/-- A lexeme that cannot be longer is found as a token. -/
theorem firstPiece_of_isLexeme (h : IsLexeme kind text literal) (hmax : ¬ Extends text after)
    (htext : text ++ after = c :: rest) : firstPiece line c rest =
      .token (ofChars kind text literal (line + countNewlines text)) := by
  have hflat (hk : kind ≠ .string) : line + countNewlines text = line := by
    rw [countNewlines, List.count_eq_zero_of_not_mem (h.newline_not_mem hk)]
    exact Int.add_zero line
  cases h with
  | punctuation h =>
    obtain ⟨rfl, rfl⟩ := List.cons_eq_cons.1 htext
    rw [hflat (of_punctuation h).2.2.2.2]
    simp only [firstPiece, h]
  | slash =>
    obtain ⟨rfl, rfl⟩ := List.cons_eq_cons.1 htext
    rw [hflat (by decide)]
    cases after with
    | nil => rfl
    | cons d more =>
      have hd : d ≠ '/' := by
        rintro rfl
        exact hmax .comment
      simp [firstPiece, punctuation, extensible, hd]
  | plain h =>
    obtain ⟨rfl, rfl⟩ := List.cons_eq_cons.1 htext
    obtain ⟨hp, -, -, -, hstring, -⟩ := of_extensible h
    rw [hflat hstring]
    cases after with
    | nil => simp [firstPiece, hp, h]
    | cons d more =>
      have hd : d ≠ '=' := by
        rintro rfl
        exact hmax (.operator (by simp [h]))
      simp [firstPiece, hp, h, hd]
  | extended h =>
    obtain ⟨rfl, rfl⟩ := List.cons_eq_cons.1 htext
    obtain ⟨hp, -, -, -, -, hstring⟩ := of_extensible h
    rw [hflat hstring]
    simp [firstPiece, hp, h]
  | @string body h =>
    obtain ⟨rfl, rfl⟩ := List.cons_eq_cons.1 htext
    exact stringPiece_of_closed h
  | whole hne h =>
    obtain ⟨d, digits, rfl⟩ := List.exists_cons_of_ne_nil hne
    obtain ⟨rfl, rfl⟩ := List.cons_eq_cons.1 htext
    have hd := h d List.mem_cons_self
    rw [hflat (by decide), firstPiece_of_isDigit hd]
    exact numberPiece_of_whole h hd hmax
  | @fraction whole fraction hne hne' h h' =>
    obtain ⟨d, digits, rfl⟩ := List.exists_cons_of_ne_nil hne
    obtain ⟨rfl, rfl⟩ := List.cons_eq_cons.1 htext
    have hd := h d List.mem_cons_self
    rw [hflat (by decide), firstPiece_of_isDigit hd]
    exact numberPiece_of_fraction h h' hne' <|
      any_eq_false_of_not_extends (fun e more heq he => heq ▸ .digit hd he) hmax
  | word hc h hkind =>
    obtain ⟨rfl, rfl⟩ := List.cons_eq_cons.1 htext
    obtain rfl := isWordKind_iff.1 hkind
    rw [hflat (wordKind_ne_string _)]
    refine IsWord.firstPiece_eq ⟨⟨_, _, rfl, hc⟩, ?_⟩ ?_
    · exact List.forall_mem_cons.2 ⟨isWordPart_of_wordStart hc, h⟩
    · exact any_eq_false_of_not_extends (fun d more heq hd => heq ▸ .word hc hd) hmax

/-- What may stand at the beginning of a text is what the scanner finds first. -/
theorem firstPiece_of_stands {p : Piece} (h : Stands before p after)
    (htext : p.text ++ after = c :: rest) : firstPiece (lineAfter before) c rest = p := by
  cases h with
  | token h hmax =>
    rw [Piece.text, toList_ofChars] at htext
    rw [firstPiece_of_isLexeme h hmax htext, lineAfter_append]
  | blank h =>
    obtain ⟨rfl, rfl⟩ := List.cons_eq_cons.1 htext
    rcases h with rfl | rfl | rfl | rfl <;> rfl
  | @comment body _ h hmax =>
    obtain ⟨rfl, rfl⟩ := List.cons_eq_cons.1 htext
    have hall : ∀ d ∈ '/' :: body, decide (d ≠ '\n') = true :=
      List.forall_mem_cons.2 ⟨rfl, ne_of_not_mem h⟩
    have hstop : after.head?.any (fun d => decide (d ≠ '\n')) = false := by
      rcases hmax with rfl | hhead
      · rfl
      · rw [hhead]
        rfl
    exact congrArg (Piece.gap ∘ ('/' :: ·)) (takeWhile_all hall hstop)
  | stray h =>
    obtain ⟨rfl, rfl⟩ := List.cons_eq_cons.1 htext
    obtain ⟨hp, he, hslash, hblank, hquote, hd, hw⟩ := isStray_iff.1 h
    simp only [firstPiece, hp, he, hslash, hquote, hd, hw, if_false, Bool.false_eq_true]
    exact if_neg hblank
  | @unclosed body h =>
    obtain ⟨rfl, rfl⟩ := List.cons_eq_cons.1 htext
    rw [lineAfter_append]
    exact stringPiece_of_unclosed h

theorem textOf_nil : textOf [] = [] := rfl

theorem Stands.text_ne_nil {p : Piece} (h : Stands before p after) : p.text ≠ [] := by
  cases h with
  | token h =>
    obtain ⟨d, more, rfl, -⟩ := begins_of_isLexeme h
    rw [Piece.text, toList_ofChars]
    exact List.cons_ne_nil _ _
  | _ => exact List.cons_ne_nil _ _

theorem partition_nil_iff {ps : List Piece} : Partition before [] ps ↔ ps = [] := by
  constructor
  · intro h
    cases ps with
    | nil => rfl
    | cons p ps =>
      have htext : p.text ++ textOf ps = [] := h.text
      exact absurd (List.append_eq_nil_iff.1 htext).1 (h.stands [] p ps rfl).text_ne_nil
  · rintro rfl
    exact ⟨rfl, fun front p behind heq => by simp at heq⟩

/-- A text is cut by cutting off a piece and then cutting the rest. -/
theorem partition_cons_iff {p : Piece} {ps : List Piece} : Partition before cs (p :: ps) ↔
    ∃ after, p.text ++ after = cs ∧ Stands before p after ∧
      Partition (before ++ p.text) after ps := by
  constructor
  · intro h
    have hp := h.stands [] p ps rfl
    rw [textOf_nil, List.append_nil] at hp
    refine ⟨textOf ps, h.text, hp, rfl, ?_⟩
    rintro front q behind rfl
    rw [List.append_assoc]
    exact h.stands (p :: front) q behind rfl
  · rintro ⟨after, htext, hp, hps⟩
    refine ⟨?_, fun front q behind heq => ?_⟩
    · rw [← htext, ← hps.text]
      rfl
    · rcases List.cons_eq_append_iff.1 heq with ⟨rfl, hcons⟩ | ⟨front, rfl, rfl⟩
      · obtain ⟨rfl, rfl⟩ := List.cons_eq_cons.1 hcons
        rwa [hps.text, textOf_nil, List.append_nil]
      · have hq := hps.stands front q behind rfl
        rwa [List.append_assoc] at hq

/-- The scanner finds a partition. -/
theorem partition_piecesFrom (before cs : List Char) :
    Partition before cs (piecesFrom (lineAfter before) 0 cs) := by
  induction hn : cs.length using Nat.strongRecOn generalizing before cs with
  | ind n ih =>
    cases cs with
    | nil => exact partition_nil_iff.2 rfl
    | cons c rest =>
      have hsplit := firstPiece_split (lineAfter before) c rest
      rw [piecesFrom, piecesFrom_drop]
      refine partition_cons_iff.2 ⟨_, hsplit, stands_firstPiece hsplit, ?_⟩
      rw [← lineAfter_append]
      refine ih _ ?_ _ _ rfl
      rw [← hn, List.length_drop, List.length_cons]
      omega

/-- Every partition is the one that the scanner finds. -/
theorem Partition.eq_piecesFrom {ps : List Piece} (h : Partition before cs ps) :
    ps = piecesFrom (lineAfter before) 0 cs := by
  induction ps generalizing before cs with
  | nil =>
    obtain rfl : [] = cs := h.text
    rfl
  | cons p ps ih =>
    obtain ⟨after, rfl, hp, hps⟩ := partition_cons_iff.1 h
    obtain ⟨c, text, htext⟩ := List.exists_cons_of_ne_nil hp.text_ne_nil
    have hfirst : firstPiece (lineAfter before) c (text ++ after) = p :=
      firstPiece_of_stands hp (congrArg (· ++ after) htext)
    rw [piecesFrom_append_text htext hfirst, ← lineAfter_append, ← ih hps]

/-- A text is cut into lexemes and what stands between them in one way only. Its tokens are the
lexemes in their order with the end token behind them, and there is one fault for each stray
character and for a string that is not closed. -/
theorem scan_partition (source : String) :
    ∃ ps, Partition [] source.toList ps ∧ (∀ ps', Partition [] source.toList ps' → ps' = ps) ∧
      scan source = ⟨ps.filterMap Piece.token? ++ [⟨.eof, "", .nil, lineAfter source.toList⟩],
        ps.filterMap Piece.fault?⟩ :=
  ⟨pieces source.toList, partition_piecesFrom [] _, fun _ h => h.eq_piecesFrom, rfl⟩

end Lox.Token

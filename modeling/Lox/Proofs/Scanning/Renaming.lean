import Lox.Proofs.Scanning.Joining
import Lox.Proofs.Syntax.Renaming
import Mathlib.Data.List.TakeWhile

/-!
# Other names in a text

The names in a text may be replaced by another one, and every other piece of the text is found as
before. How far a piece goes depends on the character behind it, and behind a point on one more; and
to be told apart from a word it is enough for these characters that they begin one.
-/
namespace Lox.Token

variable {line : Int} {c d : Char} {cs rest : List Char}

/-- Whether a text is a name: letters, digits and underscores with no digit in front, and not
reserved. -/
def isName (text : String) : Bool :=
  match text.toList with
  | [] => false
  | c :: rest => isWordStart c && rest.all isWordPart && wordKind text = .identifier

theorem ne_of_wordStart (h : isWordStart c = true) (hd : isWordStart d = false) : c ≠ d := by
  rintro rfl
  exact Bool.false_ne_true (hd.symm.trans h)

theorem isDigit_of_wordStart (h : isWordStart c = true) : Number.isDigit c = false := by
  simp only [isWordStart, Bool.or_eq_true, Bool.and_eq_true, decide_eq_true_eq] at h
  simp only [Number.isDigit, Bool.and_eq_false_iff, decide_eq_false_iff_not]
  simp only [Char.le_def, UInt32.le_iff_toNat_le] at h ⊢
  rcases h with (h | h) | rfl
  · right; exact Nat.not_le.2 (Nat.lt_of_lt_of_le (by decide) h.1)
  · right; exact Nat.not_le.2 (Nat.lt_of_lt_of_le (by decide) h.1)
  · right; decide

theorem isWordPart_of_wordStart (h : isWordStart c = true) : isWordPart c = true := by
  rw [isWordPart, h, Bool.true_or]

/-- What begins like a word is a word. -/
theorem firstPiece_of_wordStart (h : isWordStart c = true) :
    firstPiece line c rest = wordPiece line (c :: rest) := by
  have hpunctuation : punctuation c = none := by
    unfold punctuation
    split <;> first | rfl | exact absurd h (by decide)
  have hextensible : extensible c = none := by
    unfold extensible
    split <;> first | rfl | exact absurd h (by decide)
  have hblank : ¬ (c = ' ' ∨ c = '\r' ∨ c = '\t' ∨ c = '\n') := by
    rintro (rfl | rfl | rfl | rfl) <;> exact absurd h (by decide)
  have hslash : ¬ c = '/' := ne_of_wordStart h (by decide)
  have hquote : ¬ c = '"' := ne_of_wordStart h (by decide)
  simp only [firstPiece, hpunctuation, hextensible, hslash, hblank, hquote,
    isDigit_of_wordStart h, h, if_false, if_true, Bool.false_eq_true]

theorem punctuation_ne_identifier {kind : Kind} (h : punctuation c = some kind) :
    kind ≠ .identifier := by
  unfold punctuation at h
  split at h <;> cases h <;> nofun

theorem extensible_ne_identifier {plain extended : Kind}
    (h : extensible c = some (plain, extended)) : plain ≠ .identifier ∧ extended ≠ .identifier := by
  unfold extensible at h
  split at h <;> cases h <;> exact ⟨nofun, nofun⟩

/-- A name begins like a word. -/
theorem wordStart_of_identifier {t : Token} (h : firstPiece line c rest = .token t)
    (hk : t.kind = .identifier) : isWordStart c = true := by
  unfold firstPiece at h
  split at h
  · next hkind =>
    cases h
    exact absurd hk (punctuation_ne_identifier hkind)
  · next hkinds =>
    obtain ⟨hplain, hextended⟩ := extensible_ne_identifier hkinds
    split at h <;> cases h
    · exact absurd hk hextended
    · exact absurd hk hplain
  · split_ifs at h with _ _ _ _ hword
    · split at h <;> cases h
      cases hk
    · unfold stringPiece at h
      dsimp only at h
      split at h <;> cases h
      cases hk
    · cases h
      cases hk
    · exact hword

/-- A character as far as it ends a piece in front of it: all that begin a word do the same. -/
def face (c : Char) : Char := if isWordStart c then 'a' else c

theorem face_eq_iff (hd : isWordStart d = false) : face c = d ↔ c = d := by
  unfold face
  split
  · next h =>
    have hc : c ≠ d := ne_of_wordStart h hd
    have ha : 'a' ≠ d := ne_of_wordStart (by decide) hd
    exact iff_of_false ha hc
  · rfl

/-- Two texts that end a piece in front of them at the same place. -/
structure EndsAlike (cs cs' : List Char) : Prop where
  head : cs'.head?.map face = cs.head?.map face
  afterPoint : cs.head? = some '.' → cs'.tail.head?.map face = cs.tail.head?.map face

/-- Whether a property of characters is the same for all that begin a word. -/
def Faced (p : Char → Bool) : Prop := ∀ c, p (face c) = p c

theorem faced_isDigit : Faced Number.isDigit := by
  intro c
  unfold face
  split
  · next h => rw [isDigit_of_wordStart h]; decide
  · rfl

theorem faced_isWordPart : Faced isWordPart := by
  intro c
  unfold face
  split
  · next h => rw [isWordPart_of_wordStart h]; decide
  · rfl

theorem faced_ne (hd : isWordStart d = false) : Faced (· ≠ d) := by
  intro c
  simp [face_eq_iff hd]

theorem Faced.any_eq {p : Char → Bool} (hp : Faced p) {x y : Option Char}
    (h : y.map face = x.map face) : y.any p = x.any p := by
  have hmap (z : Option Char) : (z.map face).any p = z.any p := by
    cases z with
    | none => rfl
    | some c => exact hp c
  rw [← hmap x, ← hmap y, h]

namespace EndsAlike

variable {ys ys' : List Char}

theorem any_eq (h : EndsAlike ys ys') {p : Char → Bool} (hp : Faced p) :
    ys'.head?.any p = ys.head?.any p :=
  hp.any_eq h.head

/-- Characters that do not begin a word are the same. -/
theorem head_eq_iff (h : EndsAlike ys ys') (hd : isWordStart d = false) :
    ys'.head? = some d ↔ ys.head? = some d := by
  have hmap (x : Option Char) : x.map face = some d ↔ x = some d := by
    cases x with
    | none => simp
    | some c => simp [face_eq_iff hd]
  rw [← hmap, h.head, hmap]

/-- What does not begin with such a character does not begin with it. -/
theorem cons {y : Char} (h : EndsAlike (y :: ys) ys') (hd : isWordStart d = false) (hne : y ≠ d) :
    ∃ y' rest, ys' = y' :: rest ∧ y' ≠ d := by
  cases ys' with
  | nil =>
    have hhead := h.head
    cases hhead
  | cons y' rest =>
    refine ⟨y', rest, rfl, fun heq => hne ?_⟩
    exact Option.some.inj ((h.head_eq_iff hd).1 (congrArg some heq))

theorem nil_left (h : EndsAlike [] ys') : ys' = [] := by
  have hhead := h.head
  cases ys' with
  | nil => rfl
  | cons x ys' => cases hhead

end EndsAlike

section
variable {p : Char → Bool} {xs ys ys' : List Char}

theorem takeWhile_eq_nil_iff : xs.takeWhile p = [] ↔ xs.head?.any p = false := by
  cases xs <;> simp [List.takeWhile_cons]

/-- What stops in front of `ys` stops in front of `ys'`. -/
theorem takeWhile_of_endsAlike (hp : Faced p) (h : EndsAlike ys ys')
    (hlength : ((xs ++ ys).takeWhile p).length ≤ xs.length) :
    (xs ++ ys').takeWhile p = (xs ++ ys).takeWhile p := by
  induction xs with
  | nil =>
    have hnil : ys.takeWhile p = [] := List.eq_nil_of_length_eq_zero (Nat.le_zero.1 hlength)
    rw [List.nil_append, List.nil_append, hnil]
    exact takeWhile_eq_nil_iff.2 ((h.any_eq hp).trans (takeWhile_eq_nil_iff.1 hnil))
  | cons x xs ih =>
    rw [List.cons_append, List.takeWhile_cons] at hlength
    rw [List.cons_append, List.cons_append, List.takeWhile_cons, List.takeWhile_cons]
    split at hlength
    · next hx => rw [if_pos hx, if_pos hx, ih (Nat.le_of_succ_le_succ hlength)]
    · next hx => rw [if_neg hx, if_neg hx]

/-- What is left of a text in front of `ys`. -/
theorem takeWhile_append_drop (hlength : ((xs ++ ys).takeWhile p).length ≤ xs.length) :
    (xs ++ ys).takeWhile p ++ xs.drop ((xs ++ ys).takeWhile p).length = xs := by
  have htake : (xs ++ ys).takeWhile p = xs.take ((xs ++ ys).takeWhile p).length := by
    rw [← List.take_append_of_le_length hlength]
    exact List.prefix_iff_eq_take.1 (List.takeWhile_prefix _)
  exact (congrArg (· ++ _) htake).trans (List.take_append_drop _ xs)

/-- What is left then is the same in front of `ys` and of `ys'`. -/
theorem dropWhile_of_length (hlength : ((xs ++ ys).takeWhile p).length ≤ xs.length)
    (heq : (xs ++ ys').takeWhile p = (xs ++ ys).takeWhile p) :
    (xs ++ ys).dropWhile p = xs.drop ((xs ++ ys).takeWhile p).length ++ ys ∧
      (xs ++ ys').dropWhile p = xs.drop ((xs ++ ys).takeWhile p).length ++ ys' := by
  have hdrop (zs : List Char) :
      (xs ++ zs).dropWhile p = (xs ++ zs).drop ((xs ++ zs).takeWhile p).length := by
    have hsplit := List.takeWhile_append_dropWhile (p := p) (l := xs ++ zs)
    exact List.drop_left.symm.trans (by rw [hsplit])
  rw [hdrop, hdrop, heq, List.drop_append_of_le_length hlength,
    List.drop_append_of_le_length hlength]
  exact ⟨rfl, rfl⟩

end

section
variable {text ys ys' : List Char}

theorem wordPiece_of_endsAlike (h : (wordPiece line (text ++ ys)).text = text)
    (hy : EndsAlike ys ys') : wordPiece line (text ++ ys') = wordPiece line (text ++ ys) := by
  rw [wordPiece, Piece.text, toList_ofChars] at h
  rw [wordPiece, wordPiece,
    takeWhile_of_endsAlike faced_isWordPart hy (Nat.le_of_eq (congrArg List.length h))]

theorem fractionDigits_eq_nil_iff : fractionDigits cs = [] ↔
    (cs.head? = some '.' → cs.tail.head?.any Number.isDigit = false) := by
  cases cs with
  | nil => simp [fractionDigits]
  | cons c cs =>
    by_cases hc : c = '.'
    · subst hc
      simpa [fractionDigits] using takeWhile_eq_nil_iff
    · simp [fractionDigits, hc]

/-- A point with its digits, or nothing of the kind, is the same in front of `ys` and of `ys'`. -/
theorem fractionDigits_of_endsAlike (hy : EndsAlike ys ys')
    (h : text = if (fractionDigits (text ++ ys)).isEmpty then []
      else '.' :: fractionDigits (text ++ ys)) :
    fractionDigits (text ++ ys') = fractionDigits (text ++ ys) := by
  cases text with
  | nil =>
    have hnone : fractionDigits ys = [] := by
      split at h
      · next hempty => exact List.isEmpty_iff.1 hempty
      · cases h
    rw [List.nil_append, List.nil_append, hnone]
    rw [fractionDigits_eq_nil_iff] at hnone ⊢
    intro hpoint
    have hpoint := (hy.head_eq_iff (by decide)).1 hpoint
    exact (faced_isDigit.any_eq (hy.afterPoint hpoint)).trans (hnone hpoint)
  | cons z zs =>
    split at h
    · cases h
    · obtain ⟨rfl, hzs⟩ := List.cons_eq_cons.1 h
      exact takeWhile_of_endsAlike faced_isDigit hy
        (Nat.le_of_eq (congrArg List.length hzs.symm))

theorem numberPiece_of_endsAlike (h : (numberPiece line (text ++ ys)).text = text)
    (hy : EndsAlike ys ys') : numberPiece line (text ++ ys') = numberPiece line (text ++ ys) := by
  rw [numberPiece, Piece.text, toList_ofChars] at h
  have hlength : ((text ++ ys).takeWhile Number.isDigit).length ≤ text.length := by
    have hlength := congrArg List.length h
    split at hlength
    · exact Nat.le_of_eq hlength
    · rw [List.length_append, List.length_cons] at hlength
      omega
  have hwhole := takeWhile_of_endsAlike faced_isDigit hy hlength
  obtain ⟨hdrop, hdrop'⟩ := dropWhile_of_length hlength hwhole
  have hfraction : fractionDigits ((text ++ ys').dropWhile Number.isDigit) =
      fractionDigits ((text ++ ys).dropWhile Number.isDigit) := by
    have htext := takeWhile_append_drop hlength
    rw [hdrop] at h
    rw [hdrop, hdrop']
    generalize (text ++ ys).takeWhile Number.isDigit = whole at h htext ⊢
    generalize text.drop whole.length = zs at h htext ⊢
    rw [← htext] at h
    refine fractionDigits_of_endsAlike hy (List.append_cancel_left (h.symm.trans ?_))
    split
    · exact (List.append_nil whole).symm
    · rfl
  rw [numberPiece, numberPiece, hwhole, hfraction]

theorem stringPiece_of_endsAlike (h : (stringPiece line (text ++ ys)).text = '"' :: text)
    (hy : EndsAlike ys ys') : stringPiece line (text ++ ys') = stringPiece line (text ++ ys) := by
  unfold stringPiece at h
  dsimp only at h
  cases hdrop : (text ++ ys).dropWhile (· ≠ '"') with
  | nil =>
    -- It goes to the end of the text, so nothing lies behind it.
    have hall := List.takeWhile_append_dropWhile (p := (· ≠ '"')) (l := text ++ ys)
    rw [hdrop, List.append_nil] at hall
    rw [hdrop, Piece.text, hall] at h
    have hys : ys = [] := by simpa using h
    subst hys
    rw [hy.nil_left]
  | cons quote after =>
    rw [hdrop, Piece.text, toList_ofChars] at h
    have htext : (text ++ ys).takeWhile (· ≠ '"') ++ ['"'] = text := by simpa using h
    have hne : text.dropWhile (· ≠ '"') ≠ [] := by
      intro hnil
      have hquote := List.dropWhile_eq_nil_iff.1 hnil '"' (by rw [← htext]; simp)
      simp at hquote
    have hclosed : (stringPiece line text).isUnclosed = false := by
      unfold stringPiece
      dsimp only
      split
      · next hnil => exact absurd hnil hne
      · rfl
    rw [stringPiece_append ys' hclosed, stringPiece_append ys hclosed]

/-- A piece is found wherever what lies behind it ends it at the same place. -/
theorem firstPiece_of_endsAlike (h : (firstPiece line c (text ++ ys)).text = c :: text)
    (hy : EndsAlike ys ys') : firstPiece line c (text ++ ys') = firstPiece line c (text ++ ys) := by
  unfold firstPiece at h ⊢
  split
  · rfl
  · next hp he =>
    simp only [hp, he] at h
    cases text with
    | cons x text => by_cases hx : x = '=' <;> simp [hx]
    | nil =>
      cases ys with
      | nil => rw [hy.nil_left]
      | cons y ys =>
        -- An equals sign behind the piece would belong to it.
        have hne : y ≠ '=' := by
          rintro rfl
          simp [Piece.text, toList_ofChars] at h
        obtain ⟨y', rest, rfl, hne'⟩ := hy.cons (by decide) hne
        simp [hne, hne']
  · next hp he =>
    simp only [hp, he] at h
    split_ifs at h ⊢ with hslash hblank hquote hdigit hword
    · cases text with
      | cons x text =>
        by_cases hx : x = '/'
        · subst hx
          have hcomment : (('/' :: text ++ ys).takeWhile (· ≠ '\n')).length ≤
              ('/' :: text).length := by
            have hlength := congrArg List.length h
            exact Nat.le_of_eq (by simpa [Piece.text] using hlength)
          have hsame := takeWhile_of_endsAlike (faced_ne (by decide)) hy hcomment
          simpa using hsame
        · simp [hx]
      | nil =>
        cases ys with
        | nil => rw [hy.nil_left]
        | cons y ys =>
          have hne : y ≠ '/' := by
            rintro rfl
            simp [Piece.text] at h
          obtain ⟨y', rest, rfl, hne'⟩ := hy.cons (by decide) hne
          simp [hne, hne']
    · rfl
    · subst hquote
      exact stringPiece_of_endsAlike h hy
    · exact @numberPiece_of_endsAlike line (c :: text) ys ys' h hy
    · exact @wordPiece_of_endsAlike line (c :: text) ys ys' h hy
    · rfl

end

/-- Whether all of a text is one word. -/
structure IsWord (text : List Char) : Prop where
  start : ∃ c rest, text = c :: rest ∧ isWordStart c = true
  parts : ∀ c ∈ text, isWordPart c = true

theorem isWord_of_isName {x : String} (h : isName x = true) : IsWord x.toList := by
  unfold isName at h
  split at h
  · cases h
  · next c rest hx =>
    simp only [Bool.and_eq_true, List.all_eq_true] at h
    refine hx ▸ ⟨⟨c, rest, rfl, h.1.1⟩, List.forall_mem_cons.2 ⟨?_, h.1.2⟩⟩
    exact isWordPart_of_wordStart h.1.1

theorem wordKind_of_isName {x : String} (h : isName x = true) : wordKind x = .identifier := by
  unfold isName at h
  split at h
  · cases h
  · simp only [Bool.and_eq_true, decide_eq_true_eq] at h
    exact h.2

/-- A word is found as a piece, up to where it ends. -/
theorem IsWord.firstPiece_eq {text ys : List Char} (h : IsWord (c :: text))
    (hy : ys.head?.any isWordPart = false) :
    firstPiece line c (text ++ ys) =
      .token (ofChars (wordKind (String.ofList (c :: text))) (c :: text) .nil line) := by
  obtain ⟨⟨c', rest, heq, hstart⟩, hparts⟩ := h
  obtain ⟨rfl, rfl⟩ := List.cons_eq_cons.1 heq
  have htake : (c :: (text ++ ys)).takeWhile isWordPart = c :: text := by
    rw [← List.cons_append, List.takeWhile_append_of_pos hparts, takeWhile_eq_nil_iff.2 hy,
      List.append_nil]
  rw [firstPiece_of_wordStart hstart, wordPiece, htake]

/-- A name is a word, and nothing else that belongs to a word lies behind it. -/
theorem isWord_of_firstPiece {t : Token} {text ys : List Char}
    (h : firstPiece line c (text ++ ys) = .token t) (hk : t.kind = .identifier)
    (htext : t.lexeme.toList = c :: text) :
    IsWord (c :: text) ∧ ys.head?.any isWordPart = false ∧
      t = ⟨.identifier, t.lexeme, .nil, line⟩ := by
  have hstart := wordStart_of_identifier h hk
  rw [firstPiece_of_wordStart hstart] at h
  obtain rfl := Piece.token.inj h
  have htake : (c :: (text ++ ys)).takeWhile isWordPart = c :: text := by
    rw [← htext, toList_ofChars]
  rw [← List.cons_append] at htake
  have hparts : ∀ d ∈ c :: text, isWordPart d = true := by
    intro d hd
    rw [← htake] at hd
    exact List.mem_takeWhile_imp hd
  refine ⟨⟨⟨c, text, rfl, hstart⟩, hparts⟩, ?_, ?_⟩
  · rw [List.takeWhile_append_of_pos hparts] at htake
    exact takeWhile_eq_nil_iff.1 (List.append_cancel_left (htake.trans (List.append_nil _).symm))
  · rw [← show _ = Kind.identifier from hk]
    rfl

/-- What the text of a piece may become: it stays, or one word becomes another. -/
structure Respelled (text text' : List Char) : Prop where
  ne_nil : text ≠ []
  same : text' = text ∨ IsWord text ∧ IsWord text'

theorem head_flatten {xss xss' : List (List Char)} (h : List.Forall₂ Respelled xss xss') :
    xss'.flatten.head?.map face = xss.flatten.head?.map face := by
  cases h with
  | nil => rfl
  | @cons x x' _ _ hx _ =>
    rcases hx.same with rfl | ⟨hword, hword'⟩
    · obtain ⟨c, rest, rfl⟩ := List.exists_cons_of_ne_nil hx.ne_nil
      rfl
    · obtain ⟨c, rest, rfl, hc⟩ := hword.start
      obtain ⟨c', rest', rfl, hc'⟩ := hword'.start
      simp [face, hc, hc']

/-- Texts one after the other end a piece in front of them where they do with other words. -/
theorem endsAlike_flatten {xss xss' : List (List Char)} (h : List.Forall₂ Respelled xss xss') :
    EndsAlike xss.flatten xss'.flatten := by
  refine ⟨head_flatten h, fun hpoint => ?_⟩
  cases h with
  | nil => rfl
  | @cons x x' _ _ hx hrest =>
    rcases hx.same with rfl | ⟨hword, -⟩
    · obtain ⟨c, rest, rfl⟩ := List.exists_cons_of_ne_nil hx.ne_nil
      cases rest with
      | nil => exact head_flatten hrest
      | cons d rest => rfl
    · obtain ⟨c, rest, rfl, hc⟩ := hword.start
      exact absurd (Option.some.inj hpoint) (ne_of_wordStart hc (by decide))

theorem piecesFrom_drop (line : Int) (skip : Nat) (cs : List Char) :
    piecesFrom line skip cs = piecesFrom line 0 (cs.drop skip) := by
  induction cs generalizing skip with
  | nil => cases skip <;> rfl
  | cons c cs ih =>
    cases skip with
    | zero => rfl
    | succ skip => exact ih skip

/-- A text begins with a piece that is found there. -/
theorem piecesFrom_append_text {p : Piece} {text ys : List Char} (hp : p.text = c :: text)
    (h : firstPiece line c (text ++ ys) = p) :
    piecesFrom line 0 (p.text ++ ys) = p :: piecesFrom (line + countNewlines p.text) 0 ys := by
  rw [hp, List.cons_append, piecesFrom, h, piecesFrom_drop, hp]
  simp

/-- The pieces of a text, one after the other, are the text. -/
theorem flatten_piecesFrom (line : Int) (cs : List Char) :
    ((piecesFrom line 0 cs).map Piece.text).flatten = cs := by
  induction hn : cs.length using Nat.strongRecOn generalizing line cs with
  | ind n ih =>
    cases cs with
    | nil => rfl
    | cons c rest =>
      have hsplit := firstPiece_split line c rest
      rw [piecesFrom, piecesFrom_drop, List.map_cons, List.flatten_cons, ih _ ?_ _ _ rfl]
      · exact hsplit
      · rw [← hn, List.length_drop, List.length_cons]
        omega

/-- What a piece may become. -/
inductive Piece.Rewrites (ρ : Renaming) : Piece → Piece → Prop where
  | same (p : Piece) : Piece.Rewrites ρ p p
  | token {t t' : Token} (h : ρ.Rewrites t t') : Piece.Rewrites ρ (.token t) (.token t')

theorem IsWord.countNewlines_eq {text : List Char} (h : IsWord text) : countNewlines text = 0 :=
  List.count_eq_zero.2 fun hmem => absurd (h.parts _ hmem) (by decide)

variable {ρ : Renaming}

/-- A rewritten piece is found where the piece was, whatever else is rewritten. -/
theorem firstPiece_rewritten {p' : Piece} {text ys : List Char} (hnew : isName ρ.new = true)
    (htext : (firstPiece line c (text ++ ys)).text = c :: text)
    (h : Piece.Rewrites ρ (firstPiece line c (text ++ ys)) p') :
    Respelled (c :: text) p'.text ∧ countNewlines p'.text = countNewlines (c :: text) ∧
      ∀ ys', EndsAlike ys ys' → ∃ c' text', p'.text = c' :: text' ∧
        firstPiece line c' (text' ++ ys') = p' := by
  have hsame : Respelled (c :: text) (firstPiece line c (text ++ ys)).text ∧
      countNewlines (firstPiece line c (text ++ ys)).text = countNewlines (c :: text) ∧
      ∀ ys', EndsAlike ys ys' → ∃ c' text', (firstPiece line c (text ++ ys)).text = c' :: text' ∧
        firstPiece line c' (text' ++ ys') = firstPiece line c (text ++ ys) :=
    ⟨⟨List.cons_ne_nil _ _, .inl htext⟩, congrArg countNewlines htext,
      fun _ hy => ⟨c, text, htext, firstPiece_of_endsAlike htext hy⟩⟩
  generalize hp : firstPiece line c (text ++ ys) = p at h hsame htext
  cases h with
  | same => exact hsame
  | token ht =>
    cases ht with
    | same => exact hsame
    | renamed hk _ =>
      obtain ⟨hword, hends, ht⟩ := isWord_of_firstPiece hp hk htext
      have hword' := isWord_of_isName hnew
      refine ⟨⟨List.cons_ne_nil _ _, .inr ⟨hword, hword'⟩⟩,
        hword'.countNewlines_eq.trans hword.countNewlines_eq.symm, fun ys' hy => ?_⟩
      obtain ⟨⟨c', text', heq, -⟩, -⟩ := hword'
      refine ⟨c', text', heq, ?_⟩
      have hends' := (hy.any_eq faced_isWordPart).trans hends
      have hword' := heq ▸ isWord_of_isName hnew
      rw [hword'.firstPiece_eq hends', ← heq, ofChars, String.ofList_toList,
        wordKind_of_isName hnew, ht]

/-- A text with other names has the pieces that they are found in, on as many lines. -/
theorem piecesFrom_rewritten (hnew : isName ρ.new = true) {ps' : List Piece}
    (h : List.Forall₂ (Piece.Rewrites ρ) (piecesFrom line 0 cs) ps') :
    List.Forall₂ Respelled ((piecesFrom line 0 cs).map Piece.text) (ps'.map Piece.text) ∧
      piecesFrom line 0 (ps'.map Piece.text).flatten = ps' ∧
      countNewlines (ps'.map Piece.text).flatten = countNewlines cs := by
  induction hn : cs.length using Nat.strongRecOn generalizing line cs ps' with
  | ind n ih =>
    cases cs with
    | nil =>
      cases h
      exact ⟨.nil, rfl, rfl⟩
    | cons c rest =>
      rw [piecesFrom, piecesFrom_drop] at h ⊢
      obtain ⟨ys, hys⟩ := text_firstPiece line c rest
      obtain ⟨x, text, htext⟩ := List.exists_cons_of_ne_nil (text_firstPiece_ne_nil line c rest)
      rw [htext, List.cons_append] at hys
      obtain ⟨rfl, hrest⟩ := List.cons_eq_cons.1 hys
      subst hrest
      have hdrop : (text ++ ys).drop ((firstPiece line x (text ++ ys)).text.length - 1) = ys := by
        rw [htext, List.length_cons, Nat.add_sub_cancel, List.drop_left]
      rw [hdrop, htext] at h ⊢
      cases h with
      | @cons _ p' _ qs' hp hrest =>
        have hlt : ys.length < n := by
          rw [← hn, List.length_cons, List.length_append]
          omega
        obtain ⟨hrespelled, hpieces, hlines⟩ := ih ys.length hlt hrest rfl
        obtain ⟨hfirst, hline, hfound⟩ := firstPiece_rewritten hnew htext hp
        have hends := endsAlike_flatten hrespelled
        rw [flatten_piecesFrom] at hends
        obtain ⟨x', text', htext', hfirst'⟩ := hfound _ hends
        rw [List.map_cons, List.map_cons, htext, List.flatten_cons]
        refine ⟨.cons hfirst hrespelled, ?_, ?_⟩
        · rw [piecesFrom_append_text htext' hfirst', hline, hpieces]
        · rw [countNewlines_append, hline, hlines, ← countNewlines_append]
          rfl

/-- For rewritten tokens there are pieces that they come from. -/
theorem exists_rewritten_pieces {ps : List Piece} {ts' : List Token}
    (h : List.Forall₂ ρ.Rewrites (ps.filterMap Piece.token?) ts') :
    ∃ ps', List.Forall₂ (Piece.Rewrites ρ) ps ps' ∧ ps'.filterMap Piece.token? = ts' ∧
      ps'.filterMap Piece.fault? = ps.filterMap Piece.fault? := by
  induction ps generalizing ts' with
  | nil =>
    cases h
    exact ⟨[], .nil, rfl, rfl⟩
  | cons p ps ih =>
    cases p with
    | token t =>
      cases h with
      | @cons _ t' _ _ ht hts =>
        obtain ⟨ps', hps, htokens, hfaults⟩ := ih hts
        exact ⟨.token t' :: ps', .cons (.token ht) hps, congrArg (t' :: ·) htokens, hfaults⟩
    | _ =>
      obtain ⟨ps', hps, htokens, hfaults⟩ := ih h
      refine ⟨_ :: ps', .cons (.same _) hps, htokens, ?_⟩
      simp only [List.filterMap_cons, hfaults]

/-- For rewritten tokens there is a text that is scanned as them, with the same faults and as many
lines. -/
theorem exists_rewritten_text (hnew : isName ρ.new = true) {source : String} {ts' : List Token}
    (h : List.Forall₂ ρ.Rewrites (tokensOf source) ts') :
    ∃ source', scan source' = ⟨ts' ++ [endToken source.toList], (scan source).faults⟩ := by
  obtain ⟨ps', hps, htokens, hfaults⟩ := exists_rewritten_pieces h
  obtain ⟨-, hpieces, hlines⟩ := piecesFrom_rewritten hnew hps
  refine ⟨String.ofList (ps'.map Piece.text).flatten, ?_⟩
  rw [scan, String.toList_ofList, pieces, hpieces, htokens, hfaults, endToken, hlines]
  rfl

end Lox.Token

import Lox.Proofs.Scanning.Partition

/-!
# Tokens and their lexemes

A lexeme is one of one kind only, and all kinds but those of names and literals have one lexeme.
The tokens of a scan have lexemes of their kinds.
-/
namespace Lox.Token

variable {kind kind' : Kind} {text : List Char} {literal literal' : Literal} {t u : Token}

/-- The lexeme of a kind that has no other one. -/
def Kind.lexeme? : Kind → Option String
  | .leftParen => some "("
  | .rightParen => some ")"
  | .leftBrace => some "\x7b"
  | .rightBrace => some "\x7d"
  | .comma => some ","
  | .dot => some "."
  | .minus => some "-"
  | .plus => some "+"
  | .semicolon => some ";"
  | .slash => some "/"
  | .star => some "*"
  | .question => some "?"
  | .colon => some ":"
  | .bang => some "!"
  | .bangEqual => some "!="
  | .equal => some "="
  | .equalEqual => some "=="
  | .greater => some ">"
  | .greaterEqual => some ">="
  | .less => some "<"
  | .lessEqual => some "<="
  | kind => (reserved.find? (·.2 = kind)).map (·.1)

theorem IsLexeme.eq_lexeme? (h : IsLexeme kind text literal) {s : String}
    (hs : kind.lexeme? = some s) : text = s.toList := by
  have hreserved : ∀ entry ∈ reserved, entry.2.lexeme? = some entry.1 := by decide
  have hnone : Kind.identifier.lexeme? = none ∧ Kind.string.lexeme? = none ∧
      Kind.number.lexeme? = none := by decide
  cases h with
  | punctuation h =>
    unfold Token.punctuation at h
    split at h <;> first | (cases h; cases hs; rfl) | cases h
  | slash =>
    cases hs
    rfl
  | plain h =>
    unfold Token.extensible at h
    split at h <;> first | (cases h; cases hs; rfl) | cases h
  | extended h =>
    unfold Token.extensible at h
    split at h <;> first | (cases h; cases hs; rfl) | cases h
  | string | whole | fraction => simp [hnone] at hs
  | word hc hparts hkind =>
    rcases hkind with hmem | ⟨rfl, -⟩
    · rw [hreserved _ hmem] at hs
      cases hs
      exact String.toList_ofList.symm
    · simp [hnone] at hs

/-- What a name is: a word that is not reserved. -/
theorem IsLexeme.name (h : IsLexeme .identifier text literal) :
    IsWord text ∧ wordKind (String.ofList text) = .identifier := by
  cases h with
  | punctuation h =>
    unfold Token.punctuation at h
    split at h <;> cases h
  | plain h =>
    unfold Token.extensible at h
    split at h <;> cases h
  | extended h =>
    unfold Token.extensible at h
    split at h <;> cases h
  | word hc hparts hkind =>
    have hpart := isWordPart_of_wordStart hc
    exact ⟨⟨⟨_, _, rfl, hc⟩, by simpa using ⟨hpart, hparts⟩⟩, isWordKind_iff.1 hkind⟩

/-- A lexeme tells its kind and its literal. -/
theorem IsLexeme.unique (h : IsLexeme kind text literal) (h' : IsLexeme kind' text literal') :
    kind = kind' ∧ literal = literal' := by
  have hmax : ¬ Extends text [] := by
    rintro ⟨⟩
  obtain ⟨c, rest, rfl, -⟩ := begins_of_isLexeme h
  have hfirst : firstPiece 0 c rest = _ := firstPiece_of_isLexeme h hmax (List.append_nil _)
  rw [firstPiece_of_isLexeme h' hmax (List.append_nil _)] at hfirst
  simpa [ofChars, eq_comm] using hfirst

/-- A token with a lexeme of its kind and with the literal of its lexeme, unless it ends a scan. -/
def Lexical (t : Token) : Prop := t.kind ≠ .eof → IsLexeme t.kind t.lexeme.toList t.literal

/-- A token of one of these kinds, with a lexeme of its kind and with the literal of its lexeme. -/
structure Fits (kinds : List Kind) (t : Token) : Prop where
  kind : t.kind ∈ kinds
  lexeme : IsLexeme t.kind t.lexeme.toList t.literal

theorem lexical_scan (source : String) : ∀ t ∈ (scan source).tokens, t.Lexical := by
  intro t ht
  simp only [scan, List.mem_append, List.mem_filterMap, List.mem_singleton] at ht
  rcases ht with ⟨p, hp, htoken⟩ | rfl
  · obtain ⟨front, behind, hsplit⟩ := List.append_of_mem hp
    have hstands := (partition_piecesFrom [] source.toList).stands front p behind hsplit
    cases p with
    | token u =>
      obtain rfl := Option.some.inj htoken
      cases hstands with
      | token h _ => exact fun _ => by simpa [ofChars] using h
    | _ => cases htoken
  · exact fun h => absurd rfl h

/-- Tokens of kinds that have one lexeme each. -/
theorem Fits.lexeme_mem {kinds : List Kind} {lexemes : List String} (h : t.Fits kinds)
    (hkinds : ∀ kind ∈ kinds, ∃ s ∈ lexemes, kind.lexeme? = some s) : t.lexeme ∈ lexemes := by
  obtain ⟨s, hs, hlexeme⟩ := hkinds t.kind h.kind
  rw [String.toList_inj.1 (h.lexeme.eq_lexeme? hlexeme)]
  exact hs

end Lox.Token

import Lox.Number.Reading
import Lox.Token

/-!
# From source text to tokens

The scanner cuts a source into pieces: tokens, gaps, characters that start no token, and perhaps a
string that is never closed at the end. The pieces of a source, written one after the other, are
that source; every piece is as long as its kind allows.
-/
namespace Lox.Token

/-- One piece of a source text. -/
inductive Piece where
  | token (token : Token)
  /-- Blanks, line ends and comments. -/
  | gap (text : List Char)
  /-- A character that starts no token, and its line. -/
  | stray (c : Char) (line : Int)
  /-- A string without its closing quote, and the last line of the source. -/
  | unclosed (text : List Char) (line : Int)
  deriving Repr, DecidableEq

def Piece.text : Piece → List Char
  | .token t => t.lexeme.toList
  | .gap text => text
  | .stray c _ => [c]
  | .unclosed text _ => text

/-- Letters and the underscore; other scripts have no letters here. -/
def isWordStart (c : Char) : Bool :=
  ('a' ≤ c && c ≤ 'z') || ('A' ≤ c && c ≤ 'Z') || c = '_'

def isWordPart (c : Char) : Bool := isWordStart c || Number.isDigit c

/-- The lexemes of one character that no other character can extend. -/
def punctuation : Char → Option Kind
  | '(' => some .leftParen
  | ')' => some .rightParen
  | '\x7b' => some .leftBrace
  | '\x7d' => some .rightBrace
  | ',' => some .comma
  | '.' => some .dot
  | '-' => some .minus
  | '+' => some .plus
  | ';' => some .semicolon
  | '*' => some .star
  | '?' => some .question
  | ':' => some .colon
  | _ => none

/-- The operators that an equals sign may extend: the kind without it and the kind with it. -/
def extensible : Char → Option (Kind × Kind)
  | '!' => some (.bang, .bangEqual)
  | '=' => some (.equal, .equalEqual)
  | '<' => some (.less, .lessEqual)
  | '>' => some (.greater, .greaterEqual)
  | _ => none

def countNewlines (cs : List Char) : Nat := cs.count '\n'

/-- The token of this kind with this text. -/
def ofChars (kind : Kind) (text : List Char) (literal : Literal) (line : Int) : Token :=
  ⟨kind, String.ofList text, literal, line⟩

/-- A string that starts here; the quote itself is not part of `rest`. Its line is the line of its
end. -/
def stringPiece (line : Int) (rest : List Char) : Piece :=
  let body := rest.takeWhile (· ≠ '"')
  let line := line + countNewlines body
  match rest.dropWhile (· ≠ '"') with
  | [] => .unclosed ('"' :: body) line
  | _ :: _ => .token (ofChars .string ('"' :: body ++ ['"']) (.string (String.ofList body)) line)

/-- The digits after a point; a point without digits after it does not belong to the number. -/
def fractionDigits : List Char → List Char
  | '.' :: rest => rest.takeWhile Number.isDigit
  | _ => []

def numberPiece (line : Int) (cs : List Char) : Piece :=
  let whole := cs.takeWhile Number.isDigit
  let fraction := fractionDigits (cs.dropWhile Number.isDigit)
  let text := if fraction.isEmpty then whole else whole ++ '.' :: fraction
  .token (ofChars .number text (.number (Number.ofDigits whole fraction)) line)

def wordPiece (line : Int) (cs : List Char) : Piece :=
  let word := cs.takeWhile isWordPart
  .token (ofChars (wordKind (String.ofList word)) word .nil line)

/-- The first piece of the text `c :: rest` that begins on the given line. -/
def firstPiece (line : Int) (c : Char) (rest : List Char) : Piece :=
  match punctuation c, extensible c with
  | some kind, _ => .token (ofChars kind [c] .nil line)
  | none, some (plain, extended) =>
    match rest with
    | '=' :: _ => .token (ofChars extended [c, '='] .nil line)
    | _ => .token (ofChars plain [c] .nil line)
  | none, none =>
    if c = '/' then
      match rest with
      | '/' :: _ => .gap (c :: rest.takeWhile (· ≠ '\n'))
      | _ => .token (ofChars .slash [c] .nil line)
    else if c = ' ' ∨ c = '\r' ∨ c = '\t' ∨ c = '\n' then .gap [c]
    else if c = '"' then stringPiece line rest
    else if Number.isDigit c then numberPiece line (c :: rest)
    else if isWordStart c then wordPiece line (c :: rest)
    else .stray c line

/-- The pieces of a text after its first `skip` characters, which belong to the piece before. -/
def piecesFrom (line : Int) : (skip : Nat) → List Char → List Piece
  | _, [] => []
  | skip + 1, _ :: rest => piecesFrom line skip rest
  | 0, c :: rest =>
    let piece := firstPiece line c rest
    piece :: piecesFrom (line + countNewlines piece.text) (piece.text.length - 1) rest

def pieces (source : List Char) : List Piece := piecesFrom 1 0 source

/-- What is wrong with a source text before any grammar is looked at. -/
inductive Fault where
  | unexpectedCharacter (c : Char)
  | unterminatedString
  deriving Repr, DecidableEq

def Fault.message : Fault → String
  | .unexpectedCharacter c => "Unexpected character: " ++ c.toString
  | .unterminatedString => "Unterminated string."

def Piece.token? : Piece → Option Token
  | .token t => some t
  | _ => none

def Piece.fault? : Piece → Option (Int × Fault)
  | .stray c line => some (line, .unexpectedCharacter c)
  | .unclosed _ line => some (line, .unterminatedString)
  | _ => none

/-- The token that ends every scan, on the last line of the source. -/
def endToken (source : List Char) : Token := ⟨.eof, "", .nil, 1 + countNewlines source⟩

/-- The tokens of a source, closed by the end token, and its faults with their lines. -/
structure Scanned where
  tokens : List Token
  faults : List (Int × Fault)
  deriving Repr, DecidableEq

def scan (source : String) : Scanned :=
  let found := pieces source.toList
  ⟨found.filterMap Piece.token? ++ [endToken source.toList], found.filterMap Piece.fault?⟩

end Lox.Token

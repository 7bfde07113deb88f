import Lox.Number.Text
import Lox.Text.Quoted

/-!
# Tokens

A token has a kind, the text it was written as, the literal it stands for and the line it ends on.
The kinds of fixed lexemes are given by two tables: the reserved words and the operators.
-/
namespace Lox

/-- A constant of the language. -/
inductive Literal where
  | nil
  | bool (value : Bool)
  | number (value : Float)
  | string (value : String)
  deriving Repr, DecidableEq, Inhabited

/-- Literals are `true`, `false`, digits or the text itself in listings; a missing one is `null`. -/
def Literal.listed : Literal → String
  | .nil => "null"
  | .bool true => "True"
  | .bool false => "False"
  | .number x => Number.literal x
  | .string s => s

namespace Token

inductive Kind where
  | leftParen | rightParen | leftBrace | rightBrace | comma | dot | minus | plus | semicolon
  | slash | star | question | colon
  | bang | bangEqual | equal | equalEqual | greater | greaterEqual | less | lessEqual
  | identifier | string | number
  | and | classKeyword | else | false | fun | for | if | nil | or | print | return | super | this
  | true | var | while
  | eof
  deriving Repr, DecidableEq, Inhabited

/-- The name of a kind in listings. -/
def Kind.name : Kind → String
  | .leftParen => "LEFT_PAREN" | .rightParen => "RIGHT_PAREN"
  | .leftBrace => "LEFT_BRACE" | .rightBrace => "RIGHT_BRACE"
  | .comma => "COMMA" | .dot => "DOT" | .minus => "MINUS" | .plus => "PLUS"
  | .semicolon => "SEMICOLON" | .slash => "SLASH" | .star => "STAR"
  | .question => "QUESTION" | .colon => "COLON"
  | .bang => "BANG" | .bangEqual => "BANG_EQUAL" | .equal => "EQUAL" | .equalEqual => "EQUAL_EQUAL"
  | .greater => "GREATER" | .greaterEqual => "GREATER_EQUAL"
  | .less => "LESS" | .lessEqual => "LESS_EQUAL"
  | .identifier => "IDENTIFIER" | .string => "STRING" | .number => "NUMBER"
  | .and => "AND" | .classKeyword => "CLASS" | .else => "ELSE" | .false => "FALSE" | .fun => "FUN"
  | .for => "FOR" | .if => "IF" | .nil => "NIL" | .or => "OR" | .print => "PRINT"
  | .return => "RETURN" | .super => "SUPER" | .this => "THIS" | .true => "TRUE"
  | .var => "VAR" | .while => "WHILE"
  | .eof => "EOF"

/-- Every kind, in the order of their declaration. -/
def Kind.all : List Kind :=
  [.leftParen, .rightParen, .leftBrace, .rightBrace, .comma, .dot, .minus, .plus, .semicolon,
   .slash, .star, .question, .colon, .bang, .bangEqual, .equal, .equalEqual, .greater,
   .greaterEqual, .less, .lessEqual, .identifier, .string, .number, .and, .classKeyword, .else,
   .false, .fun, .for, .if, .nil, .or, .print, .return, .super, .this, .true, .var, .while, .eof]

/-- The kind with a given name. -/
def Kind.ofName? (name : String) : Option Kind := Kind.all.find? (·.name = name)

/-- The reserved words; no identifier is spelled like one of them. -/
def reserved : List (String × Kind) :=
  [("and", .and), ("class", .classKeyword), ("else", .else), ("false", .false), ("for", .for),
   ("fun", .fun), ("if", .if), ("nil", .nil), ("or", .or), ("print", .print),
   ("return", .return), ("super", .super), ("this", .this), ("true", .true), ("var", .var),
   ("while", .while)]

/-- The kind of a word: reserved, or an identifier. -/
def wordKind (word : String) : Kind := (reserved.lookup word).getD .identifier

end Token

structure Token where
  kind : Token.Kind
  lexeme : String
  literal : Literal
  line : Int
  deriving Repr, DecidableEq, Inhabited

namespace Token

/-- One line of a token listing. -/
def listed (t : Token) : String := t.kind.name ++ " " ++ t.lexeme ++ " " ++ t.literal.listed

/-- A token described for debugging, its lexeme quoted. -/
def described (t : Token) : String :=
  "Token(" ++ t.kind.name ++ ", " ++ Text.quoted t.lexeme ++ ", L" ++ toString t.line ++ ")"

end Token
end Lox

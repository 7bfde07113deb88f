import Lox.Text.Printable

/-!
# Quoted text

A text between quotes on one line. Single quotes are used unless the text holds one and no double
quote. The quote, the backslash and everything unprintable are escaped.
-/
namespace Lox.Text

def hexDigits (width n : Nat) : String :=
  let digits := Nat.toDigits 16 n
  String.ofList (List.replicate (width - digits.length) '0' ++ digits)

/-- A numeric escape, in the shortest of the three widths. -/
def numericEscape (code : Nat) : String :=
  if code < 0x100 then "\\x" ++ hexDigits 2 code
  else if code < 0x10000 then "\\u" ++ hexDigits 4 code
  else "\\U" ++ hexDigits 8 code

def escapeChar (quote c : Char) : String :=
  if c = quote ∨ c = '\\' then String.ofList ['\\', c]
  else if c = '\t' then "\\t"
  else if c = '\n' then "\\n"
  else if c = '\r' then "\\r"
  else if isPrintable c then c.toString
  else numericEscape c.toNat

/-- The quote that needs the fewest escapes. -/
def quoteFor (text : String) : Char :=
  if text.toList.contains '\x27' && !text.toList.contains '"' then '"' else '\x27'

def quoted (text : String) : String :=
  let quote := quoteFor text
  quote.toString ++ String.join (text.toList.map (escapeChar quote)) ++ quote.toString

end Lox.Text

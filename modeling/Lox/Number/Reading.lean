import Lox.Number.Double
import Lox.Text.Decimal

/-!
# Reading numbers

`ofDigits` gives the value of a number in a program, which is digits with an optional fraction.
`read?` accepts what data files write for a number: blanks around it, a sign, digits of any script
with underscores between them, a fraction, an exponent, and names for infinity and for no number.
-/
namespace Lox.Number

/-- One of the ten digits `0` to `9`; no other script's digits count. -/
def isDigit (c : Char) : Bool := '0' ≤ c && c ≤ '9'

def digitValue (c : Char) : Nat := c.toNat - '0'.toNat

/-- The natural number that a list of digits writes. -/
def natOfDigits (cs : List Char) : Nat := cs.foldl (fun n c => 10 * n + digitValue c) 0

/-- The double nearest to the number with these digits before and after the point. -/
def ofDigits (whole fraction : List Char) : Float :=
  ofDecimal (natOfDigits (whole ++ fraction)) (-(fraction.length : Int))

/-- Blanks that may stand around a number in a data file. -/
def isBlank (c : Char) : Bool := c = ' ' || ('\t' ≤ c && c ≤ '\r') || ('\x1c' ≤ c && c ≤ '\x1f') ||
  c = '\u0085' || c = '\u00a0' || c = '\u1680' || ('\u2000' ≤ c && c ≤ '\u200a') ||
  c = '\u2028' || c = '\u2029' || c = '\u202f' || c = '\u205f' || c = '\u3000'

def trim (cs : List Char) : List Char :=
  ((cs.dropWhile isBlank).reverse.dropWhile isBlank).reverse

/-- Removes underscores, each of which has to stand between two digits. -/
def joinDigits? : List Char → Option (List Char)
  | [] => some []
  | [c] => if c = '_' then none else some [c]
  | a :: '_' :: b :: rest =>
    if isDigit a && isDigit b then (joinDigits? (b :: rest)).map (a :: ·) else none
  | c :: rest => if c = '_' then none else (joinDigits? rest).map (c :: ·)

/-- The sign in front of a text, and what follows it. -/
def splitSign : List Char → Bool × List Char
  | '-' :: rest => (true, rest)
  | '+' :: rest => (false, rest)
  | cs => (false, cs)

/-- A non-empty run of digits with a sign, as an exponent has it. -/
def exponent? (cs : List Char) : Option Int :=
  let (negative, digits) := splitSign cs
  if digits.isEmpty || !digits.all isDigit then none
  else some (if negative then -(natOfDigits digits : Int) else natOfDigits digits)

/-- Digits with an optional point and an optional exponent; one digit at least. -/
def decimal? (cs : List Char) : Option Float :=
  let whole := cs.takeWhile isDigit
  let rest := cs.dropWhile isDigit
  let (fraction, rest) := match rest with
    | '.' :: after => (after.takeWhile isDigit, after.dropWhile isDigit)
    | _ => ([], rest)
  if whole.isEmpty && fraction.isEmpty then none
  else
    let value (e : Int) := ofDecimal (natOfDigits (whole ++ fraction)) (e - fraction.length)
    match rest with
    | [] => some (value 0)
    | c :: digits => if c = 'e' || c = 'E' then (exponent? digits).map value else none

def infinity : Float := Float.ofBits infinityBits.toUInt64

/-- The digit of ASCII for a digit of any script. -/
def asciiDigit (c : Char) : Char :=
  match Text.decimalValue? c with
  | some d => Char.ofNat ('0'.toNat + d)
  | none => c

/-- The value of a number in a data file. -/
def read? (text : String) : Option Float :=
  let (negative, body) := splitSign ((trim text.toList).map asciiDigit)
  let magnitude : Option Float :=
    match String.ofList (body.map Char.toLower) with
    | "inf" | "infinity" => some infinity
    | "nan" => some (0.0 / 0.0)
    | _ => (joinDigits? body).bind decimal?
  magnitude.map fun x => if negative then -x else x

end Lox.Number

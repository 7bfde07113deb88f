import Lox.Number.Shortest

/-!
# Numbers as text

Two spellings of a number. `literal` is the shortest text that reads back and always looks like a
fraction or has an exponent. `display` is what a program prints: a whole number in full, without a
fraction, and anything else as its literal.
-/
namespace Lox.Number

/-- The decisions of a spelling that are convention and not arithmetic. -/
structure Spelling where
  /-- The least and the greatest decimal point that is written without an exponent. -/
  positional : Int × Int
  /-- What a positional number without a fraction ends in. -/
  whole : String
  /-- The least number of exponent digits. -/
  exponentWidth : Nat

/-- Positional from `0.0001` up to sixteen digits before the point. -/
def plain : Spelling := ⟨(-3, 16), ".0", 2⟩

def zeros (n : Nat) : String := String.ofList (List.replicate n '0')

def padLeft (width : Nat) (text : String) : String := zeros (width - text.length) ++ text

/-- `d.ddde+XX`, the mantissa without a point if it is a single digit. -/
def Spelling.scientific (s : Spelling) (d : Decimal) : String :=
  let digits := toString d.digits
  let exponent := d.point - 1
  let mantissa :=
    if digits.length ≤ 1 then digits
    else String.ofList (digits.toList.take 1) ++ "." ++ String.ofList (digits.toList.drop 1)
  let sign := if exponent < 0 then "-" else "+"
  mantissa ++ "e" ++ sign ++ padLeft s.exponentWidth (toString exponent.natAbs)

/-- The digits around a point, with zeros where the point lies outside of them. -/
def Spelling.fixed (s : Spelling) (d : Decimal) : String :=
  let digits := toString d.digits
  if d.point ≤ 0 then "0." ++ zeros (-d.point).toNat ++ digits
  else
    let before := d.point.toNat
    if digits.length ≤ before then digits ++ zeros (before - digits.length) ++ s.whole
    else
      String.ofList (digits.toList.take before) ++ "." ++
        String.ofList (digits.toList.drop before)

def Spelling.write (s : Spelling) (m : Magnitude) : String :=
  if m.significand = 0 then "0" ++ s.whole
  else
    let d := m.shortest
    if s.positional.1 ≤ d.point ∧ d.point ≤ s.positional.2 then s.fixed d else s.scientific d

def signed (negative : Bool) (text : String) : String := if negative then "-" ++ text else text

/-- The shortest text that reads back to the same double. -/
def literal (x : Float) : String :=
  match decode x with
  | .nan => "nan"
  | .infinite negative => signed negative "inf"
  | .finite negative m => signed negative (plain.write m)

/-- The natural number that a magnitude is, if it has no fraction. -/
def Magnitude.toNat? (m : Magnitude) : Option Nat :=
  let den := Nat.pow 2 (-m.exponent).toNat
  if m.significand % den = 0 then some (m.significand / den * Nat.pow 2 m.exponent.toNat) else none

/-- Whole numbers are written in full, and zero has no sign. -/
def display (x : Float) : String :=
  match decode x with
  | .finite negative m =>
    match m.toNat? with
    | some n => signed (negative && n != 0) (toString n)
    | none => literal x
  | _ => literal x

end Lox.Number

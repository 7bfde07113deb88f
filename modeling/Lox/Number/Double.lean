/-!
# Doubles as integers times powers of two

A finite double is `significand * 2 ^ exponent` up to its sign. `decode` takes a double apart into
these integers and `nearest` is the way back: the double closest to a quotient of naturals, a tie
going to the even significand. Everything that reads or writes a number does so in exact integer
arithmetic on this form.
-/
namespace Lox.Number

/-- The absolute value `significand * 2 ^ exponent` of a finite double. -/
structure Magnitude where
  significand : Nat
  exponent : Int
  deriving Repr, DecidableEq

/-- What the bits of a double say. -/
inductive Decoded where
  | nan
  | infinite (negative : Bool)
  | finite (negative : Bool) (magnitude : Magnitude)
  deriving Repr, DecidableEq

/-- The weight of the implicit leading bit. -/
def hidden : Nat := Nat.pow 2 52

/-- The exponent of the smallest positive double. -/
def minExponent : Int := -1074

def decodeBits (bits : Nat) : Decoded :=
  let negative := bits / Nat.pow 2 63 % 2 = 1
  let field := bits / hidden % 2048
  let fraction := bits % hidden
  if field = 2047 then if fraction = 0 then .infinite negative else .nan
  else if field = 0 then .finite negative ⟨fraction, minExponent⟩
  else .finite negative ⟨hidden + fraction, minExponent + (field - 1)⟩

def decode (x : Float) : Decoded := decodeBits x.toBits.toNat

/-- The bits of positive infinity, the first pattern above every finite one. -/
def infinityBits : Nat := 2047 * hidden

/-- `num / den` in units of `2 ^ exponent`, rounded to the nearest integer, ties to even. -/
def roundUnits (num den : Nat) (exponent : Int) : Nat :=
  let num := num * Nat.pow 2 (-exponent).toNat
  let den := den * Nat.pow 2 exponent.toNat
  let low := num / den
  let twice := 2 * (num % den)
  if twice < den then low else if den < twice then low + 1 else low + low % 2

/-- The exponent at which `num / den` fills a significand: the floor of the quotient has 53 bits
there, or fewer if the exponent is already the least one. -/
def unitExponent (num den : Nat) : Int :=
  let guess := max minExponent ((num.log2 : Int) - den.log2 - 52)
  let full := num * Nat.pow 2 (-guess).toNat / (den * Nat.pow 2 guess.toNat) ≥ hidden
  if full ∨ guess = minExponent then guess else guess - 1

/-- The bits of the double nearest to `num / den`. The significand and the exponent field are
adjacent, so a significand that rounds up to the next power of two carries into the exponent. -/
def nearestBits (num den : Nat) : Nat :=
  if num = 0 then 0
  else
    let exponent := unitExponent num den
    min infinityBits (roundUnits num den exponent + (exponent - minExponent).toNat * hidden)

def nearest (num den : Nat) : Float := Float.ofBits (nearestBits num den).toUInt64

/-- The double nearest to `significand * 10 ^ exponent`. Outside the decimal range of doubles the
answer is known without forming the power. -/
def ofDecimal (significand : Nat) (exponent : Int) : Float :=
  let digits : Int := (Nat.toDigits 10 significand).length
  if significand = 0 ∨ digits + exponent < -330 then 0.0
  else if 330 < digits + exponent then Float.ofBits infinityBits.toUInt64
  else nearest (significand * Nat.pow 10 exponent.toNat) (Nat.pow 10 (-exponent).toNat)

end Lox.Number

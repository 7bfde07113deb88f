import Lox.Number.Double

/-!
# The shortest decimal that reads back

Around every double lies the interval of reals that round to it. `shortest` finds the fewest
decimal digits that name a point of that interval, and of the points with that many digits the one
nearest to the double. A grid of decimals has a point in the interval only if one of the double's
two neighbours on that grid is such a point, so only those two are tried for each length.
-/
namespace Lox.Number

/-- The decimal `0.d₁d₂… * 10 ^ point`, its digits written as one natural number. -/
structure Decimal where
  digits : Nat
  point : Int
  deriving Repr, DecidableEq

/-- A quotient of naturals, used for points on the real line. -/
structure Quotient where
  num : Nat
  den : Nat

/-- `n * base ^ exponent` as a quotient. -/
def Quotient.scale (n base : Nat) (exponent : Int) : Quotient :=
  ⟨n * base.pow exponent.toNat, base.pow (-exponent).toNat⟩

def Quotient.lt (a b : Quotient) : Bool := decide (a.num * b.den < b.num * a.den)

/-- The numbers that round to a double: `lower` and `upper` are the midpoints to its neighbours,
and belong to the interval when the significand is even. -/
structure Interval where
  lower : Quotient
  upper : Quotient
  closed : Bool

/-- Below a power of two the doubles lie twice as dense, so the lower midpoint is nearer there. -/
def Magnitude.interval (m : Magnitude) : Interval :=
  let dense := m.significand = hidden ∧ minExponent < m.exponent
  let unit := m.exponent - 2
  { lower := .scale (4 * m.significand - (if dense then 1 else 2)) 2 unit
    upper := .scale (4 * m.significand + 2) 2 unit
    closed := m.significand % 2 = 0 }

def Interval.contains (i : Interval) (x : Quotient) : Bool :=
  if i.closed then !x.lt i.lower && !i.upper.lt x else i.lower.lt x && x.lt i.upper

/-- The least `k` with `x < 10 ^ k`, for a positive `x`: the binary logarithm leaves few
candidates. -/
def Quotient.decimalPoint (x : Quotient) : Int :=
  let guess := (((x.num.log2 : Int) - x.den.log2 - 1) * 30103).fdiv 100000
  ([guess, guess + 1, guess + 2].find? fun k => x.lt (.scale 1 10 k)).getD (guess + 3)

/-- The better of the two decimals of `length` digits around `x` that lie in the interval: the
nearer one, and of two equally near ones the even one. -/
def Quotient.onGrid? (x : Quotient) (i : Interval) (point : Int) (length : Nat) : Option Decimal :=
  let unit := point - length
  let num := x.num * Nat.pow 10 (-unit).toNat
  let den := x.den * Nat.pow 10 unit.toNat
  let low := num / den
  let twice := 2 * (num % den)
  let near := if twice < den then low else if den < twice then low + 1 else low + low % 2
  let far := 2 * low + 1 - near
  let fits (n : Nat) : Bool := 0 < n && i.contains (.scale n 10 unit)
  if fits near then some ⟨near, point⟩ else if fits far then some ⟨far, point⟩ else none

/-- The number of decimal digits that always suffice for a double. -/
def maxDigits : Nat := 17

/-- Drops trailing zeros; the value stays, as the point counts from the first digit. -/
def dropZeros : Nat → Nat → Nat
  | 0, n => n
  | fuel + 1, n => if n % 10 = 0 ∧ n ≠ 0 then dropZeros fuel (n / 10) else n

/-- A rounding up to the next power of ten has one digit more than its grid. -/
def Decimal.normalize (length : Nat) (d : Decimal) : Decimal :=
  if d.digits = Nat.pow 10 length then ⟨1, d.point + 1⟩ else ⟨dropZeros maxDigits d.digits, d.point⟩

/-- The shortest decimal for a positive magnitude. -/
def Magnitude.shortest (m : Magnitude) : Decimal :=
  let x := Quotient.scale m.significand 2 m.exponent
  let i := m.interval
  let point := x.decimalPoint
  let lengths := List.range' 1 maxDigits
  (lengths.findSome? fun n => (x.onGrid? i point n).map (·.normalize n)).getD ⟨0, 0⟩

end Lox.Number

import IndentHtml.Number.Shortest

/-!
# Nearest doubles

The double that a positive fraction rounds to is the nearest one; of two that are equally near it
is the one with the even mantissa.  All arithmetic is on natural numbers, so the fraction is
rounded once and never in between.

The bits of the positive doubles, read as a natural number, count the doubles from zero upwards.
A mantissa that is rounded up to the next power of two therefore needs no care: the carry goes to
the exponent field, and above the largest double it gives infinity.
-/

namespace IndentHtml

/-- The fraction `numerator / denominator` of two positive numbers. -/
structure Fraction where
  numerator : Nat
  denominator : Nat
  deriving DecidableEq, Repr

namespace Fraction

/-- The fraction in units of `2 ^ q`. -/
def inUnits (x : Fraction) (q : Int) : Fraction :=
  ⟨x.numerator * Nat.pow 2 (-q).toNat, x.denominator * Nat.pow 2 q.toNat⟩

/-- The nearest natural number; of two it is the even one. -/
def round (x : Fraction) : Nat :=
  let below := x.numerator / x.denominator
  let twice := 2 * (x.numerator % x.denominator)
  if twice < x.denominator || (twice = x.denominator && below % 2 = 0) then below else below + 1

/-- The exponent of the largest power of two that is not above the fraction. -/
def order (x : Fraction) : Int :=
  let guess : Int := (Nat.log2 x.numerator : Int) - (Nat.log2 x.denominator : Int)
  let scaled := x.inUnits guess
  if scaled.denominator ≤ scaled.numerator then guess else guess - 1

/-- The exponent of the last place of a double as large as the fraction. -/
def lastPlace (x : Fraction) : Int :=
  max (x.order - 52) (-1074)

/-- The bits of positive infinity. -/
def infinityBits : Nat := 0x7ff0000000000000

/-- The bits of the nearest double. -/
def nearestBits (x : Fraction) : Nat :=
  let mantissa := (x.inUnits x.lastPlace).round
  min infinityBits ((x.lastPlace + 1074).toNat * Nat.pow 2 52 + mantissa)

end Fraction

namespace Decimal

/-- A decimal as a fraction. -/
def toFraction (d : Decimal) : Fraction :=
  ⟨d.digits * Nat.pow 10 d.exponent.toNat, Nat.pow 10 (-d.exponent).toNat⟩

/-- The exponent of the power of ten just above the decimal. -/
def order (d : Decimal) : Int :=
  (Nat.toDigits 10 d.digits).length + d.exponent

/-- The bits of the nearest double.  A decimal far above the largest double or far below the
smallest one is not written out as a fraction. -/
def nearestBits (d : Decimal) : Nat :=
  if d.digits = 0 || d.order < -400 then 0
  else if 400 < d.order then Fraction.infinityBits
  else d.toFraction.nearestBits

end Decimal

end IndentHtml

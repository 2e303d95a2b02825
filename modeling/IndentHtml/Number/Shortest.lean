import IndentHtml.Text.Basic

/-!
# Shortest decimals

A double stands for a fraction `m · 2 ^ q` and for every real that rounds to it.  The shortest
decimal of a double lies on the coarsest grid `c · 10 ^ k` that meets the interval of those
reals; of two points of that grid it is the nearer one, and the upper one in a tie.  All
comparisons are between natural numbers, so nothing is rounded on the way.
-/

namespace IndentHtml

/-- The decimal number `digits · 10 ^ exponent`. -/
structure Decimal where
  digits : Nat
  exponent : Int
  deriving DecidableEq, Repr

/-- A positive double `mantissa · 2 ^ exponent`.  `narrow` says that the next double below is
only half as far away as the next one above. -/
structure Dyadic where
  mantissa : Nat
  exponent : Int
  narrow : Bool
  deriving DecidableEq, Repr

namespace Dyadic

/-- The unit in which the interval of a double is measured: a quarter of its last place. -/
def unitExponent (x : Dyadic) : Int := x.exponent - 2

/-- The factor of a grid point `c · 10 ^ k` when it is compared with a number of units. -/
def pointScale (x : Dyadic) (k : Int) : Nat :=
  Nat.pow 10 k.toNat * Nat.pow 2 (-x.unitExponent).toNat

/-- The factor of a number of units when it is compared with a grid point `c · 10 ^ k`. -/
def unitScale (x : Dyadic) (k : Int) : Nat :=
  Nat.pow 2 x.unitExponent.toNat * Nat.pow 10 (-k).toNat

/-- The lower end of the interval, in units. -/
def lower (x : Dyadic) : Nat := if x.narrow then 4 * x.mantissa - 1 else 4 * x.mantissa - 2

/-- The upper end of the interval, in units. -/
def upper (x : Dyadic) : Nat := 4 * x.mantissa + 2

/-- Holds when the decimal `c · 10 ^ k` rounds to the double.  The ends belong to the interval
when the mantissa is even. -/
def covers (x : Dyadic) (k : Int) (c : Nat) : Bool :=
  let point := c * x.pointScale k
  let low := x.lower * x.unitScale k
  let high := x.upper * x.unitScale k
  if x.mantissa % 2 = 0 then low ≤ point && point ≤ high else low < point && point < high

/-- The largest grid point that is not above the double. -/
def below (x : Dyadic) (k : Int) : Nat := 4 * x.mantissa * x.unitScale k / x.pointScale k

/-- Holds when the grid point above the double is at least as near as the one below it. -/
def isUpperNearer (x : Dyadic) (k : Int) : Bool :=
  2 * (4 * x.mantissa * x.unitScale k) ≥ (2 * x.below k + 1) * x.pointScale k

/-- The grid point for the double, if the grid meets its interval. -/
def onGrid? (x : Dyadic) (k : Int) : Option Nat :=
  let c := x.below k
  match x.covers k c, x.covers k (c + 1) with
  | true, true => some (if x.isUpperNearer k then c + 1 else c)
  | true, false => some c
  | false, true => some (c + 1)
  | false, false => none

/-- The first hit on the grids from `10 ^ k` downwards. -/
def searchFrom (x : Dyadic) : (grids : Nat) → (k : Int) → Decimal
  | 0, k => ⟨x.below k, k⟩
  | grids + 1, k =>
      match x.onGrid? k with
      | some c => ⟨c, k⟩
      | none => searchFrom x grids (k - 1)

/-- An exponent whose power of ten is above the double. -/
def startExponent (x : Dyadic) : Nat := (Nat.log2 x.mantissa + x.exponent + 1).toNat

/-- The shortest decimal of the double.  The last grid tried holds the double itself. -/
def shortest (x : Dyadic) : Decimal :=
  x.searchFrom (x.startExponent + (-x.exponent).toNat) x.startExponent

end Dyadic

namespace Decimal

/-- Positional notation: no exponent is ever written. -/
def positional (d : Decimal) : Text :=
  let ds := Nat.toDigits 10 d.digits
  let places := (-d.exponent).toNat
  if places = 0 then ds ++ List.replicate d.exponent.toNat '0'
  else if places < ds.length then
    ds.take (ds.length - places) ++ '.' :: ds.drop (ds.length - places)
  else '0' :: '.' :: (List.replicate (places - ds.length) '0' ++ ds)

end Decimal

end IndentHtml

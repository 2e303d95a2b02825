import IndentHtml.Number.Nearest

/-!
# Numbers

Template data has one kind of number, the double.  This module classifies a double by its bits,
writes it as text, and reads decimals.

A number is written with the fewest digits that read back, in positional notation.  Both zeros
are written `0`.
-/

namespace IndentHtml

/-- What the bits of a double say. -/
inductive NumberClass where
  | notANumber
  | infinite (negative : Bool)
  | zero (negative : Bool)
  | finite (negative : Bool) (magnitude : Dyadic)
  deriving DecidableEq, Repr

namespace Number

/-- Reads a double's sign, exponent and fraction fields. -/
def classify (x : Float) : NumberClass :=
  let bits := x.toBits.toNat
  let negative := decide (Nat.pow 2 63 ≤ bits)
  let field : Nat := bits / Nat.pow 2 52 % Nat.pow 2 11
  let fraction : Nat := bits % Nat.pow 2 52
  if field = 2047 then
    if fraction = 0 then .infinite negative else .notANumber
  else if field = 0 then
    if fraction = 0 then .zero negative else .finite negative ⟨fraction, -1074, false⟩
  else
    .finite negative ⟨Nat.pow 2 52 + fraction, (field : Int) - 1075, fraction = 0 && 1 < field⟩

/-- The sign of a negative number. -/
def sign (negative : Bool) : Text := if negative then ['-'] else []

/-- The text of a number. -/
def toText (x : Float) : Text :=
  match classify x with
  | .notANumber => "NaN".toList
  | .infinite negative => sign negative ++ "inf".toList
  | .zero _ => ['0']
  | .finite negative magnitude => sign negative ++ magnitude.shortest.positional

/-- Holds of every number but the two zeros; what is not a number counts as nonzero. -/
def isNonzero (x : Float) : Bool :=
  match classify x with
  | .zero _ => false
  | _ => true

/-- Holds of the two infinities. -/
def isInfinite (x : Float) : Bool :=
  match classify x with
  | .infinite _ => true
  | _ => false

/-! ### Reading -/

/-- Positive infinity. -/
def infinity : Float := Float.ofBits 0x7ff0000000000000

/-- The value that is not a number. -/
def notANumber : Float := Float.ofBits 0x7ff8000000000000

/-- The double nearest to a decimal.  Far above the largest double it is infinity, and far below
the smallest one it is zero. -/
def ofDecimal (negative : Bool) (d : Decimal) : Float :=
  let magnitude := Float.ofBits (UInt64.ofNat d.nearestBits)
  if negative then -magnitude else magnitude

/-- The number that a run of decimal digits stands for. -/
def ofDigits (ds : Text) : Nat :=
  ds.foldl (fun n c => 10 * n + (c.toNat - '0'.toNat)) 0

/-- Splits off a leading sign; `true` stands for minus. -/
def splitSign : Text → Bool × Text
  | '-' :: t => (true, t)
  | '+' :: t => (false, t)
  | t => (false, t)

/-- Reads a nonempty run of digits with an optional sign. -/
def readInteger? (t : Text) : Option Int :=
  let (negative, ds) := splitSign t
  if ds.isEmpty || !ds.all Text.isDigit then none
  else if negative then some (-(ofDigits ds : Int)) else some (ofDigits ds)

/-- Reads digits with an optional point and an optional exponent.  Either side of the point may
be empty, but not both. -/
def readDecimal? (t : Text) : Option Decimal :=
  let whole := t.takeWhile Text.isDigit
  let afterWhole := t.dropWhile Text.isDigit
  let (places, rest) : Text × Text :=
    match afterWhole with
    | '.' :: r => (r.takeWhile Text.isDigit, r.dropWhile Text.isDigit)
    | r => ([], r)
  if whole.isEmpty && places.isEmpty then none
  else
    let digits := ofDigits (whole ++ places)
    match rest with
    | [] => some ⟨digits, -places.length⟩
    | e :: r =>
        if e = 'e' || e = 'E' then (readInteger? r).map fun n => ⟨digits, n - places.length⟩
        else none

/-- Reads a number: a decimal, `inf`, `infinity` or `nan` in any case, with an optional sign. -/
def read? (t : Text) : Option Float :=
  let (negative, body) := splitSign t
  let word := body.map Char.toLower
  if word = "inf".toList || word = "infinity".toList then
    some (if negative then -infinity else infinity)
  else if word = "nan".toList then some notANumber
  else (readDecimal? body).map (ofDecimal negative)

/-- The double nearest to an integer. -/
def ofInt (n : Int) : Float :=
  ofDecimal (decide (n < 0)) ⟨n.natAbs, 0⟩

end Number

end IndentHtml

import IndentHtml.Number.Basic

/-!
# Documents

The data of a template starts as a document: null, booleans, numbers, strings, arrays and
objects.  The members of an object are kept as they were written, repeated names included.

A document is read strictly: no comments, no trailing commas, no bare control characters in
strings, no lone surrogates, and no number beyond the largest double.  Arrays and objects nest at
most `maxNesting` deep.  The reader takes a value off the front of the text and leaves the rest.
-/

namespace IndentHtml

/-- A document in JavaScript object notation. -/
inductive Json where
  | null
  | bool (value : Bool)
  | number (value : Float)
  | string (text : Text)
  | array (items : List Json)
  | object (members : List (Text × Json))
  deriving Inhabited

namespace Json

/-- Holds of an object. -/
def isObject : Json → Bool
  | object _ => true
  | _ => false

/-! ### Reading -/

/-- How deep arrays and objects may nest. -/
def maxNesting : Nat := 127

/-- Holds of the blanks between the parts of a document. -/
def isBlank (c : Char) : Bool :=
  c = ' ' || c = '\t' || c = '\n' || c = '\r'

/-- Drops the blanks at the front. -/
def skipBlanks (t : Text) : Text :=
  t.dropWhile isBlank

/-! ### Strings -/

/-- The value of a hexadecimal digit. -/
def hexDigit? (c : Char) : Option Nat :=
  if Text.isDigit c then some (c.toNat - '0'.toNat)
  else if 'a' ≤ c && c ≤ 'f' then some (c.toNat - 'a'.toNat + 10)
  else if 'A' ≤ c && c ≤ 'F' then some (c.toNat - 'A'.toNat + 10)
  else none

/-- Reads four hexadecimal digits. -/
def hex4? : Text → Option (Nat × Text)
  | a :: b :: c :: d :: rest => do
      let a ← hexDigit? a
      let b ← hexDigit? b
      let c ← hexDigit? c
      let d ← hexDigit? d
      pure (((a * 16 + b) * 16 + c) * 16 + d, rest)
  | _ => none

/-- Reads what follows `\u`: a character, or the first of the two units of one. -/
def unicodeEscape? (t : Text) : Option (Char × Text) := do
  let (high, rest) ← hex4? t
  if 0xd800 ≤ high && high ≤ 0xdbff then
    match rest with
    | '\\' :: 'u' :: rest =>
        let (low, rest) ← hex4? rest
        if 0xdc00 ≤ low && low ≤ 0xdfff then
          pure (Char.ofNat (0x10000 + (high - 0xd800) * 0x400 + (low - 0xdc00)), rest)
        else none
    | _ => none
  else if 0xdc00 ≤ high && high ≤ 0xdfff then none
  else pure (Char.ofNat high, rest)

/-- Reads what follows a backslash. -/
def escape? : Text → Option (Char × Text)
  | '"' :: t => some ('"', t)
  | '\\' :: t => some ('\\', t)
  | '/' :: t => some ('/', t)
  | 'b' :: t => some ('\x08', t)
  | 'f' :: t => some ('\x0c', t)
  | 'n' :: t => some ('\n', t)
  | 'r' :: t => some ('\r', t)
  | 't' :: t => some ('\t', t)
  | 'u' :: t => unicodeEscape? t
  | _ => none

/-- Reads a string after its opening quote. -/
def string? : (fuel : Nat) → Text → Option (Text × Text)
  | 0, _ => none
  | _ + 1, [] => none
  | fuel + 1, c :: t =>
      if c = '"' then some ([], t)
      else if c = '\\' then do
        let (d, t) ← escape? t
        let (s, t) ← string? fuel t
        pure (d :: s, t)
      else if c < ' ' then none
      else do
        let (s, t) ← string? fuel t
        pure (c :: s, t)

/-! ### Numbers -/

/-- Reads the digits before the point: a zero alone, or digits that start with another one. -/
def whole? (t : Text) : Option (Text × Text) :=
  match t with
  | '0' :: rest =>
      match rest with
      | c :: _ => if Text.isDigit c then none else some (['0'], rest)
      | [] => some (['0'], rest)
  | c :: _ =>
      if Text.isDigit c then some (t.takeWhile Text.isDigit, t.dropWhile Text.isDigit) else none
  | [] => none

/-- Reads the digits after the point, if there is one. -/
def places? (t : Text) : Option (Text × Text) :=
  match t with
  | '.' :: rest =>
      let digits := rest.takeWhile Text.isDigit
      if digits.isEmpty then none else some (digits, rest.dropWhile Text.isDigit)
  | _ => some ([], t)

/-- Reads the exponent, if there is one. -/
def exponent? (t : Text) : Option (Int × Text) :=
  match t with
  | e :: rest =>
      if e = 'e' || e = 'E' then
        let (negative, rest) := Number.splitSign rest
        let digits := rest.takeWhile Text.isDigit
        if digits.isEmpty then none
        else
          let n : Int := Number.ofDigits digits
          some (if negative then -n else n, rest.dropWhile Text.isDigit)
      else some (0, t)
  | [] => some (0, t)

/-- Reads a number. -/
def number? (t : Text) : Option (Float × Text) := do
  let (negative, t) : Bool × Text :=
    match t with
    | '-' :: rest => (true, rest)
    | rest => (false, rest)
  let (whole, t) ← whole? t
  let (places, t) ← places? t
  let (exponent, t) ← exponent? t
  let x := Number.ofDecimal negative
    ⟨Number.ofDigits (whole ++ places), exponent - places.length⟩
  if Number.isInfinite x then none else pure (x, t)

/-! ### Values -/

mutual

/-- Reads a value that may nest `depth` deep. -/
def value? : (fuel depth : Nat) → Text → Option (Json × Text)
  | 0, _, _ => none
  | fuel + 1, depth, t =>
      match skipBlanks t with
      | '"' :: t => (string? (t.length + 1) t).map fun p => (string p.1, p.2)
      | '[' :: t =>
          match depth with
          | 0 => none
          | depth + 1 =>
              match skipBlanks t with
              | ']' :: t => some (array [], t)
              | t => (items? fuel depth t).map fun p => (array p.1, p.2)
      | '\x7b' :: t =>
          match depth with
          | 0 => none
          | depth + 1 =>
              match skipBlanks t with
              | '\x7d' :: t => some (object [], t)
              | t => (members? fuel depth t).map fun p => (object p.1, p.2)
      | 'n' :: t => (Text.after? "ull".toList t).map fun t => (null, t)
      | 't' :: t => (Text.after? "rue".toList t).map fun t => (bool true, t)
      | 'f' :: t => (Text.after? "alse".toList t).map fun t => (bool false, t)
      | t => (number? t).map fun p => (number p.1, p.2)

/-- Reads the items of an array up to its closing bracket; there is at least one. -/
def items? : (fuel depth : Nat) → Text → Option (List Json × Text)
  | 0, _, _ => none
  | fuel + 1, depth, t => do
      let (v, t) ← value? fuel depth t
      match skipBlanks t with
      | ',' :: t =>
          let (vs, t) ← items? fuel depth t
          pure (v :: vs, t)
      | ']' :: t => pure ([v], t)
      | _ => none

/-- Reads the members of an object up to its closing brace; there is at least one. -/
def members? : (fuel depth : Nat) → Text → Option (List (Text × Json) × Text)
  | 0, _, _ => none
  | fuel + 1, depth, t =>
      match skipBlanks t with
      | '"' :: t => do
          let (name, t) ← string? (t.length + 1) t
          match skipBlanks t with
          | ':' :: t =>
              let (v, t) ← value? fuel depth t
              match skipBlanks t with
              | ',' :: t =>
                  let (ms, t) ← members? fuel depth t
                  pure ((name, v) :: ms, t)
              | '\x7d' :: t => pure ([(name, v)], t)
              | _ => none
          | _ => none
      | _ => none

end

/-- Reads a text that is one document. -/
def read? (t : Text) : Option Json := do
  let (v, rest) ← value? (t.length + 1) maxNesting t
  if (skipBlanks rest).isEmpty then some v else none

end Json

end IndentHtml

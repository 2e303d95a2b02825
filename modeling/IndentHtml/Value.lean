import IndentHtml.Json
import IndentHtml.Table

/-!
# Template values

A value is a text, a number, a boolean, a list or a map.  Interpolation sees its text, `@if` its
truth, and a dotted path descends into it one segment at a time: a map by key, a list by the
canonical decimal form of an index.
-/

namespace IndentHtml

/-- A piece of template data.  The entries of a map are a `Table`. -/
inductive Value where
  | text (content : Text)
  | number (value : Float)
  | bool (value : Bool)
  | list (items : List Value)
  | map (entries : List (Text × Value))
  deriving Inhabited

/-- The data of a template. -/
abbrev Data := Table Value

namespace Value

/-- The text that interpolation inserts.  Lists and maps have none. -/
def toText : Value → Text
  | text t => t
  | number x => Number.toText x
  | bool true => ['1']
  | bool false => []
  | list _ => []
  | map _ => []

/-- The truth that `@if` tests.  A text is false when it is blank or `0` without its margin. -/
def isTruthy : Value → Bool
  | text t => !(Text.trim t).isEmpty && Text.trim t ≠ ['0']
  | number x => Number.isNonzero x
  | bool b => b
  | list items => !items.isEmpty
  | map entries => !entries.isEmpty

/-- The items of a list; other values have none. -/
def items : Value → List Value
  | list xs => xs
  | _ => []

/-- The index a path segment stands for: decimal digits without a needless leading zero. -/
def index? (segment : Text) : Option Nat :=
  match segment with
  | [] => none
  | ['0'] => some 0
  | '0' :: _ => none
  | ds => if ds.all Text.isDigit then some (Number.ofDigits ds) else none

/-- Descends by one path segment. -/
def child? : Value → Text → Option Value
  | map entries, segment => Table.find? entries segment
  | list xs, segment => (index? segment).bind fun i => xs[i]?
  | _, _ => none

/-- Descends by several path segments. -/
def descend? (v : Value) : List Text → Option Value
  | [] => some v
  | segment :: segments => (v.child? segment).bind fun w => w.descend? segments

/-- The map of a list of entries; of two under one key the later one stays. -/
def ofEntries (entries : List (Text × Value)) : Value :=
  map (Table.ofList entries)

/-! ### Values of documents -/

mutual

/-- The value of a document.  Null is the empty text, and of two members with one name the later
one counts. -/
def ofJson : Json → Value
  | .null => text []
  | .bool b => bool b
  | .number x => number x
  | .string t => text t
  | .array js => list (ofItems js)
  | .object members => ofEntries (ofMembers members)

/-- The values of the items of an array. -/
def ofItems : List Json → List Value
  | [] => []
  | j :: js => ofJson j :: ofItems js

/-- The values of the members of an object, under their names. -/
def ofMembers : List (Text × Json) → List (Text × Value)
  | [] => []
  | (name, j) :: members => (name, ofJson j) :: ofMembers members

end

/-! ### Equality -/

mutual

/-- Equality of values.  Numbers are compared as numbers: the zeros are equal, and what is not a
number equals nothing. -/
def same : Value → Value → Bool
  | text t, text u => t = u
  | number x, number y => x == y
  | bool b, bool c => b = c
  | list xs, list ys => sameItems xs ys
  | map xs, map ys => sameEntries xs ys
  | _, _ => false

/-- Equality of lists, item by item. -/
def sameItems : List Value → List Value → Bool
  | [], [] => true
  | x :: xs, y :: ys => same x y && sameItems xs ys
  | _, _ => false

/-- Equality of maps, entry by entry. -/
def sameEntries : List (Text × Value) → List (Text × Value) → Bool
  | [], [] => true
  | (k, x) :: xs, (l, y) :: ys => k = l && same x y && sameEntries xs ys
  | _, _ => false

end

end Value

namespace Data

/-- The data of a document.  Only an object has any. -/
def ofJson (j : Json) : Data :=
  match Value.ofJson j with
  | .map entries => entries
  | _ => []

end Data

end IndentHtml

import IndentHtml.Template.Directive
import IndentHtml.Text.Bytes

/-!
# Scanning by offsets

The readers of a template line once more, as loops that move a cursor over the bytes of the line
and cut slices out of it.  They look at single bytes, also at those inside a character, and no byte
of a longer character is in a class that is looked for.

An element comes out with its attributes written, and its values interpolated on the way.
-/

namespace IndentHtml

namespace Offsets

open Text (Fault Round byteAt bytesFrom slice sliceFrom decrement onByte)

/-! ### Runs of bytes -/

/-- The length of the run of spaces that bytes start with. -/
def countSpaces (bytes : List UInt8) : Nat :=
  (bytes.takeWhile (onByte Text.isSpace)).length

/-- The end of the name that starts at an offset. -/
def nameEnd (bytes : List UInt8) (start : Nat) : Except Fault Nat := do
  let rest ← bytesFrom bytes start
  return start + (rest.takeWhile (onByte Text.isNameChar)).length

/-! ### Markers -/

/-- The path of the marker that a text starts with, and the size of the marker. -/
def marker? (t : Text) : Except Fault (Option (Text × Nat)) :=
  match (t.cutAt? 1).bind fun p => Text.after? ['{'] p.2 with
  | none => return none
  | some body => do
      if body.bytes.head?.any (onByte Text.isWordStart) then
        let length := (body.bytes.takeWhile (onByte Text.isPathChar)).length
        if body.bytes[length]?.any (onByte (· = '}')) then
          let path ← slice body 0 length
          return some (path, length + 3)
        else return none
      else return none

/-- What is left of a text, and what has been written in place of the text before it. -/
structure Substitution where
  rest : Text
  written : Text

namespace Substitution

/-- Goes on behind the next sigil, or behind the marker that starts with it. -/
def round (isSigil : Char → Bool) (resolve : Text → Text) (s : Substitution) :
    Except Fault (Round Substitution) :=
  match Text.offset? isSigil s.rest with
  | none => return .leave s
  | some offset => do
      let before ← slice s.rest 0 offset
      let candidate ← sliceFrom s.rest offset
      match ← marker? candidate with
      | some (path, size) =>
          let rest ← sliceFrom candidate size
          return .next ⟨rest, s.written ++ before ++ resolve path⟩
      | none =>
          let sigil ← slice candidate 0 1
          let rest ← sliceFrom candidate 1
          return .next ⟨rest, s.written ++ before ++ sigil⟩

end Substitution

/-- Replaces every marker with one of the sigils. -/
def substitute (isSigil : Char → Bool) (resolve : Text → Text) (t : Text) : Except Fault Text := do
  let s ← Text.loop (fun s => s.rest.size) (Substitution.round isSigil resolve) ⟨t, []⟩
  return s.written ++ s.rest

/-- Interpolates the text of a line. -/
def interpolate (scope : Scope) (t : Text) : Except Fault Text := do
  let t ← substitute (· = '!') scope.textAt t
  substitute (· = '#') (fun path => Html.escape (scope.textAt path)) t

/-- Interpolates an attribute value. -/
def interpolateAttribute (scope : Scope) (t : Text) : Except Fault Text :=
  substitute (fun c => c = '#' || c = '!') scope.textAt t

/-! ### Attribute lists -/

/-- Holds of bytes that start with a name, perhaps spaces, and `=`. -/
def startsAssignment (bytes : List UInt8) : Except Fault Bool := do
  let length ← nameEnd bytes 0
  if length = 0 then return false
  else
    let rest ← bytesFrom bytes length
    return rest[countSpaces rest]?.any (onByte (· = '='))

/-- The cursor of a splitting, the start of the token it is in, and the tokens before that one. -/
structure Splitting where
  cursor : Nat
  start : Nat
  tokens : List Text

namespace Splitting

/-- Goes on by one byte or, at a comma or a space, behind the run of spaces or the separator. -/
def round (t : Text) (s : Splitting) : Except Fault (Round Splitting) := do
  if s.cursor < t.size then
    let b ← byteAt t.bytes s.cursor
    if !onByte (· = ',') b && !onByte Text.isSpace b then
      return .next { s with cursor := s.cursor + 1 }
    else
      let run ← bytesFrom t.bytes s.cursor
      let stop := s.cursor + countSpaces run
      if t.bytes[stop]?.any (onByte (· = ',')) then
        let after ← bytesFrom t.bytes (stop + 1)
        let next := stop + 1 + countSpaces after
        let token ← slice t s.start s.cursor
        return .next ⟨next, next, s.tokens ++ [token]⟩
      else
        let rest ← bytesFrom t.bytes stop
        if ← startsAssignment rest then
          let token ← slice t s.start s.cursor
          return .next ⟨stop, stop, s.tokens ++ [token]⟩
        else return .next { s with cursor := stop }
  else return .leave s

end Splitting

/-- The tokens of an attribute list. -/
def tokens (t : Text) : Except Fault (List Text) := do
  let s ← Text.loop (fun s => t.size - s.cursor) (Splitting.round t) ⟨0, 0, []⟩
  let last ← sliceFrom t s.start
  return s.tokens ++ [last]

/-- Strips a quote from both ends if the text starts and ends with the same one. -/
def unquote (t : Text) : Except Fault Text := do
  if t.head? = some '"' ∧ t.getLast? = some '"' ∨
      t.head? = some '\'' ∧ t.getLast? = some '\'' then
    if t.size < 2 then return []
    else
      let stop ← decrement t.size
      slice t 1 stop
  else return t

/-- The written form of the attribute of a token, without the space that precedes it. -/
def attribute? (scope : Scope) (token : Text) : Except Fault (Option Text) :=
  let token := Text.trim token
  if token.isEmpty then return none
  else
    match Text.cut? '=' token with
    | none =>
        let name := AttributeList.nameOf token
        return if name.isEmpty then none else some name
    | some (key, value) => do
        let name := AttributeList.nameOf (Text.trim key)
        if name.isEmpty then return none
        else
          let value ← unquote (Text.trim value)
          let value ← interpolateAttribute scope value
          return some (name ++ '=' :: '"' :: (Html.escape value ++ ['"']))

/-- The written forms of the attributes of an attribute list. -/
def attributes (scope : Scope) (list : Text) : Except Fault (List Text) := do
  if list.isEmpty then return []
  else
    let parts ← tokens list
    let written ← parts.mapM (attribute? scope)
    return written.flatMap Option.toList

/-- Texts with a space before each. -/
def spaced (ts : List Text) : Text :=
  if ts.isEmpty then [] else ' ' :: List.intercalate [' '] ts

/-! ### Elements -/

/-- The end of the tag that a line starts with, and the tag. -/
def tag (line : Text) : Except Fault (Nat × Text) := do
  if line.bytes.head?.any (onByte Text.isLetter) then
    let stop ← nameEnd line.bytes 0
    let name ← slice line 0 stop
    return (stop, name)
  else return (0, "div".toList)

/-- The cursor of a reading of selectors, and what has been read: the last id, and the nonempty
class names. -/
structure Selecting where
  cursor : Nat
  id : Text
  classes : List Text

namespace Selecting

/-- Goes on behind the next selector. -/
def round (line : Text) (s : Selecting) : Except Fault (Round Selecting) := do
  if s.cursor < line.size then
    let b ← byteAt line.bytes s.cursor
    if onByte (· = '#') b then
      let stop ← nameEnd line.bytes (s.cursor + 1)
      let name ← slice line (s.cursor + 1) stop
      return .next { s with cursor := stop, id := name }
    else if onByte (· = '.') b then
      let stop ← nameEnd line.bytes (s.cursor + 1)
      if s.cursor + 1 < stop then
        let name ← slice line (s.cursor + 1) stop
        return .next { s with cursor := stop, classes := s.classes ++ [name] }
      else return .next { s with cursor := stop }
    else return .leave s
  else return .leave s

/-- The written forms of the attributes that the selectors stand for. -/
def written (s : Selecting) : List Text :=
  (if s.id.isEmpty then [] else ["id=\"".toList ++ (Html.escape s.id ++ ['"'])]) ++
    (if s.classes.isEmpty then []
      else ["class=\"".toList ++ (Html.escape (List.intercalate [' '] s.classes) ++ ['"'])])

end Selecting

/-- The selectors from an offset on. -/
def selectors (line : Text) (start : Nat) : Except Fault Selecting :=
  Text.loop (fun s => line.size - s.cursor) (Selecting.round line) ⟨start, [], []⟩

/-- The cursor of a search for the closing parenthesis, the number of open parentheses, and the
offset of the closing one once it is found. -/
structure Closing where
  cursor : Nat
  depth : Nat
  close : Option Nat

namespace Closing

/-- Goes on by one byte. -/
def round (line : Text) (s : Closing) : Except Fault (Round Closing) := do
  if s.cursor < line.size then
    let b ← byteAt line.bytes s.cursor
    if onByte (· = '(') b then
      return .next { s with cursor := s.cursor + 1, depth := s.depth + 1 }
    else if onByte (· = ')') b then
      let depth ← decrement s.depth
      if depth = 0 then return .leave ⟨s.cursor + 1, depth, some s.cursor⟩
      else return .next { s with cursor := s.cursor + 1, depth := depth }
    else return .next { s with cursor := s.cursor + 1 }
  else return .leave s

end Closing

/-- The text without its last character. -/
def dropLast (t : Text) : Except Fault Text :=
  match t.getLast? with
  | some c => slice t 0 (t.size - c.utf8Size)
  | none => return t

/-- The end of the parentheses that start at an offset, and the text in them. -/
def parenthesised (line : Text) (start : Nat) : Except Fault (Nat × Text) := do
  if line.bytes[start]?.any (onByte (· = '(')) then
    let s ← Text.loop (fun s => line.size - s.cursor) (Closing.round line) ⟨start, 0, none⟩
    match s.close with
    | some close =>
        let list ← slice line (start + 1) close
        return (s.cursor, list)
    | none =>
        let rest ← sliceFrom line (start + 1)
        let list ← dropLast rest
        return (s.cursor, list)
  else return (start, [])

/-- An element line with its attributes written. -/
structure WrittenElement where
  tag : Text
  attributes : Text
  /-- The text after the element, trimmed and not yet interpolated. -/
  text : Text
  deriving DecidableEq, Repr

/-- Reads an element line. -/
def element (scope : Scope) (line : Text) : Except Fault WrittenElement := do
  let (afterTag, name) ← tag line
  let selected ← selectors line afterTag
  let (afterList, list) ← parenthesised line selected.cursor
  let rest ← sliceFrom line afterList
  let listed ← attributes scope (Text.trim list)
  return {
    tag := name
    attributes := spaced (selected.written ++ listed)
    text := Text.trim rest }

/-! ### Includes -/

/-- The text between quotes that a text consists of, if only spaces follow the second quote. -/
def quoted? (t : Text) : Except Fault (Option Text) :=
  match t.head?.filter fun c => c = '"' || c = '\'' with
  | none => return none
  | some quote => do
      let body ← sliceFrom t 1
      match Text.offset? (· = quote) body with
      | none => return none
      | some stop =>
          let inner ← slice body 0 stop
          let tail ← sliceFrom body (stop + 1)
          return if inner.isEmpty || !tail.all Text.isSpace then none else some inner

/-- The target of an include line. -/
def include? (line : Text) : Except Fault (Option Text) :=
  match Text.after? "@include".toList line with
  | none => return none
  | some rest =>
      let quoted : Text := rest.dropWhile Text.isSpace
      if quoted.size = rest.size then return none else quoted? quoted

end Offsets

end IndentHtml

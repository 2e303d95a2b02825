import IndentHtml.Template.Element
import IndentHtml.Template.Line

/-!
# Directives

The content of a line says what the line is: a comment, the document type, a text, one of the
directives `@if`, `@else` and `@foreach`, or else an element.  A line that starts like a directive
and does not follow its grammar is an element.

`@include` is recognised here too, but belongs to the expansion of a template and not to its
statements.
-/

namespace IndentHtml

namespace Directive

/-! ### Parts of a directive -/

/-- What follows the run of spaces a text starts with; the run may not be empty. -/
def afterSpaces? : Text → Option Text
  | c :: t => if Text.isSpace c then some (t.dropWhile Text.isSpace) else none
  | [] => none

/-- Holds of a text of spaces only. -/
def isSpaces (t : Text) : Bool :=
  t.all Text.isSpace

/-- The text without the dollar sign it may start with. -/
def dropDollar : Text → Text
  | '$' :: t => t
  | t => t

/-- The name a text starts with and what follows it.  `isChar` says which characters may follow
the first one. -/
def name? (isChar : Char → Bool) (t : Text) : Option (Text × Text) :=
  match dropDollar t with
  | c :: rest =>
      if Text.isWordStart c then some (c :: rest.takeWhile isChar, rest.dropWhile isChar) else none
  | [] => none

/-! ### The directives -/

/-- The path of `@if path`. -/
def condition? (t : Text) : Option Text := do
  let t ← Text.after? "@if".toList t
  let t ← afterSpaces? t
  let (path, t) ← name? Text.isPathChar t
  if isSpaces t then some path else none

/-- The path and the variable of `@foreach path as name`. -/
def loop? (t : Text) : Option (Text × Text) := do
  let t ← Text.after? "@foreach".toList t
  let t ← afterSpaces? t
  let (path, t) ← name? Text.isPathChar t
  let t ← afterSpaces? t
  let t ← Text.after? "as".toList t
  let t ← afterSpaces? t
  let (name, t) ← name? Text.isWordChar t
  if isSpaces t then some (path, name) else none

/-- The text between quotes that a text consists of, if only spaces follow the second quote. -/
def quoted? (t : Text) : Option Text :=
  match t with
  | q :: body =>
      if q = '"' || q = '\'' then
        match Text.cut? q body with
        | some (inner, rest) => if inner.isEmpty || !isSpaces rest then none else some inner
        | none => none
      else none
  | [] => none

/-- The target of `@include "target"`. -/
def include? (t : Text) : Option Text := do
  let t ← Text.after? "@include".toList t
  let t ← afterSpaces? t
  quoted? t

/-- The content of an `@else` line. -/
def otherwise : Text := "@else".toList

end Directive

/-- What a line of a template is. -/
inductive Statement where
  | comment
  | doctype
  | text (content : Text)
  | condition (path : Text)
  | otherwise
  | loop (path name : Text)
  | element (element : Element)
  deriving DecidableEq, Repr

namespace Statement

/-- Classifies the content of a line. -/
def ofContent (t : Text) : Statement :=
  match t with
  | '/' :: '/' :: _ => comment
  | '|' :: content => text (Text.trimLeft content)
  | t =>
      if t = "doctype html".toList then doctype
      else if t = Directive.otherwise then otherwise
      else
        match Directive.condition? t, Directive.loop? t with
        | some path, _ => condition path
        | none, some (path, name) => loop path name
        | none, none => element (Element.ofLine t)

end Statement

end IndentHtml

import IndentHtml.Template.Script
import IndentHtml.Html

/-!
# Rendering

Running a script writes tokens and keeps the stack of open tags.  Before a step does its own work,
every open tag at its level or deeper is closed, so that a line closes its siblings and all that
is nested in them.  After a block the tags opened in it are closed.

A walk is a step on the stack of open tags together with the tokens it writes.  Walks compose, and
a script runs as the composition of its steps.
-/

namespace IndentHtml

open Html (Tag Token)

/-- A step on the stack of open tags, innermost first, and the tokens it writes. -/
abbrev Walk := List Tag → List Token × List Tag

namespace Walk

/-- The walk that does nothing. -/
def idle : Walk := fun stack => ([], stack)

/-- One walk and then another. -/
def andThen (first second : Walk) : Walk := fun stack =>
  let (tokens, stack) := first stack
  let (more, stack) := second stack
  (tokens ++ more, stack)

/-- Writes a token. -/
def write (token : Token) : Walk := fun stack => ([token], stack)

/-- Opens a tag. -/
def openTag (tag : Tag) (attributes : List Html.Attribute) : Walk := fun stack =>
  ([.opening tag attributes], tag :: stack)

/-- Closes the innermost tags as long as they are at a level or deeper. -/
def close (level : Nat) : Walk
  | [] => ([], [])
  | tag :: stack =>
      if level ≤ tag.level then
        let (tokens, stack) := close level stack
        (.closing tag :: tokens, stack)
      else ([], tag :: stack)

/-- One walk for every item of a list, in order. -/
def forEach {α : Type} (walk : α → Walk) : List α → Walk
  | [] => idle
  | a :: as => andThen (walk a) (forEach walk as)

theorem andThen_assoc (a b c : Walk) :
    andThen (andThen a b) c = andThen a (andThen b c) := by
  funext stack
  simp [andThen]

@[simp] theorem idle_andThen (a : Walk) : andThen idle a = a := by
  funext stack
  simp [andThen, idle]

@[simp] theorem andThen_idle (a : Walk) : andThen a idle = a := by
  funext stack
  simp [andThen, idle]

end Walk

/-- What a loop variable stands for: maps and lists as they are, any other value as the only entry
of a map, under `0`. -/
def loopBinding : Value → Value
  | .list xs => .list xs
  | .map entries => .map entries
  | scalar => .map [(['0'], scalar)]

/-- The text of an element or a text line, with the line feed after it. -/
def textToken (scope : Scope) (t : Text) : Token :=
  .text (scope.interpolate t ++ ['\n'])

namespace Script

/-- Runs a script. -/
def run : Script → Scope → Walk
  | done, _ => Walk.idle
  | skip level rest, scope => (Walk.close level).andThen (rest.run scope)
  | doctype level rest, scope =>
      (Walk.close level).andThen ((Walk.write .doctype).andThen (rest.run scope))
  | text level t rest, scope =>
      (Walk.close level).andThen ((Walk.write (textToken scope t)).andThen (rest.run scope))
  | element level e rest, scope =>
      (Walk.close level).andThen
        ((Walk.openTag ⟨e.tag, level⟩ (e.attributes.map scope.resolve)).andThen
          ((Walk.write (textToken scope e.text)).andThen (rest.run scope)))
  | choice level path yes no rest, scope =>
      (Walk.close level).andThen
        ((if scope.isTruthyAt path then yes.run scope else no.run scope).andThen
          ((Walk.close (level + 1)).andThen (rest.run scope)))
  | loop level path name body rest, scope =>
      (Walk.close level).andThen
        ((Walk.forEach
            (fun item => (body.run (scope.bind name (loopBinding item))).andThen
              (Walk.close (level + 1)))
            (scope.itemsAt path)).andThen
          (rest.run scope))

end Script

/-! ### Sessions -/

/-- A page in the making: the tags that are open, innermost first, and the tokens written. -/
structure Page where
  stack : List Tag := []
  tokens : List Token := []
  deriving DecidableEq, Repr

namespace Page

/-- A page nothing has been written to. -/
def empty : Page := {}

/-- Takes a walk on the page. -/
def walk (page : Page) (w : Walk) : Page :=
  let (tokens, stack) := w page.stack
  ⟨stack, page.tokens ++ tokens⟩

/-- Renders lines at the end of the page. -/
def renderLines (page : Page) (scope : Scope) (lines : List Line) : Page :=
  page.walk ((Script.ofLines lines).run scope)

/-- Closes the open tags at a level or deeper. -/
def closeTo (page : Page) (level : Nat) : Page :=
  page.walk (Walk.close level)

/-- What has been written so far. -/
def html (page : Page) : Text :=
  Token.printAll page.tokens

/-- Closes all tags; the result is the finished HTML. -/
def finish (page : Page) : Text :=
  (page.closeTo 0).html

end Page

/-- The HTML of a list of lines. -/
def renderLines (data : Data) (lines : List Line) : Text :=
  (Page.empty.renderLines (Scope.ofData data) lines).finish

end IndentHtml

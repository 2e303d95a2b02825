import IndentHtml.Source.Basic
import IndentHtml.Template.Directive
import IndentHtml.Template.Render

/-!
# Rendering from a source

A template is loaded, its includes are expanded, and the lines are rendered.  A template at a path
is itself the first one on the chain; a template given as a text is on no chain.

Expansion replaces every `@include` line by the lines of its target, each behind the margin of the
`@include` line.  The includes of the target are expanded first, relative to the directory of the
target.

The chain holds the canonical paths of the templates that are being expanded, outermost first.  A
target on the chain is a cycle.  Independently of that, nesting ends at `maxIncludeDepth`.  After
a success the chain is as it was before, and after an error it ends with the templates that were
being expanded when the error arose.
-/

namespace IndentHtml

/-! ### Includes -/

/-- The deepest nesting of includes that is followed. -/
def maxIncludeDepth : Nat := 20

/-- The outcome of an expansion, and the chain as the expansion leaves it. -/
structure Expansion where
  result : Except TemplateError (List Line)
  chain : List Path

namespace Expansion

/-- Puts lines in front of the lines of a successful expansion. -/
def prepend (lines : List Line) (x : Expansion) : Expansion :=
  { x with result := x.result.map (lines ++ ·) }

end Expansion

/-- The target of an include, ready to be expanded. -/
structure IncludeTarget where
  lines : List Line
  /-- The directory its own includes are relative to. -/
  directory : Path
  canonical : Path

namespace Source

/-- Opens the target of an include: it has to exist, to be new on the chain and to be readable,
and is checked in this order. -/
def openTarget (source : Source) (base : Path) (chain : List Path) (target : Text) :
    Except TemplateError IncludeTarget :=
  let path := base.target target
  let canonical := source.canonical path
  if !source.isFile path then .error (.includeNotFound path)
  else if chain.any (Path.same canonical) then .error (.includeCycle path)
  else
    match source.read path with
    | .error cause => .error (.unreadable path cause)
    | .ok t => .ok ⟨Text.lines t, path.parent?.getD base, canonical⟩

/-- Expands the includes of a list of lines, where `enter` expands the lines of a target. -/
def expandWith (source : Source) (enter : List Line → Path → List Path → Expansion)
    (base : Path) (chain : List Path) : List Line → Expansion
  | [] => ⟨.ok [], chain⟩
  | line :: rest =>
      match Directive.include? line.content with
      | none => (expandWith source enter base chain rest).prepend [line]
      | some target =>
          match source.openTarget base chain target with
          | .error e => ⟨.error e, chain⟩
          | .ok t =>
              match enter t.lines t.directory (chain ++ [t.canonical]) with
              | ⟨.error e, inner⟩ => ⟨.error e, inner⟩
              | ⟨.ok ls, _⟩ =>
                  (expandWith source enter base chain rest).prepend (ls.map (line.margin ++ ·))

/-- Expands lines at a depth, as long as the budget of nested includes lasts. -/
def expandWithin (source : Source) :
    (budget depth : Nat) → List Line → Path → List Path → Expansion
  | 0, depth, _, _, chain => ⟨.error (.tooManyIncludes depth), chain⟩
  | budget + 1, depth, lines, base, chain =>
      source.expandWith (source.expandWithin budget (depth + 1)) base chain lines

/-- Expands the includes of a list of lines of a template in the directory `base`. -/
def expandIncludes (source : Source) (lines : List Line) (base : Path) (depth : Nat)
    (chain : List Path) : Expansion :=
  source.expandWithin (maxIncludeDepth + 1 - depth) depth lines base chain

/-! ### Rendering -/

/-- The lines of the template at a path with all includes expanded. -/
def expand (source : Source) (path : Path) : Except TemplateError (List Line) :=
  match source.loadLines path with
  | .error e => .error e
  | .ok lines =>
      (source.expandIncludes lines (path.parent?.getD Path.empty) 0 [source.canonical path]).result

/-- The HTML of the template at a path. -/
def render (source : Source) (path : Path) (data : Data) : Except TemplateError Text :=
  (source.expand path).map (renderLines data)

/-- The HTML of a template given as a text, with includes relative to `base`. -/
def renderText (source : Source) (template : Text) (base : Path) (data : Data) :
    Except TemplateError Text :=
  (source.expandIncludes (Text.lines template) base 0 []).result.map (renderLines data)

end Source

end IndentHtml

import IndentHtml.Path.Normal
import IndentHtml.Template.Line

/-!
# Template sources

A source answers questions about the templates at concrete paths.  What can go wrong when a
template is loaded and its includes are followed is a `TemplateError`.
-/

namespace IndentHtml

/-- Why a template could not be read. -/
inductive ReadFailure where
  /-- A store holds no template under the path. -/
  | notStored (path : Path)
  /-- The content is not Unicode text. -/
  | notText
  /-- The source refuses to hand out the content. -/
  | denied
  deriving DecidableEq, Repr

namespace ReadFailure

/-- The message of a failure. -/
def message : ReadFailure → Text
  | notStored path => "Template not in memory: ".toList ++ path.text
  | notText => "stream did not contain valid UTF-8".toList
  | denied => "denied".toList

end ReadFailure

/-- Why a template could not be loaded with its includes. -/
inductive TemplateError where
  | notFound (path : Path)
  | unreadable (path : Path) (cause : ReadFailure)
  | includeNotFound (path : Path)
  /-- The template at the path is being expanded already. -/
  | includeCycle (path : Path)
  | tooManyIncludes (depth : Nat)
  deriving DecidableEq, Repr

namespace TemplateError

/-- The message of an error. -/
def message : TemplateError → Text
  | notFound path => "Template not found: ".toList ++ path.text
  | unreadable path cause =>
      "Cannot read template '".toList ++ path.text ++ "': ".toList ++ cause.message
  | includeNotFound path => "Include not found: ".toList ++ path.text
  | includeCycle path => "Include cycle detected at: ".toList ++ path.text
  | tooManyIncludes depth =>
      "Too many nested includes (depth ".toList ++ Nat.toDigits 10 depth ++ [')']

end TemplateError

/-- A source of templates.  Its answers depend on the path alone. -/
structure Source where
  /-- Holds when there is a template at the path. -/
  isFile : Path → Bool
  /-- A form of the path that tells whether two paths name one template. -/
  canonical : Path → Path
  /-- The content of the template at the path. -/
  read : Path → Except ReadFailure Text

namespace Source

/-- The lines of the template at a path, includes not followed. -/
def loadLines (source : Source) (path : Path) : Except TemplateError (List Line) :=
  if source.isFile path then
    match source.read path with
    | .ok t => .ok (Text.lines t)
    | .error cause => .error (.unreadable path cause)
  else .error (.notFound path)

end Source

end IndentHtml

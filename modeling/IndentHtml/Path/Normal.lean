import IndentHtml.Path.Basic

/-!
# Normal forms of paths

The normal form of a path has no `.` and no `..`: a `..` takes away the name before it, and nothing
at the front.  Paths with one normal form name the same template of a store.

A target of an include is a text that is joined to the directory of the including template.  Its
backslashes are separators too, and a target with a root of its own is taken as it is.
-/

namespace IndentHtml

/-- A path without `.` and `..`. -/
structure NormalPath where
  absolute : Bool
  /-- The names, outermost first. -/
  names : List Text
  deriving DecidableEq, Repr

namespace NormalPath

/-- The empty path. -/
def empty : NormalPath := ⟨false, []⟩

/-- Goes on by one component. -/
def step (n : NormalPath) : Path.Component → NormalPath
  | .root => ⟨true, []⟩
  | .here => n
  | .up => { n with names := n.names.dropLast }
  | .name t => { n with names := n.names ++ [t] }

/-- The text of a normal path. -/
def text (n : NormalPath) : Text :=
  (if n.absolute then ['/'] else []) ++ List.intercalate ['/'] n.names

/-- A normal path as a path. -/
def toPath (n : NormalPath) : Path := ⟨n.text⟩

end NormalPath

namespace Path

/-- The normal form of a path. -/
def normal (p : Path) : NormalPath :=
  p.components.foldl NormalPath.step NormalPath.empty

/-! ### Include targets -/

/-- Holds of a target with a root of its own: a slash, a backslash, or a drive. -/
def hasOwnRoot (target : Text) : Bool :=
  match target with
  | '/' :: _ => true
  | '\\' :: _ => true
  | drive :: ':' :: '\\' :: _ => Text.isLetter drive
  | _ => false

/-- Holds of the two characters that separate the segments of a target. -/
def isSeparator (c : Char) : Bool :=
  c = '/' || c = '\\'

/-- The path of an include target that was found in a template of the directory `base`. -/
def target (base : Path) (t : Text) : Path :=
  if hasOwnRoot t then ⟨t⟩
  else
    let base := if base.text.isEmpty then ['.'] else base.text
    ⟨(base.reverse.dropWhile isSeparator).reverse ++
      '/' :: t.map fun c => if isSeparator c then '/' else c⟩

end Path

end IndentHtml

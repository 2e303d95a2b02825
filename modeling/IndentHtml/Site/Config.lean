import IndentHtml.Disk
import IndentHtml.Glob.Pattern
import IndentHtml.Toml.Reader

/-!
# Sites

What can go wrong outside the templates themselves: files that cannot be read or written,
configuration and data that are not what they should be.

A site is configured by an optional file in its root directory.  Every section and every key may be
missing and has a default; keys that mean nothing here are ignored.

A section is a table, or an array that lists the values of its keys in order.  A date counts as a
table of keys that mean nothing here.
-/

namespace IndentHtml

/-! ### Errors -/

/-- Why a command could not do its work. -/
inductive SiteError where
  | configUnreadable (path : Path)
  | configInvalid (path : Path)
  | dataUnreadable (path : Path)
  | dataInvalid (path : Path)
  /-- The data file holds a document that is no object. -/
  | dataNotObject (path : Path)
  | badPattern (cause : PatternError)
  /-- A template was found that is not below the templates directory. -/
  | notBelow
  | renderFailed (template : Path) (cause : TemplateError)
  | expandFailed (template : Path) (cause : TemplateError)
  | directoryNotMade (path : Path)
  | fileNotWritten (path : Path)
  /-- A directory that is to be watched is missing. -/
  | nothingToWatch
  deriving DecidableEq, Repr

namespace SiteError

/-- The message of an error, without that of its cause. -/
def message : SiteError → Text
  | configUnreadable path => "Failed to read ".toList ++ path.text
  | configInvalid path => "Invalid configuration in ".toList ++ path.text
  | dataUnreadable path => "Failed to read data file ".toList ++ path.text
  | dataInvalid path => "Invalid JSON in ".toList ++ path.text
  | dataNotObject path =>
      "Data file ".toList ++ path.text ++ " must contain a JSON object".toList
  | badPattern cause => cause.message
  | notBelow => "prefix not found".toList
  | renderFailed template _ => "Failed to render ".toList ++ template.text
  | expandFailed template _ => "Failed to expand ".toList ++ template.text
  | directoryNotMade path => "Failed to create ".toList ++ path.text
  | fileNotWritten path => "Failed to write ".toList ++ path.text
  | nothingToWatch => "No path was found.".toList

/-- The error of a template behind an error, if there is one. -/
def templateError? : SiteError → Option TemplateError
  | renderFailed _ cause => some cause
  | expandFailed _ cause => some cause
  | _ => none

end SiteError

/-! ### Configuration -/

/-- The configuration of a site. -/
structure Config where
  name : Text
  /-- The directory of the templates. -/
  templatesDir : Text
  /-- The directory the pages are written into. -/
  outputDir : Text
  /-- The data file. -/
  data : Option Text
  /-- The extension of templates, without its dot. -/
  extension : Text
  deriving DecidableEq, Repr

namespace Config

/-- The configuration of a site without a configuration file. -/
def default : Config where
  name := "unnamed".toList
  templatesDir := "views".toList
  outputDir := "dist".toList
  data := none
  extension := "pdpug".toList

/-- The name of the configuration file. -/
def fileName : Path := Path.ofString "pdpug.toml"

/-! ### Reading -/

/-- The value of the key at a position of a section; a missing key has none. -/
def field? (fields : Toml) (key : String) (position : Nat) : Option Toml :=
  match fields with
  | .table _ entries => Table.find? entries key.toList
  | .array items => items[position]?
  | _ => none

/-- Holds of the values that can be a section. -/
def isSection : Toml → Bool
  | .table _ _ => true
  | .array _ => true
  | .date => true
  | _ => false

/-- A section of the document; a missing one is an empty table. -/
def section? (entries : Table Toml) (key : String) : Option Toml :=
  match Table.find? entries key.toList with
  | none => some (.table .explicit [])
  | some v => if isSection v then some v else none

/-- A text, or the default for a missing value. -/
def textOr (missing : Text) : Option Toml → Option Text
  | none => some missing
  | some (.text t) => some t
  | some _ => none

/-- A text that may be missing. -/
def optionalText : Option Toml → Option (Option Text)
  | none => some none
  | some (.text t) => some (some t)
  | some _ => none

/-- The configuration that a document describes. -/
def ofToml? (entries : Table Toml) : Option Config := do
  let project ← section? entries "project"
  let render ← section? entries "render"
  let name ← textOr default.name (field? project "name" 0)
  let templatesDir ← textOr default.templatesDir (field? render "templates_dir" 0)
  let outputDir ← textOr default.outputDir (field? render "output_dir" 1)
  let data ← optionalText (field? render "data" 2)
  let extension ← textOr default.extension (field? render "extension" 3)
  pure { name, templatesDir, outputDir, data, extension }

/-- Loads the configuration of the site in a root directory. -/
def load (disk : Disk) (root : Path) : Except SiteError Config :=
  let path := root.join fileName
  if !disk.isPresent path then .ok default
  else
    match disk.readText? path with
    | none => .error (.configUnreadable path)
    | some t =>
        match (Toml.read? t).bind ofToml? with
        | none => .error (.configInvalid path)
        | some config => .ok config

/-- The data file to use: one that is asked for, or else the configured one. -/
def dataFile (config : Config) (requested : Option Path) : Option Path :=
  requested.or (config.data.map Path.mk)

end Config

end IndentHtml

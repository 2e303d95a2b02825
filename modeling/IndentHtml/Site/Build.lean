import IndentHtml.Site.Config
import IndentHtml.Site.Page
import IndentHtml.Glob.Search

/-!
# Building a site

A build renders every template below the templates directory into a page at the same place below
the output directory.  Templates whose file names start with an underscore are partials: they are
counted and not rendered.  The templates come in the order of their paths, and the first one that
fails ends the build; the pages before it stay.
-/

namespace IndentHtml

/-- The settings of a build. -/
structure BuildOptions where
  templatesDir : Path
  outputDir : Path
  data : Option Path
  extension : Text
  deriving DecidableEq, Repr

/-- A page that was built. -/
structure BuiltPage where
  /-- The template, relative to the templates directory. -/
  template : Path
  output : Path
  deriving DecidableEq, Repr

/-- The outcome of a build. -/
structure BuildReport where
  /-- The pages, in the order in which they were written. -/
  pages : List BuiltPage
  /-- The number of partials. -/
  partials : Nat
  deriving DecidableEq, Repr

namespace BuildOptions

/-- The settings for the site in a root directory.  What is asked for goes before what is
configured. -/
def ofConfig (config : Config) (root : Path) (data output : Option Path) : BuildOptions where
  templatesDir := root.join ⟨config.templatesDir⟩
  outputDir := root.join (output.getD ⟨config.outputDir⟩)
  data := (config.dataFile data).map root.join
  extension := config.extension

/-- The text of the pattern for the templates.  Wildcards count in the extension only. -/
def patternText (options : BuildOptions) : Text :=
  GlobPattern.escape options.templatesDir.text ++ "/**/*.".toList ++ options.extension

end BuildOptions

namespace Build

/-- Holds of the path of a partial. -/
def isPartial (path : Path) : Bool :=
  match path.fileName? with
  | some ('_' :: _) => true
  | _ => false

/-- A template that was found, relative to the templates directory.  The search leaves out a
leading `.`. -/
def relative? (options : BuildOptions) (path : Path) : Option Path :=
  (path.relativeTo? options.templatesDir.withoutHere).or
    (path.relativeTo? options.templatesDir)

/-- The page of a template that is given relative to the templates directory. -/
def outputOf (options : BuildOptions) (template : Path) : Path :=
  (options.outputDir.join template).withExtension "html".toList

/-- Renders a template and writes its page. -/
def buildPage (options : BuildOptions) (data : Data) (disk : Disk) (path : Path) :
    Except SiteError BuiltPage × Disk :=
  match relative? options path with
  | none => (.error .notBelow, disk)
  | some template =>
      match disk.source.render path data with
      | .error cause => (.error (.renderFailed template cause), disk)
      | .ok html =>
          let output := outputOf options template
          match disk.writePage output html with
          | (.ok (), disk) => (.ok ⟨template, output⟩, disk)
          | (.error e, disk) => (.error e, disk)

/-- Deals with a template that was found. -/
def visit (options : BuildOptions) (data : Data) (disk : Disk) (report : BuildReport)
    (path : Path) : Except SiteError BuildReport × Disk :=
  if isPartial path then (.ok { report with partials := report.partials + 1 }, disk)
  else
    match buildPage options data disk path with
    | (.ok page, disk) => (.ok { report with pages := report.pages ++ [page] }, disk)
    | (.error e, disk) => (.error e, disk)

/-- Goes through a search and deals with every template it finds. -/
def buildAll (options : BuildOptions) (data : Data) :
    (steps : Nat) → Disk → Search → BuildReport → Except SiteError BuildReport × Disk
  | 0, disk, _, report => (.ok report, disk)
  | steps + 1, disk, search, report =>
      match search.next? disk with
      | none => (.ok report, disk)
      | some (none, rest) => buildAll options data steps disk rest report
      | some (some path, rest) =>
          match visit options data disk report path with
          | (.ok report, disk) => buildAll options data steps disk rest report
          | (.error e, disk) => (.error e, disk)

/-- Builds a site. -/
def run (options : BuildOptions) (disk : Disk) : Except SiteError BuildReport × Disk :=
  match Data.load disk options.data with
  | .error e => (.error e, disk)
  | .ok data =>
      match PathPattern.ofText options.patternText with
      | .error e => (.error (.badPattern e), disk)
      | .ok pattern =>
          buildAll options data (Search.bound disk pattern) disk (Search.start disk pattern) ⟨[], 0⟩

end Build

end IndentHtml

import IndentHtml.Disk
import IndentHtml.Json
import IndentHtml.Site.Config
import IndentHtml.Source.Render
import IndentHtml.Value

/-!
# Single pages

A single template is rendered or expanded from a disk, and a page is written to a disk together
with the directories above it.

The data of a site stands in a file that holds one object.  Without a data file there is no data.
-/

namespace IndentHtml

namespace Data

/-- Loads the data of a data file. -/
def load (disk : Disk) : Option Path → Except SiteError Data
  | none => .ok []
  | some path =>
      match disk.readText? path with
      | none => .error (.dataUnreadable path)
      | some t =>
          match Json.read? t with
          | none => .error (.dataInvalid path)
          | some document =>
              if document.isObject then .ok (ofJson document) else .error (.dataNotObject path)

end Data

namespace Disk

/-- Renders a template with the data of a data file. -/
def renderFile (disk : Disk) (template : Path) (dataFile : Option Path) :
    Except SiteError Text := do
  let data ← Data.load disk dataFile
  match disk.source.render template data with
  | .ok html => .ok html
  | .error cause => .error (.renderFailed template cause)

/-- The text of a template with all includes expanded. -/
def expandFile (disk : Disk) (template : Path) : Except SiteError Text :=
  match disk.source.expand template with
  | .ok lines => .ok (Text.unlines lines)
  | .error cause => .error (.expandFailed template cause)

/-- Writes a text into a file whose directory exists. -/
def writeText (disk : Disk) (path : Path) (t : Text) : Except SiteError Unit × Disk :=
  match disk.write path (.text t) with
  | (true, disk) => (.ok (), disk)
  | (false, disk) => (.error (.fileNotWritten path), disk)

/-- Writes a page and makes the directories above it. -/
def writePage (disk : Disk) (path : Path) (html : Text) : Except SiteError Unit × Disk :=
  match path.parent? with
  | none => disk.writeText path html
  | some parent =>
      match disk.makeDirectories parent with
      | (true, disk) => disk.writeText path html
      | (false, disk) => (.error (.directoryNotMade parent), disk)

end Disk

end IndentHtml

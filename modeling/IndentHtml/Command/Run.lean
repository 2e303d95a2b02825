import IndentHtml.Command.Line
import IndentHtml.Site.Build

/-!
# Running a command

A command is run on a disk.  It leaves an exit code, what it prints, and the changed disk.  An
error ends a command with exit code 1, after what has been printed before; a command line without
a reading ends with exit code 2.

What a build prints has a place for the time it took, which is measured outside.  A time is written
with two decimal places in the largest unit of which it holds at least one.
-/

namespace IndentHtml

/-- A part of what a run prints. -/
inductive Printed where
  | text (t : Text)
  /-- The time the run took. -/
  | elapsed
  deriving DecidableEq, Repr

/-- What a run of the program leaves besides the disk. -/
structure Outcome where
  exitCode : Nat := 0
  output : List Printed := []
  errors : Text := []
  /-- The settings of a site that is to be watched from now on. -/
  watched : Option BuildOptions := none
  deriving DecidableEq, Repr

namespace Outcome

/-- What a run printed, with the time it took. -/
def outputText (o : Outcome) (elapsed : Text) : Text :=
  o.output.flatMap fun part =>
    match part with
    | .text t => t
    | .elapsed => elapsed

/-- The text about a build that failed while its site is watched. -/
def buildFailedText (e : SiteError) : Text :=
  "Build failed: ".toList ++ e.message ++
    match e.templateError? with
    | some cause => ": ".toList ++ cause.message ++ ['\n']
    | none => ['\n']

/-- A run that printed something and succeeded. -/
def success (output : List Printed) : Outcome := { output }

/-- The text of an error with its cause. -/
def errorText (e : SiteError) : Text :=
  "Error: ".toList ++ e.message ++
    match e.templateError? with
    | some cause => "\n\nCaused by:\n    ".toList ++ cause.message ++ ['\n']
    | none => ['\n']

/-- A run that printed something and then failed. -/
def failure (e : SiteError) (output : List Printed) : Outcome :=
  { exitCode := 1, output, errors := errorText e }

end Outcome

namespace Command

/-- The directory of the site. -/
def root : Path := Path.ofString "."

/-- A decimal number. -/
def number (n : Nat) : Text := Nat.toDigits 10 n

/-- A line, with its end. -/
def line (parts : List Text) : Text := parts.flatten ++ ['\n']

/-! ### Single templates -/

/-- Renders a template. -/
def runRender (disk : Disk) (template : Path) (data output : Option Path) : Outcome × Disk :=
  match Config.load disk root with
  | .error e => (.failure e [], disk)
  | .ok config =>
      match disk.renderFile template (config.dataFile data) with
      | .error e => (.failure e [], disk)
      | .ok html =>
          match output with
          | none => (.success [.text html], disk)
          | some path =>
              match disk.writePage path html with
              | (.ok (), disk) => (.success [], disk)
              | (.error e, disk) => (.failure e [], disk)

/-- Prints a template with its includes expanded. -/
def runExpand (disk : Disk) (template : Path) : Outcome :=
  match disk.expandFile template with
  | .error e => .failure e []
  | .ok t => .success [.text (t ++ ['\n'])]

/-! ### Sites -/

/-- What is printed before a build. -/
def announcement (options : BuildOptions) : Printed :=
  .text (line ["Building templates from: ".toList, options.templatesDir.text])

/-- What is printed about a page. -/
def pageLine (page : BuiltPage) : Text :=
  line ["  ✓ ".toList, page.template.text, " -> ".toList, page.output.text]

/-- What is printed after a build. -/
def summary (options : BuildOptions) (report : BuildReport) : List Printed :=
  if report.pages.isEmpty then
    [.text (line ["No templates found in ".toList, options.templatesDir.text])]
  else
    [.text (report.pages.flatMap pageLine),
      .text ("Built ".toList ++ number report.pages.length ++ " page(s) in ".toList),
      .elapsed,
      .text (line [" (".toList, number report.partials, " partial(s) skipped)".toList])]

/-- Builds a site and prints about it. -/
def buildSite (disk : Disk) (options : BuildOptions) : Outcome × Disk :=
  match Build.run options disk with
  | (.ok report, disk) => (.success (announcement options :: summary options report), disk)
  | (.error e, disk) => (.failure e [announcement options], disk)

/-- Builds the site of the working directory. -/
def runBuild (disk : Disk) (data output : Option Path) : Outcome × Disk :=
  match Config.load disk root with
  | .error e => (.failure e [], disk)
  | .ok config => buildSite disk (.ofConfig config root data output)

/-- Holds when the directories to watch are there: that of the templates, and that of the data
file. -/
def canWatch (disk : Disk) (options : BuildOptions) : Bool :=
  disk.isPresent options.templatesDir &&
    options.data.all fun path => ((disk.canonical path).parent?).all fun directory =>
      disk.isPresent directory

/-- Builds a watched site.  A build that fails is only reported. -/
def rebuild (disk : Disk) (options : BuildOptions) : Outcome × Disk :=
  match Build.run options disk with
  | (.ok report, disk) => (.success (announcement options :: summary options report), disk)
  | (.error e, disk) =>
      ({ output := [announcement options], errors := Outcome.buildFailedText e }, disk)

/-- Builds the site and gets ready to watch it. -/
def runWatch (disk : Disk) (data output : Option Path) : Outcome × Disk :=
  match Config.load disk root with
  | .error e => (.failure e [], disk)
  | .ok config =>
      let options := BuildOptions.ofConfig config root data output
      let (first, disk) := rebuild disk options
      if canWatch disk options then ({ first with watched := some options }, disk)
      else
        let failed := Outcome.failure .nothingToWatch first.output
        ({ failed with errors := first.errors ++ failed.errors }, disk)

/-- Runs a command. -/
def run (disk : Disk) : Command → Outcome × Disk
  | .render template data output => runRender disk template data output
  | .expand template => (runExpand disk template, disk)
  | .build data output => runBuild disk data output
  | .watch data output => runWatch disk data output

end Command

namespace Request

/-- What is printed for help. -/
def helpText : Text :=
  Command.line ["Usage: pdpug [--log-level <LEVEL>] <COMMAND>".toList] ++
    Command.line [] ++
    Command.line ["Commands:".toList] ++
    Command.line ["  render <TEMPLATE> [-d <DATA>] [-o <OUTPUT>]".toList] ++
    Command.line ["  expand <TEMPLATE>".toList] ++
    Command.line ["  build [-d <DATA>] [-o <OUTPUT>]".toList] ++
    Command.line ["  watch [-d <DATA>] [-o <OUTPUT>]".toList]

/-- What is printed for the version. -/
def versionText : Text := "pdpug 0.1.0\n".toList

/-- Runs the program with its arguments. -/
def run (disk : Disk) (args : List Text) : Outcome × Disk :=
  match read? args with
  | none => ({ exitCode := 2, errors := helpText }, disk)
  | some .help => (.success [.text helpText], disk)
  | some .version => (.success [.text versionText], disk)
  | some (.command c) => c.run disk

end Request

/-! ### Elapsed time -/

namespace Elapsed

/-- The text of a number of nanoseconds in a unit of so many nanoseconds; a half of the last place
goes up. -/
def inUnit (unit : Nat) (name : String) (nanoseconds : Nat) : Text :=
  let hundredths := (nanoseconds * 200 + unit) / (2 * unit)
  let places := hundredths % 100
  Nat.toDigits 10 (hundredths / 100) ++
    '.' :: ((if places < 10 then ['0'] else []) ++ Nat.toDigits 10 places ++ name.toList)

/-- The text of a number of nanoseconds. -/
def toText (nanoseconds : Nat) : Text :=
  if 1000000000 ≤ nanoseconds then inUnit 1000000000 "s" nanoseconds
  else if 1000000 ≤ nanoseconds then inUnit 1000000 "ms" nanoseconds
  else if 1000 ≤ nanoseconds then inUnit 1000 "µs" nanoseconds
  else inUnit 1 "ns" nanoseconds

end Elapsed

end IndentHtml

import IndentHtml.Path.Basic

/-!
# Command lines

A command line names one of four commands.  Options may stand before and after the template, and
everything after `--` is taken as it is.  An option takes its value from its own argument or from
the next one, which must then not look like an option itself.  Asking for help or for the version
ends the reading where it stands.

A command line that follows no rule has no reading.
-/

namespace IndentHtml

/-- What the program is asked to do. -/
inductive Command where
  /-- Render a template, with data from a file, into a file or to the output. -/
  | render (template : Path) (data output : Option Path)
  /-- Print a template with its includes expanded. -/
  | expand (template : Path)
  /-- Render all templates of the site. -/
  | build (data output : Option Path)
  /-- Build the site, and again whenever a template or the data change. -/
  | watch (data output : Option Path)
  deriving DecidableEq, Repr

/-- The reading of a command line. -/
inductive Request where
  | command (command : Command)
  | help
  | version
  deriving DecidableEq, Repr

namespace Request

/-- The names of the commands. -/
inductive Verb where
  | render
  | expand
  | build
  | watch
  deriving DecidableEq, Repr

namespace Verb

/-- The command with a name. -/
def ofName? (t : Text) : Option Verb :=
  if t = "render".toList then some render
  else if t = "expand".toList then some expand
  else if t = "build".toList then some build
  else if t = "watch".toList then some watch
  else none

/-- Holds of the commands that take a template. -/
def takesTemplate : Verb → Bool
  | render => true
  | expand => true
  | _ => false

/-- Holds of the commands that take a data file and an output. -/
def takesFiles : Verb → Bool
  | expand => false
  | _ => true

end Verb

/-- An option that takes a value. -/
inductive Setting where
  | data
  | output
  | logLevel
  deriving DecidableEq, Repr

namespace Setting

/-- The setting of a long option of a command; outside of a command only one is known. -/
def ofName? (verb : Option Verb) (t : Text) : Option Setting :=
  let files := verb.any Verb.takesFiles
  if t = "log-level".toList then some logLevel
  else if files && t = "data".toList then some data
  else if files && t = "output".toList then some output
  else none

/-- The setting of a short option of a command. -/
def ofLetter? (verb : Option Verb) (c : Char) : Option Setting :=
  let files := verb.any Verb.takesFiles
  if files && c = 'd' then some data
  else if files && c = 'o' then some output
  else none

end Setting

/-- The arguments of one command that have been read. -/
structure Arguments where
  template : Option Path := none
  data : Option Path := none
  output : Option Path := none
  /-- Whether a log level was given. -/
  hasLogLevel : Bool := false
  deriving DecidableEq, Repr

namespace Arguments

/-- A path as a value; it may not be empty. -/
def path? (t : Text) : Option Path :=
  if t.isEmpty then none else some ⟨t⟩

/-- Gives a setting its value.  Nothing is set twice. -/
def set? (as : Arguments) (setting : Setting) (value : Text) : Option Arguments :=
  match setting with
  | .logLevel => if as.hasLogLevel then none else some { as with hasLogLevel := true }
  | .data =>
      if as.data.isSome then none
      else (path? value).map fun p => { as with data := some p }
  | .output =>
      if as.output.isSome then none
      else (path? value).map fun p => { as with output := some p }

/-- Takes an argument that is no option. -/
def takePositional? (as : Arguments) (verb : Verb) (t : Text) : Option Arguments :=
  if verb.takesTemplate && as.template.isNone then
    (path? t).map fun p => { as with template := some p }
  else none

/-- Takes all remaining arguments as no options. -/
def takePositionals? (verb : Verb) : Arguments → List Text → Option Arguments
  | as, [] => some as
  | as, t :: ts => (as.takePositional? verb t).bind fun as => takePositionals? verb as ts

/-- The command of a name and its arguments. -/
def command? (verb : Verb) (as : Arguments) : Option Command :=
  match verb with
  | .render => as.template.map fun template => .render template as.data as.output
  | .expand => as.template.map .expand
  | .build => some (.build as.data as.output)
  | .watch => some (.watch as.data as.output)

end Arguments

/-! ### Options -/

/-- Holds of an argument that can be the value of the option before it. -/
def canBeValue (t : Text) : Bool :=
  match t with
  | '-' :: _ :: _ => false
  | _ => true

/-- What an argument is. -/
inductive Argument where
  /-- The mark after which nothing is an option. -/
  | endOfOptions
  | help
  | version
  /-- A setting, with its value if the argument holds it. -/
  | setting (setting : Setting) (value : Option Text)
  | positional (t : Text)
  | unknown
  deriving DecidableEq, Repr

namespace Argument

/-- Reads a long option. -/
def ofLong (verb : Option Verb) (t : Text) : Argument :=
  let (name, value) : Text × Option Text :=
    match Text.cut? '=' t with
    | some (name, value) => (name, some value)
    | none => (t, none)
  match Setting.ofName? verb name with
  | some s => setting s value
  | none =>
      if value.isSome then unknown
      else if name = "help".toList then help
      else if verb.isNone && name = "version".toList then version
      else unknown

/-- Reads short options. -/
def ofShort (verb : Option Verb) (c : Char) (t : Text) : Argument :=
  match Setting.ofLetter? verb c with
  | some s =>
      match t with
      | [] => setting s none
      | '=' :: value => setting s (some value)
      | value => setting s (some value)
  | none =>
      if c = 'h' then help
      else if verb.isNone && c = 'V' then version
      else unknown

/-- Reads an argument, of a command or before any. -/
def ofText (verb : Option Verb) (t : Text) : Argument :=
  match t with
  | '-' :: '-' :: [] => endOfOptions
  | '-' :: '-' :: long => ofLong verb long
  | '-' :: c :: rest => ofShort verb c rest
  | t => positional t

end Argument

/-- Reads the arguments of a command. -/
def ofArguments? (verb : Verb) : Arguments → List Text → Option Request
  | as, [] => (as.command? verb).map .command
  | as, t :: ts =>
      match Argument.ofText (some verb) t with
      | .help => some .help
      | .version => some .version
      | .unknown => none
      | .endOfOptions =>
          ((as.takePositionals? verb ts).bind (Arguments.command? verb)).map .command
      | .positional t => (as.takePositional? verb t).bind fun as => ofArguments? verb as ts
      | .setting s (some value) => (as.set? s value).bind fun as => ofArguments? verb as ts
      | .setting s none =>
          match ts with
          | [] => none
          | value :: ts =>
              if canBeValue value then (as.set? s value).bind fun as => ofArguments? verb as ts
              else none

/-- Reads what follows the word that asks for help. -/
def ofHelp? : List Text → Option Request
  | [] => some .help
  | [topic] =>
      if topic = "help".toList || (Verb.ofName? topic).isSome then some .help else none
  | _ => none

/-- Reads a command line. -/
def ofLine? : Arguments → List Text → Option Request
  | _, [] => none
  | as, t :: ts =>
      match Argument.ofText none t with
      | .help => some .help
      | .version => some .version
      | .unknown => none
      | .endOfOptions => none
      | .positional t =>
          if t = "help".toList then ofHelp? ts
          else (Verb.ofName? t).bind fun verb => ofArguments? verb {} ts
      | .setting s (some value) => (as.set? s value).bind fun as => ofLine? as ts
      | .setting s none =>
          match ts with
          | [] => none
          | value :: ts =>
              if canBeValue value then (as.set? s value).bind fun as => ofLine? as ts else none

/-- Reads the arguments of the program. -/
def read? (args : List Text) : Option Request :=
  ofLine? {} args

end Request

end IndentHtml

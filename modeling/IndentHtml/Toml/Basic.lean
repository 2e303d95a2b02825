import IndentHtml.Table

/-!
# Configuration documents

A configuration document is a tree of tables.  Only its texts matter here; numbers, booleans and
dates are read without their content.

A table comes into being in one of four ways, and this decides who may add to it.  A header makes
an explicit table and the tables above it implicit ones; an implicit table may get a header of its
own later.  A dotted key makes dotted tables, which further dotted keys may add to.  An inline
table is complete as it stands.
-/

namespace IndentHtml

/-- How a table came into being. -/
inductive TableKind where
  | explicit
  | implicit
  | dotted
  | inline
  deriving DecidableEq, Repr

/-- A value of a configuration document. -/
inductive Toml where
  | text (t : Text)
  /-- A number or a boolean. -/
  | scalar
  /-- A date, a time or both. -/
  | date
  | array (items : List Toml)
  | table (kind : TableKind) (entries : List (Text × Toml))
  /-- The tables under a repeated header, the last one first. -/
  | tables (last : List (Text × Toml)) (earlier : List (List (Text × Toml)))
  deriving Inhabited

namespace Toml

/-- Puts a value under a new key of a table. -/
def insertNew (entries : Table Toml) (key : Text) (v : Toml) : Option (Table Toml) :=
  if entries.contains key then none else some (entries.insert key v)

/-- Puts a value under a new dotted key, where `path` holds the parts before the last one. -/
def insertDotted (entries : Table Toml) : (path : List Text) → (key : Text) → Toml →
    Option (Table Toml)
  | [], key, v => insertNew entries key v
  | k :: path, key, v =>
      match entries.find? k with
      | none => (insertDotted [] path key v).map fun t => entries.insert k (.table .dotted t)
      | some (.table .dotted inner) =>
          (insertDotted inner path key v).map fun t => entries.insert k (.table .dotted t)
      | some (.table .implicit inner) =>
          if path.isEmpty then none
          else (insertDotted inner path key v).map fun t => entries.insert k (.table .implicit t)
      | some (.tables last earlier) =>
          if path.isEmpty then none
          else (insertDotted last path key v).map fun t => entries.insert k (.tables t earlier)
      | _ => none

/-- Changes what is under a path of headers.  Missing tables on the way are made as implicit
ones. -/
def change (entries : Table Toml) (f : Option Toml → Option Toml) :
    (path : List Text) → (key : Text) → Option (Table Toml)
  | [], key => (f (entries.find? key)).map fun v => entries.insert key v
  | k :: path, key =>
      match entries.find? k with
      | none => (change [] f path key).map fun t => entries.insert k (.table .implicit t)
      | some (.table .inline _) => none
      | some (.table kind inner) =>
          (change inner f path key).map fun t => entries.insert k (.table kind t)
      | some (.tables last earlier) =>
          (change last f path key).map fun t => entries.insert k (.tables t earlier)
      | _ => none

/-- A line of a document, as far as it changes the table it is in. -/
structure Assignment where
  /-- The parts of the key before the last one. -/
  path : List Text
  key : Text
  value : Toml

/-- A table without entries yet. -/
def noEntries : Table Toml := []

/-- Carries out assignments in a table. -/
def assign (entries : Table Toml) : List Assignment → Option (Table Toml)
  | [] => some entries
  | a :: as => (insertDotted entries a.path a.key a.value).bind fun t => assign t as

/-- The header of a section. -/
inductive Header where
  /-- The table under a path and a key. -/
  | single (path : List Text) (key : Text)
  /-- One more of the tables under a path and a key. -/
  | repeated (path : List Text) (key : Text)

/-- A header and the assignments below it. -/
structure Section where
  header : Header
  assignments : List Assignment

/-- Adds a section to a document. -/
def addSection (entries : Table Toml) (s : Section) : Option (Table Toml) :=
  match s.header with
  | .single path key =>
      change entries (fun found =>
        match found with
        | none => (assign noEntries s.assignments).map (.table .explicit)
        | some (.table .implicit inner) => (assign inner s.assignments).map (.table .explicit)
        | some _ => none) path key
  | .repeated path key =>
      change entries (fun found =>
        match found with
        | none => (assign noEntries s.assignments).map fun t => .tables t []
        | some (.tables last earlier) =>
            (assign noEntries s.assignments).map fun t => .tables t (last :: earlier)
        | some _ => none) path key

/-- The document of the assignments before the first header and the sections after them. -/
def ofSections (first : List Assignment) (sections : List Section) : Option (Table Toml) :=
  sections.foldl (fun entries? s => entries?.bind fun entries => addSection entries s)
    (assign noEntries first)

end Toml

end IndentHtml

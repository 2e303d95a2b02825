import IndentHtml.Path.Basic

/-!
# Patterns for file names

A pattern describes names: `?` stands for any character, `*` for any run of characters, and `[..]`
and `[!..]` for a character in or outside a class.  A component `**` stands for any number of
directories.  No wildcard treats a leading dot specially.

A pattern for paths is read as a whole first and then component by component.  What is wrong with
it is a `PatternError`, whose position counts characters.
-/

namespace IndentHtml

/-- An item of a character class. -/
inductive ClassItem where
  | single (c : Char)
  | range (low high : Char)
  deriving DecidableEq, Repr

namespace ClassItem

/-- Holds of the characters an item stands for. -/
def holds : ClassItem → Char → Bool
  | single c, d => decide (c = d)
  | range low high, d => decide (low ≤ d) && decide (d ≤ high)

/-- The items of the text of a class.  A hyphen between two characters makes a range. -/
def ofText : Text → List ClassItem
  | low :: '-' :: high :: rest => range low high :: ofText rest
  | c :: rest => single c :: ofText rest
  | [] => []

end ClassItem

/-- An element of a pattern. -/
inductive GlobToken where
  | char (c : Char)
  /-- Any one character. -/
  | anyChar
  /-- Any run of characters. -/
  | anyRun
  /-- Any number of directories. -/
  | anyDirectories
  | oneOf (items : List ClassItem)
  | noneOf (items : List ClassItem)
  deriving DecidableEq, Repr

/-- What is wrong with a pattern. -/
inductive PatternFault where
  /-- Three or more stars in a row. -/
  | manyStars
  /-- Two stars that are not a component of their own. -/
  | misplacedDirectories
  /-- A bracket that starts no class. -/
  | brokenClass
  deriving DecidableEq, Repr

/-- A fault of a pattern and where it is. -/
structure PatternError where
  position : Nat
  fault : PatternFault
  deriving DecidableEq, Repr

namespace PatternError

/-- The message of an error. -/
def message (e : PatternError) : Text :=
  "Pattern syntax error near position ".toList ++ Nat.toDigits 10 e.position ++ ": ".toList ++
    match e.fault with
    | .manyStars => "wildcards are either regular `*` or recursive `**`".toList
    | .misplacedDirectories => "recursive wildcards must form a single path component".toList
    | .brokenClass => "invalid range pattern".toList

end PatternError

/-- A pattern, as its elements. -/
abbrev GlobPattern := List GlobToken

namespace GlobPattern

/-! ### Reading -/

/-- Splits a text at the first `]` that is not its first character. -/
def classText? : Text → Option (Text × Text)
  | [] => none
  | c :: rest => (Text.cut? ']' rest).map fun p => (c :: p.1, p.2)

/-- Reads the class after an opening bracket. -/
def class? : Text → Option (GlobToken × Text)
  | '!' :: rest => (classText? rest).map fun p => (.noneOf (ClassItem.ofText p.1), p.2)
  | rest => (classText? rest).map fun p => (.oneOf (ClassItem.ofText p.1), p.2)

/-- Reads a pattern.  `position` is the number of characters before the text, and `atStart` says
whether the text starts a component. -/
def read : (fuel position : Nat) → (atStart : Bool) → Text → Except PatternError GlobPattern
  | 0, _, _, _ => .ok []
  | _ + 1, _, _, [] => .ok []
  | fuel + 1, position, atStart, c :: rest =>
      if c = '?' then (read fuel (position + 1) false rest).map (.anyChar :: ·)
      else if c = '*' then
        match rest with
        | '*' :: '*' :: _ => .error ⟨position + 2, .manyStars⟩
        | '*' :: after =>
            if !atStart then .error ⟨position - 1, .misplacedDirectories⟩
            else
              match after with
              | [] => .ok [.anyDirectories]
              | '/' :: more => (read fuel (position + 3) true more).map (.anyDirectories :: ·)
              | _ => .error ⟨position + 2, .misplacedDirectories⟩
        | _ => (read fuel (position + 1) false rest).map (.anyRun :: ·)
      else if c = '[' then
        match class? rest with
        | none => .error ⟨position, .brokenClass⟩
        | some (token, more) =>
            (read fuel (position + (c :: rest).length - more.length) false more).map (token :: ·)
      else (read fuel (position + 1) (c = '/') rest).map (.char c :: ·)

/-- The pattern of a text. -/
def ofText (t : Text) : Except PatternError GlobPattern :=
  read t.length 0 true t

/-- A text in which no character is a wildcard. -/
def escape (t : Text) : Text :=
  t.flatMap fun c =>
    if c = '?' || c = '*' || c = '[' || c = ']' then ['[', c, ']'] else [c]

/-- The text that a pattern without wildcards stands for. -/
def literal? : GlobPattern → Option Text
  | [] => some []
  | .char c :: p => (literal? p).map (c :: ·)
  | _ :: _ => none

/-- Holds of a pattern that stands for any number of directories. -/
def isRecursive (p : GlobPattern) : Bool :=
  p.contains .anyDirectories

/-! ### Matching -/

/-- Holds when a test holds of the text or of what is left of it after some characters. -/
def anySuffix (test : Text → Bool) : Text → Bool
  | [] => test []
  | c :: t => test (c :: t) || anySuffix test t

/-- Holds of the names a pattern stands for. -/
def holds : GlobPattern → Text → Bool
  | [], [] => true
  | [], _ :: _ => false
  | .char c :: p, name =>
      match name with
      | d :: rest => decide (c = d) && holds p rest
      | [] => false
  | .anyChar :: p, name =>
      match name with
      | _ :: rest => holds p rest
      | [] => false
  | .oneOf items :: p, name =>
      match name with
      | d :: rest => items.any (·.holds d) && holds p rest
      | [] => false
  | .noneOf items :: p, name =>
      match name with
      | d :: rest => !items.any (·.holds d) && holds p rest
      | [] => false
  | .anyRun :: p, name => anySuffix (holds p) name
  | .anyDirectories :: p, name => anySuffix (holds p) name

end GlobPattern

/-- A pattern for paths: one pattern for each component. -/
structure PathPattern where
  /-- Holds of a pattern that starts at the top of the disk. -/
  absolute : Bool
  components : List GlobPattern
  /-- Holds of a pattern that stands for directories only. -/
  directoriesOnly : Bool
  deriving DecidableEq, Repr

namespace PathPattern

/-- The texts between slashes, without an empty one at the end. -/
def parts (t : Text) : List Text :=
  let ps := List.splitOn '/' t
  if (ps.getLastD []).isEmpty then ps.dropLast else ps

/-- Reads the patterns of a list of components. -/
def readAll : List Text → Except PatternError (List GlobPattern)
  | [] => .ok []
  | t :: ts => do
      let p ← GlobPattern.ofText t
      let ps ← readAll ts
      pure (p :: ps)

/-- Reads a pattern for paths. -/
def ofText (t : Text) : Except PatternError PathPattern := do
  let _ ← GlobPattern.ofText t
  let (absolute, rest) : Bool × Text :=
    match t with
    | '/' :: rest => (true, rest)
    | rest => (false, rest)
  let components ← readAll (parts rest)
  pure
    { absolute
      components := if absolute && rest.isEmpty then [[]] else components
      directoriesOnly := t.getLast? = some '/' }

end PathPattern

end IndentHtml

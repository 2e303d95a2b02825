import IndentHtml.Disk
import IndentHtml.Glob.Pattern

/-!
# Searching a disk

A search looks for the paths of a pattern on a disk, in the order of their components.  It keeps
the paths that are still to be looked at, each with the patterns its last name and the names below
it have to match.  A directory is listed only when its turn comes, so a search sees what has been
written to the disk before.

A component without wildcards is followed and not searched for.  A directory that matches the whole
pattern is found before what is in it.
-/

namespace IndentHtml

/-- A path that is still to be looked at.  With no patterns left it is one of the paths searched
for. -/
structure Candidate where
  path : Path
  patterns : List GlobPattern
  deriving DecidableEq, Repr

namespace Candidate

/-- Holds of the path of the directory a relative search starts from. -/
def isHere (p : Path) : Bool :=
  Path.same p ⟨['.']⟩

/-- A name below a path; below the starting directory it stands alone. -/
def below (p : Path) (name : Text) : Path :=
  if isHere p then ⟨name⟩ else p.join ⟨name⟩

/-- The candidates below a path for the patterns of the names below it. -/
def ofPath (disk : Disk) (p : Path) : List GlobPattern → List Candidate
  | [] => [⟨p, []⟩]
  | pattern :: patterns =>
      match pattern.literal? with
      | some name =>
          let isSpecial := name = ['.'] || name = ['.', '.']
          if isSpecial && disk.isDirectory p || !isSpecial && disk.isPresent (below p name) then
            ofPath disk (below p name) patterns
          else []
      | none =>
          if disk.isDirectory p then
            let special (name : Text) : List Candidate :=
              if pattern.head? = some (.char '.') && pattern.holds name then
                ofPath disk (p.join ⟨name⟩) patterns
              else []
            special ['.', '.'] ++ special ['.'] ++
              (disk.names p).map fun name => ⟨below p name, pattern :: patterns⟩
          else []

/-- What remains of a list of patterns after the recursive ones at its head, and the last of
these. -/
def splitRecursive : GlobPattern → List GlobPattern → GlobPattern × List GlobPattern
  | last, [] => (last, [])
  | last, p :: ps => if p.isRecursive then splitRecursive p ps else (last, p :: ps)

/-- Matches the name of a path against the first of the patterns: the path if it is found, and the
candidates below it. -/
def matchName (disk : Disk) (directoriesOnly : Bool) (path : Path) :
    List GlobPattern → Option Path × List Candidate
  | [] => (none, [])
  | pattern :: patterns =>
      match path.fileName? with
      | none => (none, [])
      | some name =>
          if !pattern.holds name then (none, [])
          else if patterns.isEmpty then
            (if !directoriesOnly || disk.isDirectory path then some path else none, [])
          else (none, ofPath disk path patterns)

/-- Looks at a candidate: the path if it is found, and the candidates below it. -/
def look (disk : Disk) (directoriesOnly : Bool) (c : Candidate) :
    Option Path × List Candidate :=
  match c.patterns with
  | [] => (if !directoriesOnly || disk.isDirectory c.path then some c.path else none, [])
  | pattern :: patterns =>
      if pattern.isRecursive then
        let (last, rest) := splitRecursive pattern patterns
        if disk.isDirectory c.path then
          let inside := ofPath disk c.path (last :: rest)
          if rest.isEmpty then (some c.path, inside)
          else
            let (found, more) := matchName disk directoriesOnly c.path rest
            (found, more ++ inside)
        else matchName disk directoriesOnly c.path rest
      else matchName disk directoriesOnly c.path (pattern :: patterns)

end Candidate

/-- A search under way. -/
structure Search where
  directoriesOnly : Bool
  /-- The candidates, in the order in which they are looked at. -/
  candidates : List Candidate
  deriving DecidableEq, Repr

namespace Search

/-- The search for the paths of a pattern. -/
def start (disk : Disk) (pattern : PathPattern) : Search :=
  ⟨pattern.directoriesOnly,
    Candidate.ofPath disk ⟨if pattern.absolute then ['/'] else ['.']⟩ pattern.components⟩

/-- Looks at the next candidate: the path if it is found, and the search that goes on.  A search
without candidates is over. -/
def next? (disk : Disk) (search : Search) : Option (Option Path × Search) :=
  match search.candidates with
  | [] => none
  | c :: cs =>
      let (found, inside) := c.look disk search.directoriesOnly
      some (found, { search with candidates := inside ++ cs })

/-- A number of steps in which a search on a disk is over. -/
def bound (disk : Disk) (pattern : PathPattern) : Nat :=
  Nat.pow (disk.root.size + 2) (pattern.components.length + 2)

/-- The paths found in at most a number of steps on one disk. -/
def paths (disk : Disk) : (steps : Nat) → Search → List Path
  | 0, _ => []
  | steps + 1, search =>
      match search.next? disk with
      | none => []
      | some (found, rest) => found.toList ++ paths disk steps rest

end Search

end IndentHtml

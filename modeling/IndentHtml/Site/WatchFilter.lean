import IndentHtml.Disk

/-!
# Watched files

While a site is watched, a change of a file asks for a new build when the file is a template by its
extension or when it is the data file.  What has changed is found by comparing two states of a disk
file by file.
-/

namespace IndentHtml

/-- Which changed files ask for a new build. -/
structure WatchFilter where
  /-- The extension of templates, without its dot. -/
  extension : Text
  dataFile : Option Path

namespace WatchFilter

/-- Holds when a change of the file at a path asks for a new build. -/
def isRelevant (filter : WatchFilter) (path : Path) : Bool :=
  filter.dataFile.any (Path.same path) || decide (path.extension? = some filter.extension)

end WatchFilter

/-! ### Changes between disks -/

namespace Node

mutual

/-- The files below a node whose own path is `base`, with their contents. -/
def files (base : Text) : Node → List (Text × Content)
  | file content => [(base, content)]
  | directory entries => filesOfEntries base entries

/-- The files of a list of entries. -/
def filesOfEntries (base : Text) : List (Text × Node) → List (Text × Content)
  | [] => []
  | (name, child) :: entries =>
      files (base ++ '/' :: name) child ++ filesOfEntries base entries

end

end Node

namespace Disk

/-- The files of one list that another list does not hold with the same content. -/
def missingFrom (there : List (Text × Content)) (here : List (Text × Content)) : List Path :=
  (here.filter fun entry => decide (there.lookup entry.1 ≠ some entry.2)).map fun entry =>
    ⟨entry.1⟩

/-- The absolute paths of the files that were made, changed or taken away. -/
def changes (old new : Disk) : List Path :=
  let before := old.root.files []
  let after := new.root.files []
  let written := missingFrom before after
  written ++ (missingFrom after before).filter fun p => !written.contains p

end Disk

end IndentHtml

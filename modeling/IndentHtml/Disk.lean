import IndentHtml.Source.Basic
import IndentHtml.Table

/-!
# Disks

A disk is a tree of directories and files together with the directory that relative paths start
from.  A path is followed segment by segment through directories that exist: `missing/../a` leads
nowhere, and neither does `a/` when `a` is a file.  At the top `..` stays where it is.  Names and
paths have a greatest length, counted in the bytes of their encoding.

A location is the list of names from the top to a node.  It names the node in exactly one way.

The templates of a disk are its files.  Two paths name one template when they lead to one
location.
-/

namespace IndentHtml

/-- What a file holds: Unicode text, or other bytes. -/
inductive Content where
  | text (t : Text)
  | bytes (raw : List UInt8)
  deriving DecidableEq, Repr

/-- A file or a directory.  The entries of a directory are a `Table`. -/
inductive Node where
  | file (content : Content)
  | directory (entries : List (Text × Node))
  deriving Inhabited

namespace Node

/-- The directory without entries. -/
def emptyDirectory : Node := directory []

/-- Holds of a directory. -/
def isDirectory : Node → Bool
  | directory _ => true
  | file _ => false

/-- The entry of a directory under a name. -/
def child? : Node → Text → Option Node
  | directory entries, name => Table.find? entries name
  | file _, _ => none

/-- The node at a location. -/
def at? (node : Node) : List Text → Option Node
  | [] => some node
  | name :: names => (node.child? name).bind fun child => child.at? names

/-- Puts a node at a location.  Directories that are missing on the way are made, and a file on
the way stays as it is. -/
def put (node : Node) : List Text → Node → Node
  | [], new => new
  | name :: names, new =>
      match node with
      | file content => file content
      | directory entries =>
          directory (Table.insert entries name
            (put ((Table.find? entries name).getD emptyDirectory) names new))

/-- Takes away the node at a location. -/
def remove (node : Node) : List Text → Node
  | [] => emptyDirectory
  | [name] =>
      match node with
      | file content => file content
      | directory entries => directory (Table.erase entries name)
  | name :: names =>
      match node with
      | file content => file content
      | directory entries =>
          match Table.find? entries name with
          | none => directory entries
          | some child => directory (Table.insert entries name (remove child names))

mutual

/-- The number of nodes of a tree. -/
def size : Node → Nat
  | file _ => 1
  | directory entries => sizeEntries entries + 1

/-- The number of nodes below a directory. -/
def sizeEntries : List (Text × Node) → Nat
  | [] => 0
  | (_, child) :: entries => size child + sizeEntries entries

end

mutual

/-- The paths of all nodes below a node whose own path is `base`; directories end in a slash. -/
def listing (base : Text) : Node → List Text
  | file _ => []
  | directory entries => listingEntries base entries

/-- The paths of all nodes of a list of entries. -/
def listingEntries (base : Text) : List (Text × Node) → List Text
  | [] => []
  | (name, .file _) :: entries => (base ++ name) :: listingEntries base entries
  | (name, .directory inner) :: entries =>
      (base ++ name ++ ['/']) :: (listingEntries (base ++ name ++ ['/']) inner ++
        listingEntries base entries)

end

end Node

/-- A tree of files, and the location of the directory that relative paths start from. -/
structure Disk where
  root : Node
  current : List Text

namespace Disk

/-- The disk whose working directory holds the given nodes and is the only other directory. -/
def ofEntries (current : List Text) (entries : Table Node) : Disk :=
  ⟨Node.emptyDirectory.put current (.directory entries), current⟩

/-- The node of the working directory. -/
def workingDirectory (disk : Disk) : Node :=
  (disk.root.at? disk.current).getD Node.emptyDirectory

/-- The paths of all files and directories below the working directory, in order. -/
def tree (disk : Disk) : List Text :=
  (disk.workingDirectory.listing []).mergeSort fun t u => !Text.lt u t

/-! ### Following paths -/

/-- Goes on from the directory at a location by one segment of a path. -/
def follow? (disk : Disk) (here : List Text) (segment : Text) : Option (List Text) :=
  match disk.root.at? here with
  | some (.directory entries) =>
      if Path.isTrivial segment then some here
      else if segment = ['.', '.'] then some here.dropLast
      else if Table.contains entries segment then some (here ++ [segment])
      else none
  | _ => none

/-- Follows segments from a location. -/
def followAll? (disk : Disk) (here : List Text) : List Text → Option (List Text)
  | [] => some here
  | segment :: segments =>
      (disk.follow? here segment).bind fun next => followAll? disk next segments

/-- Where a path starts. -/
def start (disk : Disk) (p : Path) : List Text :=
  if p.isAbsolute then [] else disk.current

/-- The number of bytes of the encoding of a text. -/
def byteLength (t : Text) : Nat :=
  t.foldl (fun n c => n + c.utf8Size) 0

/-- The greatest length of a name. -/
def maxNameLength : Nat := 255

/-- The greatest length of a path. -/
def maxPathLength : Nat := 4095

/-- Holds of a name that is too long for any node. -/
def isTooLong (name : Text) : Bool :=
  maxNameLength < byteLength name

/-- Holds of a path that no node can have. -/
def isUnusable (p : Path) : Bool :=
  p.text.contains '\x00' || maxPathLength < byteLength p.text

/-- The location a path leads to. -/
def locate? (disk : Disk) (p : Path) : Option (List Text) :=
  if p.text.isEmpty || isUnusable p then none else disk.followAll? (disk.start p) p.segments

/-- The node a path leads to. -/
def node? (disk : Disk) (p : Path) : Option Node :=
  (disk.locate? p).bind fun location => disk.root.at? location

/-- Holds when a path leads to a node. -/
def isPresent (disk : Disk) (p : Path) : Bool :=
  (disk.node? p).isSome

/-- Holds when a path leads to a file. -/
def isFile (disk : Disk) (p : Path) : Bool :=
  match disk.node? p with
  | some (.file _) => true
  | _ => false

/-- Holds when a path leads to a directory. -/
def isDirectory (disk : Disk) (p : Path) : Bool :=
  match disk.node? p with
  | some (.directory _) => true
  | _ => false

/-- The text of the file a path leads to. -/
def readText? (disk : Disk) (p : Path) : Option Text :=
  match disk.node? p with
  | some (.file (.text t)) => some t
  | _ => none

/-- The names in the directory a path leads to, in order. -/
def names (disk : Disk) (p : Path) : List Text :=
  match disk.node? p with
  | some (.directory entries) => Table.keys entries
  | _ => []

/-- The location a path leads to as an absolute path; a path that leads nowhere stays as it is. -/
def canonical (disk : Disk) (p : Path) : Path :=
  match disk.locate? p with
  | some location => ⟨'/' :: List.intercalate ['/'] location⟩
  | none => p

/-! ### Changing a disk -/

/-- Makes the missing directories along segments.  Says whether all segments are directories in
the end; those that were made stay. -/
def makeAlong (disk : Disk) (here : List Text) : List Text → Bool × Disk
  | [] => ((disk.root.at? here).any Node.isDirectory, disk)
  | segment :: segments =>
      match disk.root.at? here with
      | some (.directory entries) =>
          if Path.isTrivial segment then makeAlong disk here segments
          else if segment = ['.', '.'] then makeAlong disk here.dropLast segments
          else if Table.contains entries segment then makeAlong disk (here ++ [segment]) segments
          else if isTooLong segment then (false, disk)
          else
            makeAlong { disk with root := disk.root.put (here ++ [segment]) Node.emptyDirectory }
              (here ++ [segment]) segments
      | _ => (false, disk)

/-- Makes a directory with all directories above it. -/
def makeDirectories (disk : Disk) (p : Path) : Bool × Disk :=
  if isUnusable p then (false, disk) else disk.makeAlong (disk.start p) p.segments

/-- The location of the file that a path would name, in a directory that exists. -/
def fileLocation? (disk : Disk) (p : Path) : Option (List Text) :=
  let name := p.segments.getLastD []
  if isUnusable p || isTooLong name || Path.isTrivial name || name = ['.', '.'] then none
  else
    match disk.followAll? (disk.start p) p.segments.dropLast with
    | none => none
    | some here =>
        match disk.root.at? here with
        | some (.directory entries) =>
            match Table.find? entries name with
            | some (.directory _) => none
            | _ => some (here ++ [name])
        | _ => none

/-- Writes a file into a directory that exists.  Says whether that was possible. -/
def write (disk : Disk) (p : Path) (content : Content) : Bool × Disk :=
  match disk.fileLocation? p with
  | none => (false, disk)
  | some location => (true, { disk with root := disk.root.put location (.file content) })

/-- Takes away what a path leads to. -/
def delete (disk : Disk) (p : Path) : Disk :=
  match disk.locate? p with
  | none => disk
  | some location => { disk with root := disk.root.remove location }

/-! ### Templates -/

/-- The text of the template at a path, which has to be a file. -/
def readTemplate (disk : Disk) (p : Path) : Except ReadFailure Text :=
  match disk.node? p with
  | some (.file (.text t)) => .ok t
  | some (.file (.bytes _)) => .error .notText
  | _ => .error .denied

/-- A disk as a source of templates. -/
def source (disk : Disk) : Source where
  isFile := disk.isFile
  canonical := disk.canonical
  read := disk.readTemplate

end Disk

end IndentHtml

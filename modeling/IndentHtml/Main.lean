import IndentHtml.Command.Run
import IndentHtml.Site.WatchFilter

/-!
# The program

The program reads the tree of its working directory, runs its command on it, and writes the files
that the command has made or changed.  Files outside of the working directory are not seen.
-/

namespace IndentHtml

namespace Program

/-- The text of a string of bytes, if they are Unicode text, or else the bytes. -/
def contentOfBytes (bytes : ByteArray) : Content :=
  match String.fromUTF8? bytes with
  | some s => .text s.toList
  | none => .bytes bytes.toList

/-- Reads the files and directories of a directory.  What cannot be read is left out. -/
partial def readEntries (entries : Array IO.FS.DirEntry) : IO (Table Node) := do
  let mut table : Table Node := []
  for entry in entries do
    try
      if ← entry.path.isDir then
        let inner ← readEntries (← entry.path.readDir)
        table := table.insert entry.fileName.toList (.directory inner)
      else
        let bytes ← IO.FS.readBinFile entry.path
        table := table.insert entry.fileName.toList (.file (contentOfBytes bytes))
    catch _ => pure ()
  return table

/-- The working directory as a disk. -/
def readDisk : IO Disk := do
  let here ← IO.currentDir
  let names := (List.splitOn '/' here.toString.toList).filter fun name => !name.isEmpty
  return Disk.ofEntries names (← readEntries (← here.readDir))

/-- Writes the entries that differ from those of the directory as it was. -/
partial def writeEntries (base : String) (old : Node) (entries : Table Node) : IO Unit := do
  for (name, node) in entries do
    let path := base ++ "/" ++ String.ofList name
    match node with
    | .directory inner =>
        IO.FS.createDirAll path
        writeEntries path ((old.child? name).getD Node.emptyDirectory) inner
    | .file content =>
        let isOld :=
          match old.child? name with
          | some (.file before) => decide (before = content)
          | _ => false
        unless isOld do
          match content with
          | .text t => IO.FS.writeFile path (String.ofList t)
          | .bytes raw => IO.FS.writeBinFile path ⟨raw.toArray⟩

/-- Writes what differs between two states of the working directory. -/
def writeDisk (old new : Disk) : IO Unit := do
  match new.workingDirectory with
  | .directory entries => writeEntries "." old.workingDirectory entries
  | .file _ => pure ()

/-- Runs something on the working directory, writes the changes and prints about it. -/
def perform (act : Disk → Outcome × Disk) : IO Outcome := do
  let disk ← readDisk
  let start ← IO.monoNanosNow
  let (outcome, changed) := act disk
  writeDisk disk changed
  let stop ← IO.monoNanosNow
  let out ← IO.getStdout
  out.putStr (String.ofList (outcome.outputText (Elapsed.toText (stop - start))))
  out.flush
  (← IO.getStderr).putStr (String.ofList outcome.errors)
  return outcome

/-- Holds of a changed file that asks for a new build of a watched site. -/
def isWatched (disk : Disk) (options : BuildOptions) (path : Path) : Bool :=
  let dataFile := options.data.map disk.canonical
  let filter : WatchFilter := ⟨options.extension, dataFile⟩
  let isNear :=
    (path.relativeTo? (disk.canonical options.templatesDir)).isSome ||
      dataFile.any fun file => file.parent?.any fun directory =>
        path.parent?.any directory.same
  isNear && filter.isRelevant path

/-- Builds a site whenever its files have changed. -/
partial def watch (options : BuildOptions) (last : Disk) : IO Unit := do
  IO.sleep 750
  let disk ← readDisk
  let changed := (last.changes disk).filter (isWatched disk options)
  if changed.isEmpty then watch options disk
  else
    let names := String.ofList (List.intercalate ", ".toList (changed.map (·.text)))
    IO.println ("  File changed: " ++ names ++ " - rebuild triggered")
    let _ ← perform fun disk => Command.rebuild disk options
    watch options (← readDisk)

end Program

end IndentHtml

open IndentHtml IndentHtml.Program in
/-- Runs the program. -/
def main (args : List String) : IO UInt32 := do
  let outcome ← perform fun disk => Request.run disk (args.map String.toList)
  match outcome.watched with
  | none => pure ()
  | some options =>
      IO.println ("Watching for changes in: " ++ String.ofList options.templatesDir.text)
      IO.println "Press Ctrl+C to stop..."
      IO.println ""
      watch options (← readDisk)
  return UInt32.ofNat outcome.exitCode

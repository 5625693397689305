import ClientBindings.CommandLine.Run

/-! The program. Files are fetched when a run asks for them; a last run that asks for nothing new decides,
and what it changed is written to disk. Documents behind URLs are out of its reach. -/

namespace ClientBindings.CommandLine

/-- The names along a path on disk. -/
def namesOf (path : String) : FilePath := FileTree.names path

def onDisk (path : FilePath) : String := "/" ++ String.intercalate "/" path

/-- The content of a file, if it can be read. -/
def fetch? (path : String) : IO (Option (List UInt8)) := do
  try return some (← IO.FS.readBinFile path).toList
  catch _ => return none

/-- A directory on disk with all that is below it. -/
partial def directoryTree (tree : FileTree) (path : String) : IO FileTree := do
  let folder := (← IO.currentDir) / path
  if !(← folder.isDir) then return tree
  let mut tree := { tree with directories := tree.directories ++ [namesOf folder.toString] }
  for entry in ← folder.readDir do
    let place := entry.path
    if ← place.isDir then tree ← directoryTree tree place.toString
    else if let some content ← fetch? place.toString then
      tree := { tree with files := tree.files ++ [(namesOf place.toString, content)] }
  return tree

/-- What is known of the disk before the first run: the settings where they are expected, and the output
directory. -/
def firstTree (arguments : List String) : IO FileTree := do
  let here := (← IO.currentDir).toString
  let start : FileTree := { workingDirectory := here, files := [], directories := [namesOf here] }
  let settings ← fetch? Options.defaultConfig
  let start := { start with
    files := (settings.map fun content => (namesOf here ++ [Options.defaultConfig], content)).toList }
  match Options.parse arguments settings.isSome with
  | .ok o => directoryTree start o.output
  | .error _ => return start

/-- Repeats the run with every file that it misses and the disk has. -/
partial def settle (arguments : List String) (tree : FileTree) : IO (FileTree × Outcome) := do
  let outcome := run { tree, pages := [] } arguments
  match outcome.failure with
  | some (.fileNotFound path) =>
    match tree.find path, ← fetch? path with
    | .missing place, some content => settle arguments { tree with files := tree.files ++ [(place, content)] }
    | _, _ => return (tree, outcome)
  | _ => return (tree, outcome)

/-- Writes to disk what a run changed. -/
def store (before after : FileTree) : IO Unit := do
  for (path, _) in before.files do
    if (after.file? path).isNone then IO.FS.removeFile (onDisk path)
  for path in before.directories.reverse do
    if !after.isDirectory path then IO.FS.removeDir (onDisk path)
  for path in after.directories do
    if !before.directories.contains path then IO.FS.createDirAll (onDisk path)
  for (path, content) in after.files do
    if before.file? path != some content then IO.FS.writeBinFile (onDisk path) ⟨content.toArray⟩

/-- Text that ends its last line. -/
def closed (text : String) : String :=
  if text.isEmpty || text.toList.getLast? == some '\n' then text else text ++ "\n"

end ClientBindings.CommandLine

open ClientBindings.CommandLine in
def main (arguments : List String) : IO UInt32 := do
  let (before, outcome) ← settle arguments (← firstTree arguments)
  store before outcome.tree
  if outcome.exit == .usage then IO.eprintln usageText
  IO.print outcome.out
  IO.eprint (closed outcome.err)
  return outcome.exit.code.toUInt32

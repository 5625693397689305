import ClientBindings.Document.Location
import ClientBindings.Text.Utf8

/-! Files and directories as a value. Every file's directories exist; others may exist besides. -/

namespace ClientBindings

/-- Names along an absolute path. -/
abbrev FilePath := List String

structure FileTree where
  workingDirectory : String
  files : List (FilePath × List UInt8)
  directories : List FilePath
deriving Inhabited

/-- What is found at a path. -/
inductive Place where
  | file (path : FilePath) (content : List UInt8)
  | directory (path : FilePath)
  | missing (path : FilePath)
  /-- The way leads through a file. -/
  | blocked
deriving Inhabited

namespace FileTree

variable (t : FileTree)

def names (path : String) : List String :=
  ((Text.splitOn '/' path.toList).filter fun s => !(s.isEmpty || s == ['.'])).map String.ofList

def isDirectory (path : FilePath) : Bool :=
  path.isEmpty || t.directories.any (path.isPrefixOf ·) || t.files.any fun f => path.isPrefixOf f.1.dropLast

def file? (path : FilePath) : Option (List UInt8) := t.files.lookup path

/-- Follows names from a directory; `..` leads to the directory above. -/
def follow (t : FileTree) : FilePath → List String → Place
  | here, [] => .directory here
  | here, name :: rest =>
    if name == ".." then follow t here.dropLast rest else
    let path := here ++ [name]
    match t.file? path with
    | some content => if rest.isEmpty then .file path content else .blocked
    | none =>
      if t.isDirectory path then follow t path rest
      else .missing (path ++ rest)

def find (path : String) : Place :=
  let start := if path.startsWith "/" then [] else names t.workingDirectory
  t.follow start (names path)

/-- Text files read any line end as a line feed. -/
def unifyLineEnds : List Char → List Char
  | '\r' :: '\n' :: cs => '\n' :: unifyLineEnds cs
  | '\r' :: cs => '\n' :: unifyLineEnds cs
  | c :: cs => c :: unifyLineEnds cs
  | [] => []

/-- The text of a file; a failure names the path in tidy form. No path holds a null character. -/
def readText (path : String) : Result String :=
  if path.toList.contains '\x00' then throw .badValue else
  let shown := Text.onChars Location.tidyPath path
  match t.find path with
  | .file _ content =>
    match Utf8.decode? content with
    | some cs => return String.ofList (unifyLineEnds cs)
    | none => throw .undecodable
  | .directory _ => throw (.isDirectory shown)
  | .missing _ => throw (.fileNotFound shown)
  | .blocked => throw (.notADirectory shown)

/-! ## Changes -/

def hasAnything (path : FilePath) : Bool :=
  t.files.any (fun f => path.isPrefixOf f.1) || t.directories.any fun d => path.isPrefixOf d && d != path

/-- Everything at a directory and below. -/
def under (path : FilePath) : FileTree :=
  { t with files := t.files.filter fun f => path.isPrefixOf f.1
           directories := t.directories.filter (path.isPrefixOf ·) }

/-- The tree without a directory and all below it. -/
def without (path : FilePath) : FileTree :=
  { t with files := t.files.filter fun f => !path.isPrefixOf f.1
           directories := t.directories.filter fun d => !path.isPrefixOf d }

/-- Both trees together. -/
def union (u : FileTree) : FileTree :=
  { t with files := t.files ++ u.files, directories := t.directories ++ u.directories }

/-- Makes the directories on a way from a directory, telling where it ends. -/
def makeAlong (shown : String) : FileTree → FilePath → List String → Result (FileTree × FilePath)
  | t, here, [] => return (t, here)
  | t, here, name :: rest =>
    if name == ".." then makeAlong shown t here.dropLast rest else
    let path := here ++ [name]
    match t.file? path with
    | some _ => throw (if rest.isEmpty then .fileExists shown else .notADirectory shown)
    | none =>
      let t := if t.isDirectory path then t else { t with directories := t.directories ++ [path] }
      makeAlong shown t path rest

/-- Makes a directory and those above it as far as they are missing. -/
def makeDirectory (path : String) : Result (FileTree × FilePath) :=
  let start := if path.startsWith "/" then [] else names t.workingDirectory
  makeAlong (Text.onChars Location.tidyPath path) t start (names path)

/-- Writes a file into a directory, which is made first. -/
def write (path content : String) : Result FileTree := do
  let parts := Text.cutLast '/' path.toList
  let parent := String.ofList (match parts.1 with | some [] => ['/'] | some cs => cs | none => [])
  let (t, folder) ← t.makeDirectory parent
  let file := folder ++ [String.ofList parts.2]
  if t.isDirectory file then throw (.isDirectory path)
  return { t with files := Entries.put (· == ·) t.files file (Utf8.encode content.toList) }

end FileTree
end ClientBindings

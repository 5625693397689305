import ClientBindings.CommandLine.Options
import ClientBindings.Source.Package

/-! A run of the program: documents are compiled, and the package replaces whatever the output directory
held. If that fails, the directory gets its content back. -/

namespace ClientBindings.CommandLine

inductive Exit where
  | success | fileNotFound | unreadable | failed | invalidSettings
  /-- The arguments cannot be used. -/
  | usage
deriving DecidableEq, Repr, Inhabited

namespace Exit

def code : Exit → Nat
  | .success => 0
  | .fileNotFound => 1
  | .unreadable | .usage => 2
  | .failed => 3
  | .invalidSettings => 4

def ofFailure : Failure → Exit
  | .fileNotFound _ => .fileNotFound
  | .invalidJson | .invalidYaml => .unreadable
  | .invalidSettings _ => .invalidSettings
  | _ => .failed

end Exit

/-- The text for a failure that the file system causes. -/
def systemText (number : Nat) (text path : String) : String :=
  "[Errno " ++ toString number ++ "] " ++ text ++ ": " ++ (Data.str path).shown

def failureText : Failure → String
  | .isDirectory path => systemText 21 "Is a directory" path
  | .notADirectory path => systemText 20 "Not a directory" path
  | .fileExists path => systemText 17 "File exists" path
  | .notRemovable path =>
    if path == "." then systemText 22 "Invalid argument" path else systemText 39 "Directory not empty" path
  | .httpStatus status url => "Client error '" ++ toString status ++ "' for url '" ++ url ++ "'"
  | f => f.message

/-- What is reported about a failure. Nothing follows the report on an unreadable text, whose details are
not told. -/
def report : Failure → String
  | .fileNotFound path => "Error: File not found: " ++ path ++ "\n"
  | .invalidJson | .invalidYaml => "Error: Invalid JSON or YAML"
  | f => "Error: " ++ failureText f ++ "\n"

structure Session where
  world : Document.World
  out : String := ""
  err : String := ""

namespace Session

abbrev M := ExceptT Failure (StateM Session)

def say (line : String) : M Unit := modify fun s => { s with out := s.out ++ line ++ "\n" }

def warn (line : String) : M Unit := modify fun s => { s with err := s.err ++ line ++ "\n" }

def tree : M FileTree := return (← get).world.tree

def setTree (tree : FileTree) : M Unit := modify fun s => { s with world := { s.world with tree } }

/-- The API of one item, with warnings for what is left out of it. -/
def compile (verbose : Bool) (item : Item) : M Api := do
  let document ← ((← get).world.load item.spec : Result _)
  let api ← (Api.compile document (some item) {} : Result _)
  api.diagnostics.forM fun d => warn ("Warning: " ++ d.message)
  if verbose then
    say ("[" ++ api.name ++ "] Bound " ++ toString api.operations.length ++ " operations")
    say ("[" ++ api.name ++ "] Found " ++ toString api.aliases.length ++ " aliases")
  return api

def writeAll (files : List (String × String)) : M Unit :=
  files.forM fun (path, content) => do setTree (← ((← tree).write path content : Result _))

/-- The names of the files, in order. -/
def summary (files : List (String × String)) : List String :=
  ("Generated " ++ toString files.length ++ " files:")
    :: ((files.map Prod.fst).mergeSort fun a b => a ≤ b).map ("  " ++ ·) ++ [""]

def generate (o : Options) (items : List Item) : M Unit := do
  let apis ← items.mapM (compile o.verbose)
  let files ← (Package.files apis {} o.output o.package : Result _)
  writeAll files
  if o.verbose then (summary files).forM say
  say ("Python client generated successfully in " ++ o.output)

/-- Why a directory cannot be removed under the path it has, once it is empty: the path has no names, or
its last name is `..`. Names in front of that one have gone with the content. -/
def unremovable? (path : String) : Option Failure :=
  match (FileTree.names path).reverse with
  | [] => some (.notRemovable path)
  | last :: others =>
    if last != ".." then none
    else if others.all (· == "..") then some (.notRemovable path) else some (.fileNotFound path)

/-- Empties the output directory and returns what it held, if it held anything. A directory that cannot
be removed itself loses its content all the same. -/
def clear (output : String) : M (Option (FilePath × FileTree)) := do
  let t ← tree
  match t.find output with
  | .file .. => throw (.notADirectory output)
  | .directory path =>
    setTree (t.without path)
    if let some failure := unremovable? output then throw failure
    return if t.hasAnything path then some (path, t.under path) else none
  | _ => return none

/-- Runs an action on an empty output directory and restores its content if the action fails. -/
def replacing (output : String) (act : M Unit) : M Unit := do
  let kept ← clear output
  let (t, _) ← ((← tree).makeDirectory output : Result _)
  setTree t
  match kept with
  | none => act
  | some (path, content) =>
    tryCatch act fun f => do
      warn "Error: Generation failed. Restoring original content."
      setTree (((← tree).without path).union content)
      throw f

/-- The items of the settings, or the one that the options describe. -/
def items (o : Options) : M (List Item) := do
  match o.config with
  | some path => (Settings.load (← tree) path : Result _)
  | none => return [o.item]

def main (o : Options) : M Unit := do replacing o.output (generate o (← items o))

end Session

structure Outcome where
  exit : Exit
  out : String
  err : String
  tree : FileTree
  /-- Why the run failed, if it got past its arguments and failed. -/
  failure : Option Failure := none

def program : String := "py-oas-generator"

def usageText : String :=
  "usage: " ++ program ++ " [-h] [--config CONFIG_FILE] [--name NAME] [--include TAG] [--exclude TAG]"
    ++ " [--output OUTPUT_DIR] [--package-name PACKAGE_NAME] [--template-dir TEMPLATE_DIR] [--verbose] [SPEC]"

/-- Whether there is something at a path. -/
def isPresent : Place → Bool
  | .file .. | .directory _ => true
  | _ => false

/-- Runs the program in a world on some arguments. -/
def run (w : Document.World) (arguments : List String) : Outcome :=
  match Options.parse arguments (isPresent (w.tree.find Options.defaultConfig)) with
  | .error .help => { exit := .success, out := usageText ++ "\n", err := "", tree := w.tree }
  | .error (.usage message) =>
    { exit := .usage, out := "", err := program ++ ": error: " ++ message, tree := w.tree }
  | .ok o =>
    let (result, s) := (Session.main o).run { world := w }
    match result with
    | .ok _ => { exit := .success, out := s.out, err := s.err, tree := s.world.tree }
    | .error f => ⟨.ofFailure f, s.out, s.err ++ report f, s.world.tree, some f⟩

end ClientBindings.CommandLine

import ClientBindings.Document.Location
import ClientBindings.Document.Pointer
import ClientBindings.Text.FreshName

/-! Making every reference of a document local. A target in another document is copied under
`components` once, whatever the number of references to it, and path items are copied into their place.
A target gets its name before its content is walked, so documents may refer to each other in circles. -/

namespace ClientBindings.Bundle

open Text

/-- What a reference means: a place in the document at a location. -/
structure Target where
  location : String
  pointer : String
deriving DecidableEq, Repr

/-- A named entry of a component section. -/
structure Place where
  sectionName : String
  name : String
deriving DecidableEq, Repr

namespace Place

/-- The local reference to a component. -/
def ref (p : Place) : String :=
  "#/components/" ++ Pointer.escape p.sectionName ++ "/" ++ Pointer.escape p.name

/-- The keys that lead to a component, the last one first. -/
def path (p : Place) : List Scalar := [.str p.name, .str p.sectionName, .str "components"]

end Place

/-- What the walk has gathered so far. -/
structure State where
  /-- Documents read, with their locations. -/
  documents : List (String × Data) := []
  /-- Locations asked for, the latest first. -/
  reads : List String := []
  /-- The component that stands for a target. -/
  targets : List (Target × Place) := []
  /-- Names in use, by component section. -/
  names : List (Scalar × List String) := []
  /-- Copied targets, by component section. -/
  copied : List (Scalar × Data.Fields) := []

abbrev M := ExceptT Failure (StateM State)

/-- The keys that lead to a node, the last one first. -/
abbrev Path := List Scalar

structure Source where
  /-- The document at a location. -/
  read : String → Result Data
  workingDirectory : String
  /-- The location of the document that is bundled. -/
  root : String

def sections : List String :=
  ["parameters", "responses", "headers", "examples", "links", "callbacks", "securitySchemes",
   "requestBodies", "schemas"]

def defaultSection : String := "schemas"

/-- The section that a pointer names itself. -/
def pointerSection? (pointer : String) : Option String :=
  let lead := "/components/".toList
  if !lead.isPrefixOf pointer.toList then none else
  let rest := pointer.toList.drop lead.length
  let segment := rest.takeWhile (· != '/')
  if segment.isEmpty || segment.length = rest.length then none
  else some (String.ofList (Percent.decode segment))

/-- The section for a target: the one its pointer names, else the one its referrer stands in. -/
def sectionOf (pointer : String) (path : Path) : String :=
  match pointerSection? pointer, path with
  | some name, _ => name
  | none, .str "requestBody" :: _ => "requestBodies"
  | none, _ :: .str parent :: _ => if sections.contains parent then parent else defaultSection
  | none, _ => defaultSection

def stripSlashes (cs : List Char) : List Char := trimEnd (· == '/') cs

/-- A name for a target: the last part of its pointer, else the name of its file. -/
def nameOf (location pointer : String) : String :=
  match (Pointer.segments pointer).getLast? with
  | some name => name
  | none =>
    let stem := (cutLast '/' (stripSlashes location.toList)).2.takeWhile (· != '.')
    if stem.isEmpty then "Bundled" else String.ofList stem

/-- Reserves a name in a section. -/
def claim (sectionName name : String) : M String := do
  let s ← get
  let key := Scalar.str sectionName
  let taken := (Entries.find? Scalar.same s.names key).getD []
  let fresh := freshName taken name
  set { s with names := Entries.put Scalar.same s.names key (fresh :: taken) }
  return fresh

def fetch (source : Source) (location : String) : M Data := do
  let s ← get
  match Entries.find? (· == ·) s.documents location with
  | some d => return d
  | none =>
    set { s with reads := location :: s.reads }
    let d ← source.read location
    modify fun s => { s with documents := s.documents ++ [(location, d)] }
    return d

/-- The node that a target designates. -/
def lookup (source : Source) (target : Target) (ref : String) : M Data := do
  let document ← fetch source target.location
  match ← (Pointer.walk? document (Pointer.segments target.pointer) : Result _) with
  | some node => return node
  | none => throw (.unresolvedReference ref)

def pair (key : Scalar) (v : Data) : Scalar × Data := (key, v)

mutual
/-- Walks a node; `follow` takes over at mappings that hold a reference. -/
def walkWith (follow : Data.Fields → String → Path → M Data) (path : Path) : Data → M Data
  | .scalar s => return .scalar s
  | .tuple items => return .tuple items
  | .list items => return .list (← walkItems follow path 0 items)
  | .map entries =>
    match Entries.find? Scalar.same entries (.str "$ref") with
    | some (.str ref) => follow entries ref path
    | _ => return .map (← walkEntries follow path entries)
def walkItems (follow : Data.Fields → String → Path → M Data) (path : Path) (index : Nat) :
    List Data → M (List Data)
  | [] => return []
  | x :: xs => do
    let y ← walkWith follow (.int index :: path) x
    return y :: (← walkItems follow path (index + 1) xs)
def walkEntries (follow : Data.Fields → String → Path → M Data) (path : Path) :
    List (Scalar × Data) → M Data.Fields
  | [] => return []
  | (k, v) :: es => do
    let w ← walkWith follow (k :: path) v
    return (k, w) :: (← walkEntries follow path es)
end

/-- A reference split at the mark before its pointer. -/
def splitRef (ref : String) : String × String :=
  let (location, pointer) := cut '#' ref.toList
  (String.ofList location, String.ofList pointer)

/-- The reference object with its reference replaced. -/
def redirect (entries : Data.Fields) (ref : String) : Data :=
  .map (Entries.put Scalar.same entries (.str "$ref") (.str ref))

def isPathItem : Path → Bool
  | [_, .str "paths"] => true
  | _ => false

/-- Keeps a walked target in its place. -/
def keep (place : Place) (content : Data) : M Unit := do
  modify fun s =>
    let key := Scalar.str place.sectionName
    let entries := (Entries.find? Scalar.same s.copied key).getD []
    { s with copied := Entries.put Scalar.same s.copied key
               (Entries.put Scalar.same entries (.str place.name) content) }

/-- What a reference means in the document at `base`. -/
def targetOf (source : Source) (base ref : String) : Result Target := do
  let (location, pointer) := splitRef ref
  if location.isEmpty then return ⟨base, pointer⟩
  return ⟨← Location.resolve source.workingDirectory base location, pointer⟩

/-- Copies a target that is met for the first time; `walk` continues in it. -/
def copy (source : Source) (walk : String → Path → Data → M Data) (target : Target) (ref : String)
    (path : Path) : M Place := do
  let sectionName := sectionOf target.pointer path
  let name ← claim sectionName (nameOf target.location target.pointer)
  let place : Place := ⟨sectionName, name⟩
  modify fun s => { s with targets := s.targets ++ [(target, place)] }
  let node ← lookup source target ref
  let content ← walk target.location place.path node
  keep place content
  return place

/-- Makes a reference local that is met at a path of the document at `base`; `walk` continues in its
target. -/
def makeLocal (source : Source) (walk : String → Path → Data → M Data) (base : String)
    (entries : Data.Fields) (ref : String) (path : Path) : M Data := do
  let target ← (targetOf source base ref : Result _)
  if target.location == source.root then return redirect entries ("#" ++ target.pointer)
  if isPathItem path then return ← walk target.location path (← lookup source target ref)
  match Entries.find? (· == ·) (← get).targets target with
  | some place => return redirect entries place.ref
  | none => return redirect entries (← copy source walk target ref path).ref

/-- How many documents may be entered from within each other. -/
def depthLimit : Nat := 450

def walkAt (source : Source) : Nat → String → Path → Data → M Data
  | 0, _, _, _ => throw .tooDeep
  | depth + 1, base, path, node =>
    walkWith (makeLocal source (walkAt source depth) base) path node

mutual
/-- Whether a set can hold a value: neither a list nor a mapping is in it. -/
def isHashable : Data → Bool
  | .scalar _ => true
  | .tuple items => areHashable items
  | .list _ | .map _ => false
def areHashable : List Data → Bool
  | [] => true
  | x :: xs => isHashable x && areHashable xs
end

/-- The names present in a section. -/
def presentNames (d : Data) : Result (List String) := do
  let present ← d.elements
  if !areHashable present then throw .wrongKind else
  return present.filterMap fun
    | .str s => some s
    | _ => none

def presentSections (document : Data) : Result (List (Scalar × List String)) := do
  let components ← document.get "components"
  if !components.truthy then return []
  (← components.entries).mapM fun (sectionName, d) => return (sectionName, ← presentNames d)

/-- Puts copied targets into their sections. -/
def addCopied (components : Data.Fields) : List (Scalar × Data.Fields) → Result Data.Fields
  | [] => return components
  | (sectionName, entries) :: rest => do
    match (Entries.find? Scalar.same components sectionName).getD (.map []) with
    | .map present =>
      addCopied (Entries.put Scalar.same components sectionName
        (.map (Entries.merge Scalar.same present entries))) rest
    | _ => throw .noMember

def addComponents (copied : List (Scalar × Data.Fields)) (document : Data) : Result Data := do
  if copied.isEmpty then return document
  let fields ← document.entries
  match (Entries.find? Scalar.same fields (.str "components")).getD (.map []) with
  | .map components =>
    return .map (Entries.put Scalar.same fields (.str "components") (.map (← addCopied components copied)))
  | _ => throw .noMember

/-- The document with every reference local, documents being entered to a depth. -/
def bundleAt (source : Source) (depth : Nat) (document : Data) : M Data := do
  let names ← (presentSections document : Result _)
  modify fun s => { s with names }
  let walked ← walkAt source depth source.root [] document
  addComponents (← get).copied walked

def bundle (source : Source) (document : Data) : M Data := bundleAt source depthLimit document

/-- Bundles a document found at a location; also tells which locations were read. -/
def run (read : String → Result Data) (workingDirectory : String) (document : Data)
    (location : String) : Result Data × List String :=
  let source : Source := { read, workingDirectory, root := Location.normalize workingDirectory location }
  let (result, s) := bundle source document {}
  (result, s.reads.reverse)

end ClientBindings.Bundle

import ClientBindings.Document.Load
import ClientBindings.Settings.Shape

/-! Settings: the modules to generate, each from one document and with a choice of operations by tag. -/

namespace ClientBindings

/-- One module to generate. -/
structure Item where
  name : String
  /-- Where the document is. -/
  spec : String
  /-- Only operations with one of these tags, unless empty. -/
  only : Option (List String) := none
  /-- No operations with one of these tags. -/
  without : Option (List String) := none
deriving DecidableEq, Repr, Inhabited

namespace Item

/-- Whether an operation carries one of some tags. -/
def carries (tags : Data) (among : List String) : Result Bool := do
  return (← (tags.orElse (.list [])).elements).any fun t => among.any fun s => t.same (.str s)

/-- Whether an operation is left out because of its tags; to be excluded outweighs to be included. -/
def skips (item : Item) (tags : Data) : Result Bool := do
  let excluded := item.without.getD []
  let included := item.only.getD []
  if !excluded.isEmpty then
    if ← carries tags excluded then return true
  if included.isEmpty then return false
  return !(← carries tags included)

end Item

namespace Settings

def tagShape : Shape := .list false (.text false)

def itemShape : Shape :=
  .record ["name", "spec"]
    [("name", .moduleName), ("spec", .text true), ("include", tagShape), ("exclude", tagShape)]

def shape : Shape := .record ["items"] [("items", .list true itemShape)]

def textsOf : Data → List String
  | .list items => items.map Data.text
  | _ => []

def itemOf (d : Data) : Item where
  name := ((d.find? "name").map Data.text).getD ""
  spec := ((d.find? "spec").map Data.text).getD ""
  only := (d.find? "include").map textsOf
  without := (d.find? "exclude").map textsOf

/-- The items of settings that have their shape; every departure from it is reported. -/
def ofData (d : Data) : Result (List Item) :=
  match shape.departures d with
  | [] =>
    match d.find? "items" with
    | some (.list items) => return items.map itemOf
    | _ => return []
  | found => throw (.invalidSettings (found.map Departure.message))

/-- The settings in a JSON file. -/
def load (tree : FileTree) (path : String) : Result (List Item) := do
  ofData (← Json.parse (← tree.readText path))

end Settings
end ClientBindings

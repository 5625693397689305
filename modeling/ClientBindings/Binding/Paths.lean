import ClientBindings.Binding.Operation
import ClientBindings.Settings.Item

/-! The operations of a document: every path and method, as far as the tags select it. Operations
without an id or with one that is taken are reported and left out. -/

namespace ClientBindings.Paths

open Compilation

/-- The methods in the order in which a path item is visited. -/
def methods : List String := ["get", "put", "post", "delete", "options", "head", "patch", "trace"]

/-- The id an operation may use, which becomes taken thereby. -/
def claimId (operation : Data) (location : String) : M (Option Scalar) := do
  let given ← (operation.get "operationId" : Result _)
  if given.isNull then
    warn (.missingOperationId location)
    return none
  let id ← (given.asKey : Result _)
  if Entries.contains Scalar.same (← get).operationIds id then
    warn (.duplicateOperationId (← (id.toText : Result _)) location)
    return none
  modify fun s => { s with operationIds := s.operationIds ++ [(id, location)] }
  return some id

def isSkipped (item : Option Item) (operation : Data) : Result Bool := do
  let tags ← operation.get "tags"
  match item with
  | some item => item.skips tags
  | none => return false

variable (document : Data) (naming : Naming) (item : Option Item) (security : List SecurityBinding)

/-- The operation of one method of a path item, if it is selected. -/
def bindMethod (path : Scalar) (pathItem : Data) (method : String) : M (Option OperationBinding) := do
  let operation ← (pathItem.get method : Result _)
  if operation.isNull then return none
  if ← (isSkipped item operation : Result _) then return none
  let location := (← (path.toText : Result _)) ++ "." ++ method
  match ← claimId operation location with
  | none => return none
  | some id => OperationBinding.bind document naming security ⟨id, path, method⟩ operation pathItem

def bindPath (entry : Scalar × Data) : M (List OperationBinding) := do
  if entry.2.isNull then return []
  let pathItem ← (Reference.resolve document entry.2 : Result _)
  return (← methods.mapM (bindMethod document naming item security entry.1 pathItem)).reduceOption

/-- The bindings of all selected operations, in the order of paths and methods. -/
def bindAll : M (List OperationBinding) := do
  let paths ← (do ((← document.get "paths").orElse (.map [])).entries : Result _)
  return (← paths.mapM (bindPath document naming item security)).flatten

end ClientBindings.Paths

import ClientBindings.Data.Access
import ClientBindings.Data.Display
import ClientBindings.Schema.TypeTree

/-! The servers of a document: URLs with variables, their defaults and the values they may take. -/

namespace ClientBindings

structure ServerVariable where
  name : Scalar
  default : String
  /-- The values allowed, the default among them; empty for any text. -/
  values : List String
  description : Data
deriving Repr

namespace ServerVariable

def type (v : ServerVariable) : TypeNode :=
  if v.values.isEmpty then .string else .unionOf (v.values.map fun s => .literal (.str s))

def field (v : ServerVariable) : Field := { name := .scalar v.name, type := v.type, comment := v.description }

/-- The values of a list together with the default; none stay none. -/
def allowed (values : List String) (default : String) : List String :=
  if values.isEmpty || values.contains default then values else values ++ [default]

def ofEntry (entry : Scalar × Data) : Result ServerVariable := do
  let (name, described) := entry
  let default ← (← described.get "default" (.str "")).toText
  let values ← (← ((← described.get "enum").orElse (.list [])).elements).mapM Data.toText
  return ⟨name, default, allowed values default, ← described.get "description"⟩

end ServerVariable

structure ServerBinding where
  url : Data
  vars : List ServerVariable
  description : Data
deriving Repr

namespace ServerBinding

/-- The record that overrides variables, if there are any. -/
def overrides (s : ServerBinding) : Option (List Field) :=
  if s.vars.isEmpty then none else some (s.vars.map ServerVariable.field)

def ofServer (server : Data) : Result ServerBinding := do
  let vars ← ((← server.get "variables").orElse (.map [])).entries
  return ⟨← server.get "url" (.str "/"), ← vars.mapM ServerVariable.ofEntry, ← server.get "description"⟩

def root : Data := .object [("url", .str "/")]

/-- The servers a document declares; without any, its own root. -/
def ofServers (servers : Data) : Result (List ServerBinding) := do
  (← (servers.orElse (.list [root])).elements).mapM ofServer

end ServerBinding
end ClientBindings

import ClientBindings.Binding.Paths
import ClientBindings.Binding.Server

/-! A whole document compiled into the bindings of one module. -/

namespace ClientBindings

structure Api where
  name : String
  version : String
  title : Data
  servers : List ServerBinding
  security : List SecurityBinding
  aliases : List Alias
  operations : List OperationBinding
  diagnostics : List Diagnostic
deriving Repr

namespace Api

open Compilation

def countOf (api : Api) (code : String) : Nat := api.diagnostics.countP fun d => d.code == code

/-- The parts of a document bound one after the other, the diagnostics in that order. -/
def bind (document : Data) (item : Option Item) (naming : Naming) : M Api := do
  let info := (← (document.get "info" : Result _)).orElse (.map [])
  let servers ← (do ServerBinding.ofServers (← document.get "servers") : Result _)
  let security ← SecurityBinding.ofDocument document
  let operations ← Paths.bindAll document naming item security
  let version ← (do (← info.get "version" (.str "")).toText : Result _)
  let title ← (info.get "title" : Result _)
  let s ← get
  return { name := (item.map Item.name).getD "api", version, title, servers, security
           aliases := s.schema.aliases, operations, diagnostics := s.diagnostics }

/-- Compiles a loaded document of version 3. -/
def compile (document : Data) (item : Option Item) (naming : Naming) : Result Api := do
  Document.ensureVersion3 document
  ((bind document item naming).run {}).1

end Api
end ClientBindings

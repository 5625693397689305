import ClientBindings.Failure
import ClientBindings.Schema.TypeTree
import ClientBindings.Source.Declaration
import ClientBindings.Text.FreshName
import ClientBindings.Text.Identifier

/-! A module while it is drafted: the names taken in it and the declarations made so far. What was done
before a failure stays done. -/

namespace ClientBindings

structure Draft where
  taken : List String := []
  /-- Declarations of records without a name of their own. -/
  inline : List Declaration := []
  /-- Finished declarations of aliases. -/
  declared : List (String × Declaration) := []
  /-- Aliases whose declarations are being made. -/
  declaring : List String := []
deriving Inhabited

namespace Draft

abbrev M := ExceptT Failure (StateM Draft)

/-- A free name near the wanted one, which becomes taken thereby. -/
def claim (name : String) : M String := do
  let s ← get
  let fresh := freshName s.taken name
  set { s with taken := fresh :: s.taken }
  return fresh

def addInline (d : Declaration) : M Unit := modify fun s => { s with inline := s.inline ++ [d] }

/-- Runs an action while an alias counts as being declared. -/
def whileDeclaring {α : Type} (target : String) (act : M α) : M α := .mk do
  modify fun s => { s with declaring := target :: s.declaring }
  let result ← act.run
  modify fun s => { s with declaring := s.declaring.filter (· != target) }
  return result

end Draft

/-- The aliases of a document and the names they have in the generated module. -/
structure Scope where
  aliases : List (String × Alias)
  names : List (String × String)
deriving Inhabited

namespace Scope

/-- The text itself, or the other one in place of an empty text. -/
def nonEmpty (s other : String) : String := if s.isEmpty then other else s

/-- Claims a name for every alias. -/
def ofAliases (aliases : List Alias) : Draft.M Scope := do
  let names ← aliases.mapM fun a => do
    return (a.name, ← Draft.claim (nonEmpty (Identifier.normalize a.name) "Alias"))
  return {
    aliases := Entries.ofList (· == ·) (aliases.map fun a => (a.name, a))
    names := Entries.ofList (· == ·) names }

/-- The name an alias is declared under. -/
def nameOf (scope : Scope) (target : String) : String :=
  nonEmpty ((scope.names.lookup target).getD "") (Identifier.normalize target)

end Scope
end ClientBindings

import ClientBindings.Wire.Text

/-! Request configurations are mappings. Plugins and body formats build changed copies of them; `none`
stands for a configuration left alone. -/

namespace ClientBindings.Wire

abbrev Config := Value.Fields

/-- The entries of a value spread into another mapping; a false value has none. -/
def spread (v : Value) : Result Value.Fields :=
  if !v.truthy then return [] else
  match v with
  | .map entries => return entries
  | _ => throw .wrongKind

/-- The entries of a value that has to be a mapping unless it is false. -/
def entriesOf (v : Value) : Result Value.Fields :=
  if !v.truthy then return [] else
  match v with
  | .map entries => return entries
  | _ => throw .noMember

namespace Config

def get (c : Config) (key : String) : Value := Value.getD c key

def put (c : Config) (key : String) (v : Value) : Config := Value.put c key v

/-- A copy with one header set over the present ones. -/
def withHeader (c : Config) (name : String) (v : Value) : Result Config := do
  return c.put "headers" (.map (Value.put (← spread (c.get "headers")) name v))

/-- The two elements of a value that serves as an entry, the first of them a key. -/
def entryOf (v : Value) : Result (Value × Value) := do
  match ← v.elements with
  | [key, value] => if key.isKey then return (key, value) else throw .wrongKind
  | _ => throw .badValue

/-- A fresh mapping of a mapping's entries or of a sequence of pairs. -/
def copied : Value → Result Value.Fields
  | .map entries => return entries
  | v => return Entries.ofList Value.same (← (← v.elements).mapM entryOf)

/-- Header names put over the present ones; without any, a fresh mapping. -/
def headersOver (present v : Value) : Result Value.Fields :=
  if !present.truthy then copied v else
  match v with
  | .map update => return Entries.merge Value.same (← spread present) update
  | _ => throw .wrongKind

def mergeHeaders (result : Config) (v : Value) : Result Config := do
  if !v.truthy then return result
  return result.put "headers" (.map (← headersOver (result.get "headers") v))

def isHeaders : Value → Bool
  | .str s => s == "headers"
  | _ => false

def mergeEntry (result : Config) (entry : Value × Value) : Result Config :=
  if isHeaders entry.1 then result.mergeHeaders entry.2
  else return if entry.2.isNull then result else Entries.put Value.same result entry.1 entry.2

/-- Merges from left to right. Null never overrides, headers merge name by name and every other key is
replaced. -/
def merge (configs : List Value) : Result Config :=
  configs.foldlM (fun result config => do (← entriesOf config).foldlM mergeEntry result) []

end Config
end ClientBindings.Wire

import ClientBindings.Wire.Config

/-! The active base URL among the servers an API declares. -/

namespace ClientBindings.Wire

structure Server where
  configs : List Value
  url : Value
deriving Repr, Inhabited

namespace Server

/-- The element at a position; negative positions count from the end. -/
def element (items : List Value) (index : Value) : Result Value := do
  let some i := (match index with | .scalar (.float _) => none | .scalar s => s.whole? | _ => none)
    | throw .wrongKind
  let position := if i < 0 then i + items.length else i
  if position < 0 then throw .outOfRange
  match items[position.toNat]? with
  | some v => return v
  | none => throw .outOfRange

/-- Fills the first placeholder of every variable that has a scalar value. -/
def fill (url : Value) (name v : Value) : Result Value := do
  if !isScalar v then return url
  match url with
  | .str s =>
    let pattern := '\x7b' :: ((← name.toText).toList ++ ['\x7d'])
    return .str (Text.onChars (Text.replaceFirst pattern (← encode v).toList) s)
  | .bytes _ =>
    let _ ← name.toText
    let _ ← encode v
    throw .wrongKind
  | _ => throw .noMember

/-- The URL of a server, its defaults being overridden by the given variables. -/
def resolve (configs : List Value) (index given : Value) : Result Value := do
  let .map config ← element configs index | throw .wrongKind
  let some url := Value.find? config "url" | throw .missingKey
  let defaults ← spread (Value.getD config "variables")
  let values := Entries.merge Value.same defaults (← spread given)
  values.foldlM (fun url (name, v) => fill url name v) url

/-- The first server is active at the start. -/
def ofConfigs (configs : List Value) : Result Server := do
  if configs.isEmpty then return ⟨configs, .null⟩
  return ⟨configs, ← resolve configs (.int 0) .null⟩

def select (s : Server) (index given : Value) : Result Server := do
  return { s with url := ← resolve s.configs index given }

/-- Adds the base URL unless it is empty. -/
def transform (s : Server) (config : Config) : Option Config :=
  if s.url.truthy then some (config.put "base_url" s.url) else none

end Server
end ClientBindings.Wire

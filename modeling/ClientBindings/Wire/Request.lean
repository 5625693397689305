import ClientBindings.Unicode.Casing
import ClientBindings.Wire.Body

/-! Requests as a configuration describes them: method, URL, headers and what accompanies them. -/

namespace ClientBindings.Wire

/-- What accompanies a request besides its headers. -/
inductive Content where
  | empty
  | raw (v : Value)
  | json (v : Value)
  | files (uploads : List Value)
deriving Repr, Inhabited

structure Request where
  method : String
  url : String
  headers : List (Value × Value)
  content : Content
deriving Repr, Inhabited

namespace Request

/-- Headers without the null ones, as texts. -/
def headersOf (v : Value) : Result (List (Value × Value)) := do
  ((← entriesOf v).filter fun e => !e.2.isNull).mapM fun (name, v) => return (name, .str (← v.toText))

def contentOf : Value → Result Content
  | .null => return .empty
  | .multipart fields => return .files (← fields.mapM BodyFormat.upload)
  | .map es => return .json (.map es)
  | .list items => return .json (.list items)
  | .tuple items => return .json (.tuple items)
  | v => return .raw v

/-- The method in capitals; requests without one read. -/
def methodOf (v : Value) : Result String :=
  if !v.truthy then return "GET" else
  match v with
  | .str s => return Text.onChars Unicode.upper s
  | _ => throw .noMember

def ofConfig (url : String) (config : Config) : Result Request := do
  let headers ← headersOf (config.get "headers")
  let content ← contentOf (config.get "body")
  return { method := ← methodOf (config.get "method"), url, headers, content }

end Request
end ClientBindings.Wire

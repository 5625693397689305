import ClientBindings.Wire.Config
import ClientBindings.Wire.Style

/-! Body formats: what a request's body becomes before it is sent. -/

namespace ClientBindings.Wire

inductive BodyFormat where
  | json | urlencoded | multipart | raw
deriving DecidableEq, Repr, Inhabited

namespace BodyFormat

def name : BodyFormat → String
  | .json => "json"
  | .urlencoded => "urlencoded"
  | .multipart => "multipart"
  | .raw => "raw"

def all : List BodyFormat := [.json, .urlencoded, .multipart, .raw]

def ofName? (name : String) : Option BodyFormat := all.find? fun f => f.name == name

/-- The fields of a body: the name is repeated for every element of a sequence. -/
def fields (body : Value) : Result Value.Fields := do
  return (← entriesOf body).flatMap fun (name, v) =>
    match v with
    | .list items | .tuple items => items.map (name, ·)
    | v => [(name, v)]

/-- A name as form component: bytes as they are, anything else as its text. -/
def formName : Value → Result String
  | .bytes bs => return String.ofList (Percent.formBytes bs)
  | name => return Text.onChars Percent.formComponent (← name.toText)

def formField (name v : Value) : Result String := do
  let text ← stringify v
  return (← formName name) ++ "=" ++ Text.onChars Percent.formComponent text

def formText (fields : Value.Fields) : Result String :=
  return Layout.join "&" (← fields.mapM fun (name, v) => formField name v)

/-- A field as an upload: bytes get a file name and a media type, tuples are uploads already and other
values become plain texts. -/
def upload : Value × Value → Result Value
  | (name, .bytes bs) => return .tuple [name, .tuple [.str "blob", .bytes bs, .str "application/octet-stream"]]
  | (name, .tuple items) => return .tuple [name, .tuple items]
  | (name, v) => return .tuple [name, .tuple [.null, .str (← stringify v)]]

def withContent (config : Config) (body : Value) (mediaType : String) : Result Config :=
  Config.withHeader (config.put "body" body) "Content-Type" (.str mediaType)

/-- The configuration with its body formatted, `none` when it stays as it is. -/
def apply (format : BodyFormat) (config : Config) : Result (Option Config) := do
  let body := config.get "body"
  match format with
  | .raw => return none
  | .json =>
    let text ← toJson (if body.isNull then .map [] else body)
    return some (← withContent config (.str text) "application/json")
  | .urlencoded =>
    let text ← formText (← fields body)
    return some (← withContent config (.str text) "application/x-www-form-urlencoded")
  | .multipart => return some (config.put "body" (.multipart (← fields body)))

/-- A value as configuration with its body formatted; only the raw format takes any value. -/
def applyTo (format : BodyFormat) (config : Value) : Result (Option Config) :=
  match format, config with
  | .raw, _ => return none
  | _, .map entries => format.apply entries
  | _, _ => throw .noMember

end BodyFormat
end ClientBindings.Wire

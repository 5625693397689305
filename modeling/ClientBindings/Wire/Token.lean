import ClientBindings.Text.Base64
import ClientBindings.Wire.Config

/-! Security tokens: how a secret is written into a request, and the registry that holds one token for
each security scheme. -/

namespace ClientBindings.Wire

inductive TokenKind where
  | basic | bearer | header | query
deriving DecidableEq, Repr, Inhabited

namespace TokenKind

def name : TokenKind → String
  | .basic => "basic"
  | .bearer => "bearer"
  | .header => "header"
  | .query => "query"

def ofName? (name : String) : Option TokenKind :=
  [.basic, .bearer, .header, .query].find? fun k => TokenKind.name k == name

/-- The two parts that a secret unpacks into. -/
def twoParts (v : Value) : Result (Value × Value) := do
  match ← v.elements with
  | [a, b] => return (a, b)
  | _ => throw .badValue

def credentials : Value → Result (Value × Value)
  | .map entries => return (Value.getD entries "username", Value.getD entries "password")
  | v => twoParts v

/-- A secret as it is sent; none without a secret. -/
def format (kind : TokenKind) (secret : Value) : Result (Option String) := do
  if secret.isNull then return none
  match kind with
  | .basic =>
    let (user, word) ← credentials secret
    let bytes := Utf8.encode ((← user.toText) ++ ":" ++ (← word.toText)).toList
    return some ("Basic " ++ String.ofList (Base64.encode bytes))
  | .bearer => return some ("Bearer " ++ (← secret.toText))
  | .header | .query => return some (← secret.toText)

end TokenKind

structure Token where
  kind : TokenKind
  /-- The header or query parameter that carries the token. -/
  name : String
  provider : Value
deriving Repr, Inhabited

namespace Token

def authorization : String := "Authorization"

def basic (provider : Value) : Token := ⟨.basic, authorization, provider⟩
def bearer (provider : Value) : Token := ⟨.bearer, authorization, provider⟩

def inQuery (t : Token) : Bool := t.kind == .query

/-- The provided secret; a source is asked for it. -/
def secret (t : Token) : Value :=
  match t.provider with
  | .source _ v => v
  | v => v

def format (t : Token) : Result (Option String) := t.kind.format t.secret

end Token

/-- Tokens by the name of their security scheme. -/
structure TokenRegistry where
  tokens : List (String × Token) := []
deriving Repr, Inhabited

namespace TokenRegistry

def set (r : TokenRegistry) (scheme : String) (t : Token) : TokenRegistry :=
  ⟨Entries.put (· == ·) r.tokens scheme t⟩

def remove (r : TokenRegistry) (scheme : String) : TokenRegistry := ⟨Entries.erase (· == ·) r.tokens scheme⟩

def find? (r : TokenRegistry) (scheme : String) : Option Token := Entries.find? (· == ·) r.tokens scheme

def names (r : TokenRegistry) : List String := r.tokens.map Prod.fst

def token (r : TokenRegistry) (scheme : String) : Result (Option String) :=
  match r.find? scheme with
  | some t => t.format
  | none => return none

/-- The token of a scheme given as a value, which has to be a possible key. -/
def findValue? (r : TokenRegistry) (scheme : Value) : Result (Option Token) :=
  if !scheme.isKey then throw .wrongKind else
  match scheme with
  | .str name => return r.find? name
  | _ => return none

def schemesOf (v : Value) : Result (List Value) := if v.truthy then v.elements else return []

/-- The first of the schemes whose header token yields a value. -/
def firstHeader (r : TokenRegistry) : List Value → Result (Option (String × String))
  | [] => return none
  | scheme :: rest => do
    match ← r.findValue? scheme with
    | none => r.firstHeader rest
    | some t =>
      if t.inQuery then r.firstHeader rest else
      match ← t.format with
      | some text => return some (t.name, text)
      | none => r.firstHeader rest

/-- Adds the first available header token among the schemes the configuration lists. -/
def transform (r : TokenRegistry) (config : Config) : Result (Option Config) := do
  match ← r.firstHeader (← schemesOf (config.get "security")) with
  | some (name, text) => return some (← config.withHeader name (.str text))
  | none => return none

end TokenRegistry
end ClientBindings.Wire

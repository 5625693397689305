import ClientBindings.Binding.Diagnostic
import ClientBindings.Wire.Token

/-! Security schemes of a document and the tokens they need. Schemes that cannot be served are
reported and left out, so operations that name them send no token. -/

namespace ClientBindings

structure SecurityBinding where
  name : Scalar
  token : Wire.TokenKind
  /-- The header or query parameter that carries the token. -/
  parameter : Data
deriving Repr

namespace SecurityBinding

open Compilation

/-- The word for the scheme. -/
def kind (b : SecurityBinding) : String :=
  match b.token with
  | .basic => "basic"
  | .bearer => "bearer"
  | .header | .query => "apiKey"

def inQuery (b : SecurityBinding) : Bool := b.token == .query

def location (b : SecurityBinding) : String := if b.inQuery then "query" else "header"

/-- The schemes a document declares, with references followed. -/
def declared (document : Data) : Result (List (Scalar × Data)) := do
  let components := (← document.get "components").orElse (.map [])
  let schemes ← ((← components.get "securitySchemes").orElse (.map [])).entries
  schemes.mapM fun (name, scheme) => return (name, ← Reference.resolve document scheme)

def ofHttp (name : Scalar) (scheme : Data) (location : String) : M (Option SecurityBinding) := do
  let given := (scheme.find? "scheme").getD (.str "")
  match Text.onChars Unicode.lower (← (given.toText : Result _)) with
  | "basic" => return some ⟨name, .basic, .str Wire.Token.authorization⟩
  | "bearer" => return some ⟨name, .bearer, .str Wire.Token.authorization⟩
  | _ =>
    let shown ← (((scheme.find? "scheme").getD .null).toText : Result _)
    warn (.unsupportedHttpScheme shown location)
    return none

def ofKey (name : Scalar) (scheme : Data) (location : String) : M (Option SecurityBinding) := do
  let parameter := (scheme.find? "name").getD (.str "")
  match (scheme.find? "in").getD .null with
  | .str "header" => return some ⟨name, .header, parameter⟩
  | .str "query" => return some ⟨name, .query, parameter⟩
  | place => warn (.unsupportedKeyPlace (← (place.toText : Result _)) location); return none

def ofScheme (name : Scalar) (scheme : Data) : M (Option SecurityBinding) := do
  let type ← (scheme.get "type" : Result _)
  let location := "components.securitySchemes." ++ (← (name.toText : Result _))
  match type with
  | .str "http" => ofHttp name scheme location
  | .str "apiKey" => ofKey name scheme location
  | type => warn (.unsupportedSchemeType (← (type.toText : Result _)) location); return none

/-- The bindings of a document's schemes, in the order of declaration. -/
def ofDocument (document : Data) : M (List SecurityBinding) := do
  let schemes ← (declared document : Result _)
  return (← schemes.mapM fun (name, scheme) => ofScheme name scheme).reduceOption

end SecurityBinding
end ClientBindings

import ClientBindings.Binding.Call
import ClientBindings.Binding.Parameters
import ClientBindings.Binding.Placeholder
import ClientBindings.Binding.Response
import ClientBindings.Binding.Security

/-! One operation of a document as a function to generate: its arguments, the URL and the headers they
are written into, and the kind and type of its response. -/

namespace ClientBindings

structure OperationBinding where
  id : Scalar
  method : String
  path : String
  groups : List Group
  url : UrlTemplate
  headers : List HeaderCall
  responseKind : ResponseKind
  responseType : TypeNode
  bodyFormat : Option Wire.BodyFormat
  /-- The security schemes the operation names. -/
  security : List Scalar
  doc : Data
  deprecated : Bool
  tags : List Data
deriving Repr

namespace OperationBinding

open Compilation

/-- The argument groups that the URL is built from. -/
def urlKeys : List GroupKey := [.path, .query]

/-- The argument groups that the request configuration is built from. -/
def configKeys : List GroupKey := [.header, .body, .config]

def keysAmong (b : OperationBinding) (keys : List GroupKey) : List GroupKey :=
  (b.groups.map Group.key).filter keys.contains

/-- The scheme that a security requirement names first. -/
def firstScheme (requirement : Data) : Result (Option Data) := do
  return ((← (requirement.orElse (.map [])).elements).head?).filter Data.truthy

/-- The schemes of the requirements, each requirement counting for its first scheme. -/
def securityOf (operation : Data) : Result (List Data) := do
  let requirements ← ((← operation.get "security").orElse (.list [])).elements
  requirements.filterMapM firstScheme

/-- The call that writes a member of a group. -/
def memberCall (ps : Parameters) (naming : Naming) (key : GroupKey) (name : Data) : StyledMember :=
  let group := ps.group? key
  let style := ps.style key name
  { style := style.style, name, source := (group.map Group.identifier).getD (naming.identifier key)
    explode := style.explode
    required := group.any fun g => g.required && (g.member? name).any Member.required }

/-- Adds a placeholder to the parameters, unless one of them declares it. -/
def addPlaceholder (document : Data) (naming : Naming) (location : String) (ps : Parameters)
    (name : String) : M Parameters :=
  if (ps.names .path).any fun n => n.same (.str name) then pure ps
  else ps.addPath document naming location name

/-- The placeholders of a path with the literals behind them. Each call is made when its placeholder is
met, and stays as it is when later placeholders add parameters. -/
def pathSpans (document : Data) (naming : Naming) (location : String) (ps : Parameters)
    (found : List (String × String)) : M (Parameters × List UrlSpan) :=
  found.foldlM (fun (ps, spans) (name, literal) => do
    let ps ← addPlaceholder document naming location ps name
    return (ps, spans ++ [⟨.member (memberCall ps naming .path (.str name)), literal⟩])) (ps, [])

/-- The query parameters, then the tokens that are sent in the query. -/
def queryOf (ps : Parameters) (naming : Naming) (schemes : List (Scalar × SecurityBinding)) : List Call :=
  let own := (ps.names .query).map fun name => Call.member (memberCall ps naming .query name)
  let tokens := schemes.filterMap fun (name, b) =>
    if b.inQuery then some (Call.token ⟨name, some Wire.Style.form.name, b.parameter⟩) else none
  own ++ tokens

/-- The path with its placeholders, then the query if it has parts. -/
def urlWith (head : String) (spans : List UrlSpan) (query : List Call) : UrlTemplate :=
  ⟨head, if query.isEmpty then spans else spans ++ [⟨.query query, ""⟩]⟩

/-- The header parameters, then the headers of the tokens. -/
def headersOf (ps : Parameters) (naming : Naming) (schemes : List (Scalar × SecurityBinding)) :
    List HeaderCall :=
  let own := (ps.names .header).map fun name => ⟨name, .member (memberCall ps naming .header name)⟩
  let tokens := schemes.filterMap fun (name, b) =>
    if b.inQuery then none else some ⟨b.parameter, .token ⟨name, none, .null⟩⟩
  own ++ tokens

/-- Where and under which id an operation stands. -/
structure Site where
  id : Scalar
  path : Scalar
  method : String

namespace Site

def location (p : Site) : String := p.path.text ++ "." ++ p.method

end Site

/-- Binary and text responses have the types of their kinds, whatever their schemas say. -/
def responseTypeFor (kind : ResponseKind) (declared : TypeNode) : TypeNode :=
  match kind with
  | .json => declared
  | .text => .string
  | .blob => .binary

/-- The binding of an operation. Types are synthesized in the order parameters, body, responses. -/
def bind (document : Data) (naming : Naming) (security : List SecurityBinding) (site : Site)
    (operation pathItem : Data) : M OperationBinding := do
  let ps ← Parameters.classify document naming site.location operation pathItem
  let required ← (securityOf operation : Result _)
  let path ← ((Data.scalar site.path).asText : Result _)
  let scanned := Placeholder.scan path
  let placed ← pathSpans document naming site.location ps scanned.2
  let ps := placed.1
  let names ← (required.mapM Data.asKey : Result _)
  let schemes := names.filterMap fun name =>
    (security.find? fun b => b.name.same name).map fun b => (name, b)
  let responses ← (do return (← operation.get "responses").orElse (.map []) : Result _)
  let kind ← (Response.kind document responses : Result _)
  let declared ← synthesize (Response.type document responses)
  let summary ← (operation.get "summary" : Result _)
  let description ← (operation.get "description" : Result _)
  let deprecated ← (operation.get "deprecated" : Result _)
  let tags ← (do ((← operation.get "tags").orElse (.list [])).elements : Result _)
  return {
    id := site.id, method := site.method, path, groups := ps.ordered
    url := urlWith scanned.1 placed.2 (queryOf ps naming schemes)
    headers := headersOf ps naming schemes
    responseKind := kind, responseType := responseTypeFor kind declared
    bodyFormat := ps.bodyFormat, security := names
    doc := summary.orElse description, deprecated := deprecated.truthy, tags }

end OperationBinding
end ClientBindings

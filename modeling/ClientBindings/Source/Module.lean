import ClientBindings.Binding.Api
import ClientBindings.Source.TypeText
import ClientBindings.Source.Expression
import ClientBindings.Source.Signature

/-! A generated module before it is laid out: every name is chosen and every declaration made. -/

namespace ClientBindings

/-- A server as an entry of the module's server list. -/
structure ServerEntry where
  url : Data
  /-- The defaults of its variables as a literal. -/
  defaults : String := "None"
  /-- The type of its variables. -/
  type : String := "None"
  declaration : Option RecordDeclaration := none
deriving Repr, Inhabited

/-- A function that sets the token of a security scheme. -/
structure TokenSetter where
  name : String
  /-- The function of the library it fixes arguments of. -/
  target : String
  arguments : String
deriving Repr

/-- One operation as three functions: the URL, the request configuration and the request. -/
structure OperationFunctions where
  name : String
  urlName : String
  configName : String
  doc : Data
  arguments : List Argument
  urlArguments : List Argument
  configArguments : List Argument
  urlBody : List String
  configBody : List String
  fetch : String
  result : String
  declarations : List RecordDeclaration
deriving Repr

structure Module where
  name : String
  title : Data
  version : String
  naming : Naming
  servers : List ServerEntry
  setters : List TokenSetter
  declarations : List Declaration
  operations : List OperationFunctions
deriving Repr

namespace Module

open Draft

/-- The names that generated modules import or take from the language. -/
def importedNames : List String :=
  ["Any", "Enum", "Literal", "NoReturn", "NotRequired", "TypeAlias", "TypedDict", "annotations",
   "functools", "overload", "float", "str", "bool", "bytes", "dict", "int", "list", "tuple", "type"]

def reservedNames (n : Naming) : List String :=
  importedNames ++ [n.runtimeVar, n.stylerVar, n.formatterVar, n.serverVar, n.securityVar, n.clientVar,
    n.requestConfigType, n.responseType, n.serverConfigsType, n.versionName, n.clientName,
    n.setServerName, n.setServerUrlName]

/-- A name read from a document, turned into an identifier by a function on texts. -/
def identifierWith (convert : String → String) (d : Data) : Result String :=
  if !d.truthy then return "" else
  match d with
  | .str s => return convert s
  | _ => throw .wrongKind

def functionName (d : Data) (other : String) : Result String := do
  return Scope.nonEmpty (← identifierWith Identifier.functionName d) other

def className (d : Data) : Result String := identifierWith Identifier.className d

/-- A mapping of literals. -/
def mappingLiteral (entries : List (String × String)) : String :=
  "\x7b" ++ String.intercalate ", " (entries.map fun (k, v) => k ++ ": " ++ v) ++ "\x7d"

section
variable (naming : Naming) (w : TypeWriter)

def serverEntry (indexed : ServerBinding × Nat) : M ServerEntry := do
  let (server, index) := indexed
  match server.overrides with
  | none => return { url := server.url }
  | some fields =>
    let name ← claim ("Server" ++ toString index ++ "Variables")
    let d ← w.record name fields server.description []
    let defaults := server.vars.map fun v => (Literal.spelling v.name, Literal.quoted v.default)
    return { url := server.url, defaults := mappingLiteral defaults, type := name ++ " | None"
             declaration := some d }

def setterTarget : Wire.TokenKind → String
  | .basic => "set_basic_token"
  | .bearer => "set_bearer_token"
  | .header => "set_header_token"
  | .query => "set_query_token"

def tokenSetter (b : SecurityBinding) : M TokenSetter := do
  let base ← (functionName (.scalar b.name) "security" : Result _)
  let name ← claim (naming.setTokenStem ++ base)
  let carrier := if b.kind == "apiKey" then [b.parameter] else []
  let arguments ← ((Data.scalar b.name :: carrier).mapM Literal.ofData : Result _)
  return ⟨name, setterTarget b.token, String.intercalate ", " arguments⟩

/-- The type of an argument. The members of a group that travels in the URL or the headers make up a
record of their own. -/
def argument (operation : String) (g : Group) : M (Argument × Option RecordDeclaration) := do
  let hint := operation ++ Identifier.className g.identifier
  match GroupKey.ofLocation? g.key.name, g.type with
  | some _, .object fields _ =>
    let name ← claim hint
    let d ← w.record name fields .null []
    return (⟨g.identifier, name, g.required⟩, some d)
  | _, type => return (⟨g.identifier, ← w.render type hint, g.required⟩, none)

/-- A missing argument is replaced by an empty mapping. -/
def orEmpty (a : Argument) : String := a.name ++ " = " ++ a.name ++ " or \x7b\x7d"

def pick (arguments : List (GroupKey × Argument)) (keys : List GroupKey) : List Argument :=
  keys.filterMap fun k => arguments.lookup k

def operationFunctions (b : OperationBinding) : M OperationFunctions := do
  let base ← (functionName (.scalar b.id) "operation" : Result _)
  let name ← claim base
  let urlName ← claim (name ++ naming.urlEnding)
  let configName ← claim (name ++ naming.configEnding)
  let stem ← (className (.scalar b.id) : Result _)
  let arguments ← b.groups.mapM (argument w stem)
  let keyed := (b.groups.zip arguments).map fun (g, a) => (g.key, a.1)
  let urlArguments := pick keyed OperationBinding.urlKeys
  let headers := (pick keyed [.header]).filter fun a => !a.required
  let result ← w.render b.responseType (stem ++ "Response")
  let hasBody := b.groups.any fun g => g.key == .body
  let doc ← (Remark.noted b.doc b.deprecated : Result _)
  return {
    name, urlName, configName, urlArguments, doc
    arguments := arguments.map Prod.fst
    configArguments := pick keyed OperationBinding.configKeys
    urlBody := (urlArguments.filter fun a => !a.required).map orEmpty ++ Expression.returnUrl naming b.url
    configBody := (headers ++ pick keyed [.config]).map orEmpty
      ++ Expression.returnConfig naming b.method hasBody b.headers b.bodyFormat
    fetch := "fetch_" ++ b.responseKind.name
    result := naming.responseType ++ "[" ++ result ++ "]"
    declarations := arguments.filterMap Prod.snd }

end

/-- Drafts the module of an API, types being nested at most to a depth: servers, tokens, aliases and
operations claim their names in that order, after the aliases themselves. -/
def draftAt (depth : Nat) (api : Api) (naming : Naming) : M Module := do
  let w := TypeWriter.atDepth (← Scope.ofAliases api.aliases) depth
  let servers ← api.servers.zipIdx.mapM (serverEntry w)
  let setters ← api.security.mapM (tokenSetter naming)
  let declarations ← api.aliases.mapM w.declaration
  let operations ← api.operations.mapM (operationFunctions naming w)
  return {
    name := Scope.nonEmpty (Identifier.functionName api.name) "api"
    title := api.title, version := api.version, naming, servers, setters
    declarations := Declaration.ordered (declarations ++ (← get).inline), operations }

def ofApiAt (depth : Nat) (api : Api) (naming : Naming) : Result Module :=
  ((draftAt depth api naming).run { taken := reservedNames naming }).1

def ofApi (api : Api) (naming : Naming) : Result Module := ofApiAt TypeWriter.depthLimit api naming

end Module
end ClientBindings

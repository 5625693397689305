/-! The names that generated modules share with the library they call, and the keys of the groups that
parameters fall into. -/

namespace ClientBindings

/-- Where the arguments of one group travel. The order of the constructors is the order of the
arguments. -/
inductive GroupKey where
  | path | query | header | body | config
deriving DecidableEq, Repr, Inhabited

namespace GroupKey

def all : List GroupKey := [.path, .query, .header, .body, .config]

def name : GroupKey → String
  | .path => "path"
  | .query => "query"
  | .header => "header"
  | .body => "body"
  | .config => "config"

def ofName? (name : String) : Option GroupKey := all.find? fun k => k.name == name

/-- The group of a parameter by the location it declares. -/
def ofLocation? (location : String) : Option GroupKey :=
  [.path, .query, .header].find? fun k => k.name == location

end GroupKey

structure Naming where
  runtimeModule : String := "py_oas_generator.runtime"
  runtimeVar : String := "_r"
  stylerVar : String := "_s"
  formatterVar : String := "_f"
  serverVar : String := "_sv"
  securityVar : String := "_su"
  clientVar : String := "_c"
  pathKey : String := "paths"
  queryKey : String := "query"
  headerKey : String := "headers"
  bodyKey : String := "body"
  configKey : String := "config"
  methodKey : String := "method"
  requestConfigType : String := "ClientRequestConfig"
  responseType : String := "ClientResponse"
  serverConfigsType : String := "ClientServerConfigs"
  versionName : String := "version"
  clientName : String := "client"
  setServerName : String := "set_server"
  setServerUrlName : String := "set_server_url"
  setTokenStem : String := "set_token_"
  urlEnding : String := "_url"
  configEnding : String := "_config"
deriving DecidableEq, Repr, Inhabited

namespace Naming

/-- The name of the argument that holds a group. -/
def identifier (naming : Naming) : GroupKey → String
  | .path => naming.pathKey
  | .query => naming.queryKey
  | .header => naming.headerKey
  | .body => naming.bodyKey
  | .config => naming.configKey

end Naming
end ClientBindings

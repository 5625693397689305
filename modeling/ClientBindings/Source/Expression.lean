import ClientBindings.Binding.Operation
import ClientBindings.Source.Literal

/-! Calls as expressions, and the statements that return a URL or a request configuration. A statement
is a list of lines. The names in them are the names of record fields and of schemes, which have texts. -/

namespace ClientBindings

namespace Expression

def margin : String := "    "

def indent (lines : List String) : List String := lines.map (margin ++ ·)

def call (function : String) (arguments : List String) : String :=
  function ++ "(" ++ String.intercalate ", " arguments ++ ")"

/-- Lines between two brackets. -/
def enclosed (first : String) (lines : List String) (last : String) : List String :=
  first :: indent lines ++ [last]

/-- A comma behind the last line. -/
def withComma : List String → List String
  | [] => []
  | [line] => [line ++ ","]
  | line :: rest => line :: withComma rest

/-- The value of a member; one that may be missing is looked up. -/
def access (m : StyledMember) : String :=
  let key := Literal.spellingOf m.name
  if m.required then m.source ++ "[" ++ key ++ "]" else m.source ++ ".get(" ++ key ++ ")"

variable (naming : Naming)

def styled (style : String) (arguments : List String) : String :=
  call (naming.stylerVar ++ "." ++ style) arguments

def ofMember (m : StyledMember) : String :=
  let name := if m.isNamed then [Literal.spellingOf m.name] else []
  let explode := if m.passesExplode then ["True"] else []
  styled naming m.style.text (name ++ [access m] ++ explode)

def ofToken (t : TokenCall) : String :=
  let token := "await " ++ call (naming.securityVar ++ ".token") [Literal.spelling t.security]
  match t.style with
  | none => token
  | some style =>
    styled naming style (if t.parameter.isNull then [token] else [Literal.spellingOf t.parameter, token])

def ofCall : Call → String
  | .member m => ofMember naming m
  | .token t => ofToken naming t

/-- The query string, one line for every part. -/
def ofQuery (parts : List Call) : List String :=
  enclosed (naming.stylerVar ++ ".query(") (parts.map fun p => ofCall naming p ++ ",") ")"

/-- A piece of a URL; a value that contributes nothing leaves no text. -/
def ofUrlCall : UrlCall → List String
  | .member m => [ofMember naming m ++ " or \"\""]
  | .query parts => ofQuery naming parts

def ofText (text : String) : List (List String) := if text.isEmpty then [] else [[Literal.quoted text]]

/-- The pieces of a URL in order. -/
def urlPieces (url : UrlTemplate) : List (List String) :=
  ofText url.head ++ url.spans.flatMap fun s => ofUrlCall naming s.call :: ofText s.literal

def returnUrl (url : UrlTemplate) : List String :=
  if url.isLiteral then ["return " ++ Literal.quoted url.head] else
  enclosed "return \"\".join(" (enclosed "[" ((urlPieces naming url).flatMap withComma) "]") ")"

/-- The entries of a request configuration, each ending in a comma. -/
def configEntries (method : String) (hasBody : Bool) (headers : List HeaderCall) : List String :=
  let entry (key value : String) : String := Literal.quoted key ++ ": " ++ value ++ ","
  let given := naming.configKey
  let head := ["**" ++ given ++ ",", entry naming.methodKey (Literal.quoted (Text.onChars Unicode.upper method))]
  let body := if hasBody then [entry naming.bodyKey naming.bodyKey] else []
  let own := "**(" ++ given ++ ".get(" ++ Literal.quoted naming.headerKey ++ ") or \x7b\x7d),"
  let calls := headers.map fun h => Literal.spellingOf h.key ++ ": " ++ ofCall naming h.call ++ ","
  head ++ body ++
    if headers.isEmpty then []
    else enclosed (Literal.quoted naming.headerKey ++ ": \x7b") (own :: calls) "\x7d,"

def returnConfig (method : String) (hasBody : Bool) (headers : List HeaderCall)
    (format : Option Wire.BodyFormat) : List String :=
  let entries := configEntries naming method hasBody headers
  match format with
  | none => enclosed "return \x7b" entries "\x7d"
  | some f =>
    enclosed ("return " ++ naming.formatterVar ++ "." ++ f.name ++ "(") (enclosed "\x7b" entries "\x7d") ")"

end Expression
end ClientBindings

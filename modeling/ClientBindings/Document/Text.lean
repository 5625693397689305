import ClientBindings.Failure
import ClientBindings.Document.Location
import ClientBindings.Json.Reader
import ClientBindings.Unicode.Casing
import ClientBindings.Yaml.Reader

/-! The document a text holds. The extension of its location says whether the text is YAML; any other
text is JSON, or YAML if it turns out to be a mapping. -/

namespace ClientBindings.Document

def isYamlSuffix (suffix : String) : Bool :=
  [".yaml", ".yml"].contains (Text.onChars Unicode.lower suffix)

def parse (text : String) (suffix : String) : Result Data := do
  if isYamlSuffix suffix then Yaml.parse text
  else match Json.parse text with
    | .error .invalidJson =>
      let d ← Yaml.parse text
      if d.isMap then return d else throw .invalidJson
    | read => read

end ClientBindings.Document

import ClientBindings.Binding.Naming
import ClientBindings.Schema.Synthesis
import ClientBindings.Wire.Body

/-! The style a parameter is sent in and the format of a request body, as a document declares them. A
style that the library does not know is kept under its own name. -/

namespace ClientBindings

structure StyleSpec where
  style : Scalar
  explode : Bool
deriving DecidableEq, Repr, Inhabited

namespace StyleSpec

/-- The library's names for styles that documents call otherwise. -/
def aliases : List (String × Wire.Style) :=
  [("spaceDelimited", .space), ("pipeDelimited", .pipe), ("deepObject", .deep)]

def ofName (name : Scalar) : Scalar :=
  match name with
  | .str s => .str (((aliases.lookup s).map Wire.Style.name).getD s)
  | s => s

def named (style : Wire.Style) : Data := .str style.name

/-- The style without which parameters are sent: paths and headers use the simple one. -/
def styleFor (location : Data) : Wire.Style :=
  if location.same "path" || location.same "header" then .simple else .form

def hasJsonContent (content : Data) : Bool :=
  match content with
  | .map entries => Entries.contains Scalar.same entries (.str Schema.jsonMediaType)
  | _ => false

/-- The effective style of a parameter; the form style is exploded if nothing else is said. -/
def ofParameter (parameter : Data) : Result StyleSpec := do
  let parameter := parameter.orElse (.map [])
  if hasJsonContent (← parameter.get "content") then return ⟨.str Wire.Style.json.name, false⟩
  let declared ← parameter.get "style"
  let place ← parameter.get "in"
  let style := if declared.isNull then named (styleFor place) else declared
  let explode ← parameter.get "explode"
  let isForm := style.same (named .form)
  return ⟨ofName (← style.asKey), if explode.isNull then isForm else explode.truthy⟩

end StyleSpec

namespace Wire.BodyFormat

/-- The format for a media type. -/
def ofMediaType? (mediaType : Scalar) : Option BodyFormat :=
  match mediaType with
  | .str "application/json" => some .json
  | .str "application/x-www-form-urlencoded" => some .urlencoded
  | .str "multipart/form-data" => some .multipart
  | _ => none

/-- The format for the first known media type among several, raw if none is known. -/
def ofMediaTypes : List Data → Result BodyFormat
  | [] => return .raw
  | mediaType :: rest => do
    match ofMediaType? (← mediaType.asKey) with
    | some format => return format
    | none => ofMediaTypes rest

/-- The format of a request body; none without a body. -/
def ofBody (body : Data) : Result (Option BodyFormat) := do
  if body.isNull then return none
  return some (← ofMediaTypes (← ((← body.get "content").orElse (.map [])).elements))

end Wire.BodyFormat
end ClientBindings

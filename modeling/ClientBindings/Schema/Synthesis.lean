import ClientBindings.Document.Reference
import ClientBindings.Schema.TypeTree
import ClientBindings.Text.FreshName
import ClientBindings.Unicode.Casing

/-! From schemas to types. Every pointer that is referred to becomes one named alias, emitted at the
first reference; the pointer is registered before its target is read, so schemas may refer to each
other in circles. -/

namespace ClientBindings.Schema

structure State where
  /-- Names of the pointers met, in order. -/
  refs : List (String × String) := []
  aliases : List Alias := []
  /-- Names in use. -/
  names : List String := []
deriving Inhabited

abbrev M := ExceptT Failure (StateM State)

def defaultContent : Data := .object [("type", .str "string")]

def jsonMediaType : String := "application/json"

/-- The schema of a content map: that of the JSON type, else that of the first type, else text. -/
def ofContent (content : Data) : Result Data := do
  let keys ← content.elements
  let key? := if keys.any fun k => k.same (.str jsonMediaType) then some (.str jsonMediaType) else keys.head?
  match key? with
  | none => return defaultContent
  | some key =>
    if !key.truthy then return defaultContent else
    let mediaType ←
      match content with
      | .map entries => pure ((Entries.find? Scalar.same entries (← key.asKey)).getD .null)
      | _ => throw .noMember
    let schema ← (mediaType.orElse (.map [])).get "schema"
    return if schema.isMap then schema else defaultContent

/-- Texts and numbers make enumerations. -/
def isEnumerable : Data → Bool
  | .scalar s => s.isStr || s.isNumber
  | _ => false

/-- Texts name their member themselves, numbers with a low line in front. -/
def memberSpelling : Scalar → String
  | .str text => text
  | s => "_" ++ s.shown

def memberName (s : Scalar) : Result String := Result.guarded s.isSpellable (memberSpelling s)

def memberOf (value : Data) : Result EnumMember := do
  let s ← value.asKey
  return ⟨← memberName s, s⟩

/-- The literal type of an enumerated value; what JSON knows no scalar for becomes null. -/
def literalOf : Data → TypeNode
  | .scalar s => if s.isPlain then .literal s else .null
  | _ => .null

/-- Mappings count even when they are empty. -/
def counts (d : Data) : Bool := d.isMap || d.truthy

def claimName (name : String) : M String := do
  let s ← get
  let fresh := freshName s.names name
  set { s with names := fresh :: s.names }
  return fresh

def register (pointer name : String) : M Unit :=
  modify fun s => { s with refs := s.refs ++ [(pointer, name)] }

def emit (a : Alias) : M Unit := modify fun s => { s with aliases := s.aliases ++ [a] }

def isTrue : Data → Bool
  | .bool b => b
  | _ => false

/-- The members of an enumeration, if the schema of an alias is one. -/
def enumeration? (schema : Data) : Result (Option (List EnumMember)) := do
  let values ← schema.get "enum"
  if values.isNull then return none
  let values ← values.elements
  if values.all isEnumerable then return some (← values.mapM memberOf) else return none

/-- The target of a reference, its name being reserved and registered. A target that is no mapping
says nothing. -/
def enter (document : Data) (ref : Data) (pointer : String) : M (String × Data) := do
  let target ← (Reference.resolve document ref : Result _)
  let base ← (Reference.name pointer : Result _)
  let name ← claimName (Text.onChars Unicode.upperFirst base)
  register pointer name
  return (name, if target.isMap then target else .map [])

/-- What a title or else a description says. -/
def remark (schema : Data) : Result Data := do
  let title ← schema.get "title"
  if title.truthy then return title else schema.get "description"

variable (document : Data)

/-- The alias of a reference, emitted when the pointer is met first. -/
def refWith (typeOf : Data → M TypeNode) (ref : Data) : M TypeNode := do
  match ref.find? "$ref" with
  | some (.str pointer) =>
    match (← get).refs.lookup pointer with
    | some name => return .reference name (some pointer)
    | none =>
      let (name, target) ← enter document ref pointer
      let comment ← (remark target : Result _)
      match ← (enumeration? target : Result _) with
      | some members => emit (.enumeration name (some pointer) members comment)
      | none => emit (.synonym name (some pointer) (← typeOf target) comment)
      return .reference name (some pointer)
  | some (.scalar _) => throw .noMember
  | _ => throw .wrongKind

/-- The field of a property. Remarks of a referenced schema stay with its alias. -/
def fieldWith (typeOf : Data → M TypeNode) (required : Data) (property : Scalar × Data) : M Field := do
  let (name, schema) := property
  let own := if schema.isMap && !schema.isReference then schema else .map []
  let type ← typeOf schema
  let isRequired ← (required.has (.scalar name) : Result _)
  let comment ← (remark own : Result _)
  let deprecated ← (own.get "deprecated" : Result _)
  return { name := .scalar name, type, required := isRequired, comment, deprecated := deprecated.truthy }

/-- The record of some properties, with a type for further keys if they are allowed by a schema. -/
def recordWith (typeOf : Data → M TypeNode) (properties required additional : Data) : M TypeNode := do
  let entries ← (properties.entries : Result _)
  let fields ← entries.mapM (fieldWith typeOf (required.orElse (.list [])))
  if !counts additional then return .object fields none
  if isTrue additional then return .object fields (some .any)
  return .object fields (some (← typeOf additional))

/-- The types of the schemas under a key that has to be a list of them. -/
def membersWith (typeOf : Data → M TypeNode) (schema : Data) (key : String) : M (List TypeNode) := do
  let schemas ← ((do (← schema.require key).elements) : Result _)
  schemas.mapM typeOf

/-- The type a schema's own `type` names. -/
def namedWith (typeOf : Data → M TypeNode) (schema : Data) : M TypeNode := do
  match ← (schema.get "type" : Result _) with
  | .str "array" =>
    match schema.find? "items" with
    | some items => return .array (← typeOf items)
    | none => return .array .any
  | .str "integer" | .str "number" => return .number
  | .str "boolean" => return .boolean
  | .str "string" =>
    match schema.find? "format" with
    | some (.str "binary") => return .binary
    | _ => return .string
  | .str "object" =>
    let properties := ((schema.find? "properties").getD .null).orElse (.map [])
    recordWith typeOf properties ((schema.find? "required").getD .null)
      ((schema.find? "additionalProperties").getD .null)
  | _ => return .any

/-- The type of a schema apart from `nullable`. -/
def baseWith (typeOf : Data → M TypeNode) (schema : Data) : M TypeNode := do
  if schema.isNull then return .any
  if schema.isReference then return ← refWith document typeOf schema
  if ← (schema.has (.str "oneOf") : Result _) then
    return .unionOf (← membersWith typeOf schema "oneOf")
  if ← (schema.has (.str "anyOf") : Result _) then
    return .unionOf (← membersWith typeOf schema "anyOf")
  if ← (schema.has (.str "allOf") : Result _) then
    return .intersection (← membersWith typeOf schema "allOf")
  if ← (schema.has (.str "enum") : Result _) then
    let values ← ((do (← schema.require "enum").elements) : Result _)
    return .unionOf (values.map literalOf)
  namedWith typeOf schema

def withNull (schema : Data) (type : TypeNode) : TypeNode :=
  if !schema.isReference && isTrue ((schema.find? "nullable").getD .null) then .unionOf [type, .null]
  else type

/-- The type of a schema, nested at most as deep as the first argument tells. -/
def typeOfAt : Nat → Data → M TypeNode
  | 0, _ => throw .tooDeep
  | depth + 1, schema => do
    return withNull schema (← baseWith document (typeOfAt depth) schema)

/-- A depth that is never reached: every pointer is entered once and every level below it is a part of
the document. -/
def depthFor (schema : Data) : Nat := Nat.pow (document.size + schema.size + 2) 2

def typeOf (schema : Data) : M TypeNode := typeOfAt document (depthFor document schema) schema

def baseTypeOf (schema : Data) : M TypeNode :=
  baseWith document (typeOfAt document (depthFor document schema)) schema

/-- The record of some properties on their own. -/
def recordOf (properties required additional : Data) : M TypeNode :=
  recordWith (typeOfAt document (depthFor document (.list [properties, additional])))
    properties required additional

end ClientBindings.Schema

import ClientBindings.Binding.Diagnostic
import ClientBindings.Binding.Style

/-! The parameters of one operation, grouped by where they travel. A group is one argument of the
generated function. -/

namespace ClientBindings

structure Member where
  name : Data
  location : GroupKey
  required : Bool
  type : TypeNode
  style : StyleSpec
  description : Data
  deprecated : Bool
deriving Repr

namespace Member

def field (m : Member) : Field :=
  { name := m.name, type := m.type, required := m.required, comment := m.description,
    deprecated := m.deprecated }

end Member

structure Group where
  key : GroupKey
  identifier : String
  required : Bool
  type : TypeNode
  members : List Member := []
deriving Repr

namespace Group

/-- The group of some members: required in a path, elsewhere if one of them is. -/
def ofMembers (naming : Naming) (key : GroupKey) (members : List Member) : Group where
  key
  identifier := naming.identifier key
  required := key == .path || members.any (·.required)
  type := .object (members.map Member.field) none
  members

def member? (g : Group) (name : Data) : Option Member := g.members.find? fun m => m.name.same name

end Group

/-- What grouping has found: at most one group for every key, and the locations reported as unknown. -/
structure Grouping where
  groups : List Group := []
  reported : List Scalar := []
deriving Repr

namespace Grouping

/-- Puts a group in the place of the one with its key. -/
def put (g : Grouping) (group : Group) : Grouping :=
  if g.groups.any fun h => h.key == group.key then
    { g with groups := g.groups.map fun h => if h.key == group.key then group else h }
  else { g with groups := g.groups ++ [group] }

def report (g : Grouping) (place : Scalar) : Grouping := { g with reported := g.reported ++ [place] }

end Grouping

structure Parameters where
  /-- The declared parameters together with those that the path adds. -/
  declared : List Data
  body : Data
  bodyFormat : Option Wire.BodyFormat
  grouping : Grouping
deriving Repr

namespace Parameters

open Compilation

/-- The parameters that have a name. -/
def withNames (parameters : List Data) : Result (List Data) :=
  parameters.filterM fun p => return (← p.get "name").truthy

/-- Whether two parameters have one name and location. -/
def collides (p q : Data) : Bool :=
  let key (d : Data) (name : String) : Data := (d.find? name).getD .null
  (key p "name").same (key q "name") && (key p "in").same (key q "in")

/-- Adds the parameters of the path to those of the operation, which win when names collide. -/
def addShared (own : List Data) : List Data → Result (List Data)
  | [] => return own
  | p :: rest => do
    if (← p.get "name").truthy && !own.any fun q => collides q p then addShared (own ++ [p]) rest
    else addShared own rest

def merge (document own shared : Data) : Result (List Data) := do
  let own ← withNames (← Reference.resolveAll document own)
  addShared own (← Reference.resolveAll document shared)

/-- Puts parameters with one location together, locations in the order of their first use. -/
def byLocation (parameters : List Data) : Result (List (Scalar × List Data)) :=
  parameters.foldlM (fun acc p => do
    let place ← (← p.get "in").asKey
    return Entries.put Scalar.same acc place
      ((Entries.find? Scalar.same acc place).getD [] ++ [p])) []

/-- The type of a parameter, by its content or else by its schema. -/
def typeOf (document parameter : Data) : M TypeNode := do
  let content ← (parameter.get "content" : Result _)
  let schema ← if content.truthy then (Schema.ofContent content : Result _)
    else (parameter.get "schema" : Result _)
  synthesize (Schema.typeOf document schema)

/-- The style of the first of the parameters with a name. -/
def styleOf (parameters : List Data) (name : Data) : Result StyleSpec :=
  StyleSpec.ofParameter <|
    (parameters.find? fun p => ((p.find? "name").getD .null).same name).getD .null

def memberOf (document : Data) (key : GroupKey) (parameters : List Data) (p : Data) : M Member := do
  let name ← (p.get "name" : Result _)
  let style ← (styleOf parameters name : Result _)
  let required := key == .path || ((p.find? "required").getD .null).truthy
  let type ← typeOf document p
  return { name, location := key, required, type, style
           description := (p.find? "description").getD .null
           deprecated := ((p.find? "deprecated").getD .null).truthy }

/-- The group that parameters of one location make up. -/
def keyOf : Scalar → Option GroupKey
  | .str place => GroupKey.ofLocation? place
  | _ => none

/-- Groups the parameters of one location; an unknown location is reported once. -/
def groupOne (document : Data) (naming : Naming) (location : String) (g : Grouping)
    (placed : Scalar × List Data) : M Grouping := do
  match keyOf placed.1 with
  | some key => return g.put (.ofMembers naming key (← placed.2.mapM (memberOf document key placed.2)))
  | none =>
    if g.reported.any fun place => place.same placed.1 then return g
    warn (.unknownParameterLocation (← (placed.1.toText : Result _)) location)
    return g.report placed.1

/-- Groups parameters by location. Groups that are there already are replaced. -/
def group (document : Data) (naming : Naming) (location : String) (parameters : List Data)
    (g : Grouping) : M Grouping := do
  let placed ← (byLocation parameters : Result _)
  placed.foldlM (groupOne document naming location) g

def bodyGroup (document : Data) (naming : Naming) (body : Data) : M Group := do
  let content ← (body.get "content" : Result _)
  let schema ← (Schema.ofContent (content.orElse (.map [])) : Result _)
  let required ← (body.get "required" : Result _)
  let type ← synthesize (Schema.typeOf document schema)
  return { key := .body, identifier := naming.bodyKey, required := required.truthy, type }

/-- The argument that configures the request. -/
def configGroup (naming : Naming) : Group :=
  { key := .config, identifier := naming.configKey, required := false
    type := .supplied naming.requestConfigType }

/-- The parameters of an operation that stands at `location`, with those its path item shares. -/
def classify (document : Data) (naming : Naming) (location : String) (operation pathItem : Data) :
    M Parameters := do
  let shared ← ((pathItem.orElse (.map [])).get "parameters" : Result _)
  let own ← (operation.get "parameters" : Result _)
  let declared ← (merge document own shared : Result _)
  let body ← (do Reference.resolve document (← operation.get "requestBody") : Result _)
  let bodyFormat ← (Wire.BodyFormat.ofBody body : Result _)
  let located ← group document naming location declared {}
  let bodies ← if body.isNull then pure [] else List.singleton <$> bodyGroup document naming body
  let grouping := (bodies.foldl Grouping.put located).put (configGroup naming)
  return { declared, body, bodyFormat, grouping }

def group? (ps : Parameters) (key : GroupKey) : Option Group :=
  ps.grouping.groups.find? fun g => g.key == key

/-- The groups of some keys, in the order of the keys. -/
def select (ps : Parameters) (keys : List GroupKey) : List Group := keys.filterMap ps.group?

/-- All groups in the order of the arguments. -/
def ordered (ps : Parameters) : List Group := ps.select GroupKey.all

def members (ps : Parameters) (key : GroupKey) : List Member :=
  ((ps.group? key).map Group.members).getD []

/-- The names in a group. -/
def names (ps : Parameters) (key : GroupKey) : List Data := (ps.members key).map Member.name

/-- The parameters that travel with a group. -/
def placedIn (parameters : List Data) (key : GroupKey) : List Data :=
  parameters.filter fun p =>
    match p.find? "in" with
    | some (.scalar place) => keyOf place == some key
    | _ => false

/-- The style of a name in a group, read off the parameters once more; a name that none of them has is
styled as a parameter that says nothing. Grouping has read the styles before, so reading them does not
fail any more. -/
def style (ps : Parameters) (key : GroupKey) (name : Data) : StyleSpec :=
  match styleOf (placedIn ps.declared key) name with
  | .ok style => style
  | .error _ => ⟨.str Wire.Style.form.name, true⟩

/-- A required path parameter about which nothing else is known. -/
def implied (name : String) : Data :=
  .object [("in", .str "path"), ("name", .str name), ("required", .bool true)]

/-- Adds a path parameter for a placeholder that no parameter declares, and groups all of them again. -/
def addPath (document : Data) (naming : Naming) (location : String) (ps : Parameters) (name : String) :
    M Parameters := do
  let declared := ps.declared ++ [implied name]
  return { ps with declared, grouping := ← group document naming location declared ps.grouping }

end Parameters
end ClientBindings

import ClientBindings.Data.Access
import ClientBindings.Source.Enumeration
import ClientBindings.Source.Remark

/-! Types as annotations, and declarations of aliases and records. A record without a name is declared
under a name made from where it stands; where there is no such hint it becomes a plain mapping. An
intersection of records becomes one record. -/

namespace ClientBindings

namespace TypeText

def primitive : Primitive → String
  | .number => "float"
  | .string => "str"
  | .boolean => "bool"
  | .binary => "bytes"

def mapping : String := "dict[str, Any]"

def listOf (items : String) : String := "list[" ++ items ++ "]"

def mappingTo (values : String) : String := "dict[str, " ++ values ++ "]"

def literals (texts : List String) : String := "Literal[" ++ String.intercalate ", " texts ++ "]"

/-- The annotation of a literal that has a text. -/
def literal : Scalar → String
  | .null => "None"
  | v => literals [Literal.spelling v]

def ofLiteral (v : Scalar) : Result String := Result.guarded v.isSpellable (literal v)

def optional (text : String) (required : Bool) : String :=
  if required then text else "NotRequired[" ++ text ++ "]"

/-- A hint for a part; without a hint for the whole there is none. -/
def extend (hint part : String) : String := if hint.isEmpty then "" else hint ++ part

/-- The word that stands for all literals of a union until they are known. -/
def literalMark : String := "Literal"

/-- A union while its members are read. -/
structure Union where
  literals : List String := []
  parts : List String := []
  nullable : Bool := false

namespace Union

def insert (texts : List String) (text : String) : List String :=
  if texts.contains text then texts else texts ++ [text]

def addPart (u : Union) (part : String) : Union := { u with parts := insert u.parts part }

/-- The union with one more literal, which has a text. -/
def withLiteral (u : Union) : Scalar → Union
  | .null => { u with nullable := true }
  | v => { u with literals := insert u.literals (Literal.spelling v), parts := insert u.parts literalMark }

def addLiteral (u : Union) (v : Scalar) : Result Union := Result.guarded v.isSpellable (u.withLiteral v)

/-- All literals stand together where the first of them stood; null comes last. -/
def text (u : Union) : String :=
  let parts := u.parts.map fun p => if p == literalMark then TypeText.literals u.literals else p
  let all := if u.nullable then parts ++ ["None"] else parts
  if all.isEmpty then "NoReturn" else String.intercalate " | " all

end Union
end TypeText

namespace TypeNode

mutual
/-- The members of a union with those of unions inside it. -/
def flatten : TypeNode → List TypeNode
  | .union ts => flattenAll ts
  | t => [t]
def flattenAll : List TypeNode → List TypeNode
  | [] => []
  | t :: ts => flatten t ++ flattenAll ts
end

mutual
/-- The fields of a record or an intersection of records; `follow` knows those of aliases. -/
def fieldsWith (follow : String → Option (List Field)) : TypeNode → Option (List Field)
  | .object fields _ => some fields
  | .intersection ts => fieldsOfAll follow ts
  | .reference name _ => follow name
  | _ => none
def fieldsOfAll (follow : String → Option (List Field)) : List TypeNode → Option (List Field)
  | [] => some []
  | t :: ts => do return (← fieldsWith follow t) ++ (← fieldsOfAll follow ts)
end

end TypeNode

namespace Scope

/-- The fields of a type. An alias is followed once on every way down and not while it is declared, so
as many turns as there are aliases suffice. -/
def fieldsFor (scope : Scope) (barred : List String) : Nat → TypeNode → Option (List Field)
  | 0, _ => none
  | turns + 1, t => t.fieldsWith fun name =>
    if barred.contains name then none else
    match scope.aliases.lookup name with
    | some (.synonym _ _ type _) => scope.fieldsFor (name :: barred) turns type
    | _ => none

def fieldsOf (scope : Scope) (declaring : List String) (t : TypeNode) : Option (List Field) :=
  scope.fieldsFor declaring (scope.aliases.length + 1) t

end Scope

namespace Field

/-- Whether the name of a field can be written as an attribute. -/
def isAttribute (f : Field) : Result Bool :=
  match f.name with
  | .str s => return Identifier.isValid s
  | _ => throw .noMember

/-- The part of a hint that stands for a field. -/
def hintPart (f : Field) : Result String :=
  if !f.name.truthy then return "" else
  match f.name with
  | .str s => return Identifier.className s
  | _ => throw .wrongKind

/-- The fields without earlier ones of the same name, which leave their place to the last one. -/
def distinct (fields : List Field) : Result (List Field) := do
  let keyed ← fields.mapM fun f => return (← f.name.asKey, f)
  return (Entries.ofList Scalar.same keyed).map Prod.snd

def allAttributes : List Field → Result Bool
  | [] => return true
  | f :: rest => do if ← f.isAttribute then allAttributes rest else return false

end Field

open Draft

/-- What is used at a place inside of a type: annotations of parts and declarations of aliases. -/
structure TypeWriter where
  render : TypeNode → String → M String
  declaration : Alias → M Declaration

namespace TypeWriter

open TypeText

/-- A writer that gives up. -/
def exhausted : TypeWriter where
  render _ _ := throw .tooDeep
  declaration _ := throw .tooDeep

section
variable (w : TypeWriter) (scope : Scope)

/-- The annotation of a field; in a record written as a call it is quoted. -/
def field (owner : String) (isQuoted : Bool) (f : Field) : M FieldDeclaration := do
  let part ← (f.hintPart : Result _)
  let text ← w.render f.type (extend owner part)
  let written := if isQuoted then Literal.quoted text else text
  return ⟨f.name, optional written f.required, ← (Remark.noted f.comment f.deprecated : Result _)⟩

/-- The declaration of a record, as a call if some field is no attribute. -/
def record (name : String) (fields : List Field) (doc : Data) (bases : List String) :
    M RecordDeclaration := do
  let functional := !(← (Field.allAttributes fields : Result _))
  let fields ← fields.mapM (w.field name functional)
  return { name, fields, bases, doc, functional }

/-- Whether a type is an alias of a record that others can be based on. -/
def isBase (t : TypeNode) : M Bool := do
  match t with
  | .reference name _ =>
    match scope.aliases.lookup name with
    | some a@(.synonym ..) =>
      match ← w.declaration a with
      | .record d => return !d.functional
      | _ => return false
    | _ => return false
  | _ => return false

/-- The bases and own fields of an intersection; none if some member is neither. -/
def split : List TypeNode → M (Option (List String × List Field))
  | [] => return some ([], [])
  | t :: ts => do
    if ← w.isBase scope t then
      match t with
      | .reference name _ => return (← split ts).map fun (bases, fields) => (scope.nameOf name :: bases, fields)
      | _ => return none
    else match t with
      | .object own _ => return (← split ts).map fun (bases, fields) => (bases, own ++ fields)
      | _ => return none

/-- All fields of an intersection in one record without bases. -/
def merged (name : String) (t : TypeNode) (doc : Data) : M (Option RecordDeclaration) := do
  match scope.fieldsOf (← get).declaring t with
  | none | some [] => return none
  | some fields => return some (← w.record name (← (Field.distinct fields : Result _)) doc [])

/-- An intersection as one record: based on its aliases if possible, else with all their fields. -/
def compose (name : String) (members : List TypeNode) (doc : Data) : M (Option RecordDeclaration) := do
  match ← w.split scope members with
  | none | some ([], []) => w.merged scope name (.intersection members) doc
  | some (bases, fields) =>
    let d ← w.record name fields doc bases
    if d.functional then w.merged scope name (.intersection members) doc else return some d

/-- Claims a name for a record where it stands. -/
def claimHint (hint : String) : M String := claim (Scope.nonEmpty (Identifier.normalize hint) "Record")

def declareInline (d : RecordDeclaration) : M String := do
  addInline (.record d)
  return d.name

def union (members : List TypeNode) (hint : String) : M String := do
  let u ← (TypeNode.flattenAll members).foldlM (fun (u : Union) t => do
    match t with
    | .literal v => (u.addLiteral v : Result _)
    | t => return u.addPart (← w.render t hint)) {}
  return u.text

/-- The annotation of a type, given how its parts are written. -/
def renderWith (t : TypeNode) (hint : String) : M String := do
  match t with
  | .any => return "Any"
  | .never => return "NoReturn"
  | .primitive p => return primitive p
  | .literal v => (ofLiteral v : Result _)
  | .array items => return listOf (← w.render items (extend hint "Item"))
  | .object [] (some values) => return mappingTo (← w.render values (extend hint "Value"))
  | .object [] none => return mapping
  | .object fields _ =>
    if hint.isEmpty then return mapping
    declareInline (← w.record (← claimHint hint) fields .null [])
  | .intersection members =>
    if hint.isEmpty then return mapping
    match ← w.compose scope (← claimHint hint) members .null with
    | some d => declareInline d
    | none => return mapping
  | .union members => w.union members hint
  | .reference name _ => return scope.nameOf name
  | .supplied name => return name

/-- Stands in for an alias that is being declared. -/
def placeholder (name : String) (a : Alias) : M Declaration := do
  match a with
  | .synonym _ _ (.object (f :: fields) _) _ =>
    let functional := !(← (Field.allAttributes (f :: fields) : Result _))
    return .record { name, functional }
  | _ => return .synonym ⟨name, "Any", .null⟩

/-- The declaration of an alias under its name. -/
def make (name : String) (a : Alias) : M Declaration := do
  match a with
  | .enumeration _ _ members comment =>
    return .enumeration (← (EnumDeclaration.declared name members comment : Result _))
  | .synonym _ _ (.object (f :: fields) _) comment =>
    return .record (← w.record name (f :: fields) comment [])
  | .synonym _ _ (.intersection members) comment =>
    match ← w.compose scope name members comment with
    | some d => return .record d
    | none => return .synonym ⟨name, mapping, comment⟩
  | .synonym _ _ type comment => return .synonym ⟨name, ← w.render type name, comment⟩

/-- The declaration of an alias, made when it is asked for first. -/
def declare (a : Alias) : M Declaration := do
  let s ← get
  match s.declared.lookup a.name with
  | some d => return d
  | none =>
    let name := scope.nameOf a.name
    if s.declaring.contains a.name then placeholder name a else
    let d ← whileDeclaring a.name (w.make scope name a)
    modify fun s => { s with declared := (a.name, d) :: s.declared }
    return d

end

/-- The writer for types nested at most as deep as told. -/
def atDepth (scope : Scope) : Nat → TypeWriter
  | 0 => exhausted
  | depth + 1 =>
    let inner := atDepth scope depth
    { render := inner.renderWith scope, declaration := inner.declare scope }

/-- The nesting that is supported. -/
def depthLimit : Nat := 400

end TypeWriter

/-- The writer of a module. -/
def Scope.writer (scope : Scope) : TypeWriter := .atDepth scope TypeWriter.depthLimit

end ClientBindings

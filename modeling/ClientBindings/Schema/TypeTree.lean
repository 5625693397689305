import ClientBindings.Data.Basic

/-! Types of values as a tree, free of any output language. Equality ignores where a reference points
and compares literals across number kinds. -/

namespace ClientBindings

inductive Primitive where
  | number | string | boolean | binary
deriving DecidableEq, Repr, Inhabited

/-- A field of a record, the kind of its type being a parameter. -/
structure FieldOf (τ : Type) where
  name : Data
  type : τ
  required : Bool := false
  comment : Data := .null
  deprecated : Bool := false
deriving Repr

inductive TypeNode where
  /-- No constraint. -/
  | any
  /-- The empty union. -/
  | never
  | primitive (p : Primitive)
  | literal (value : Scalar)
  | array (items : TypeNode)
  /-- A record, and the type of the values under further keys if there may be some. -/
  | object (fields : List (FieldOf TypeNode)) (index : Option TypeNode)
  | union (members : List TypeNode)
  | intersection (members : List TypeNode)
  /-- A named alias for the target of a pointer. -/
  | reference (name : String) (pointer : Option String)
  /-- A type that generated modules import. -/
  | supplied (name : String)
deriving Repr

abbrev Field := FieldOf TypeNode

namespace TypeNode

instance : Inhabited TypeNode := ⟨.any⟩

instance : Inhabited Field := ⟨{ name := .null, type := .any }⟩

def number : TypeNode := .primitive .number
def string : TypeNode := .primitive .string
def boolean : TypeNode := .primitive .boolean
def binary : TypeNode := .primitive .binary
def null : TypeNode := .literal .null

mutual
def same : TypeNode → TypeNode → Bool
  | .any, .any => true
  | .never, .never => true
  | .primitive p, .primitive q => p == q
  | .literal v, .literal w => v.same w
  | .array s, .array t => same s t
  | .object fs i, .object gs j => sameFields fs gs && sameIndex i j
  | .union ss, .union ts => sameMembers ss ts
  | .intersection ss, .intersection ts => sameMembers ss ts
  | .reference m _, .reference n _ => m == n
  | .supplied m, .supplied n => m == n
  | _, _ => false
def sameIndex : Option TypeNode → Option TypeNode → Bool
  | none, none => true
  | some s, some t => same s t
  | _, _ => false
def sameMembers : List TypeNode → List TypeNode → Bool
  | [], [] => true
  | s :: ss, t :: ts => same s t && sameMembers ss ts
  | _, _ => false
def sameFields : List (FieldOf TypeNode) → List (FieldOf TypeNode) → Bool
  | [], [] => true
  | ⟨n, s, r, c, d⟩ :: fs, g :: gs =>
    n.same g.name && same s g.type && r == g.required && c.same g.comment && d == g.deprecated
      && sameFields fs gs
  | _, _ => false
end

/-- A union; none of no members and the member itself of one. -/
def unionOf : List TypeNode → TypeNode
  | [] => .never
  | [t] => t
  | ts => .union ts

/-- The members without later repetitions. -/
def dedup (ts : List TypeNode) : List TypeNode :=
  ts.foldl (fun kept t => if kept.any fun k => k.same t then kept else kept ++ [t]) []

end TypeNode

structure EnumMember where
  name : String
  value : Scalar
deriving DecidableEq, Repr, Inhabited

/-- A named type, one for every pointer that is referred to. -/
inductive Alias where
  | synonym (name : String) (pointer : Option String) (type : TypeNode) (comment : Data)
  | enumeration (name : String) (pointer : Option String) (members : List EnumMember) (comment : Data)
deriving Repr, Inhabited

namespace Alias

def name : Alias → String
  | .synonym name .. | .enumeration name .. => name

def comment : Alias → Data
  | .synonym _ _ _ comment | .enumeration _ _ _ comment => comment

def pointer : Alias → Option String
  | .synonym _ pointer .. | .enumeration _ pointer .. => pointer

end Alias

/-- Whether every member holds a text. -/
def isTextEnumeration (members : List EnumMember) : Bool := members.all fun m => m.value.isStr

end ClientBindings

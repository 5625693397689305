import ClientBindings.Data.Basic

/-! Declarations of generated modules, and the order in which they may be written. -/

namespace ClientBindings

structure FieldDeclaration where
  name : Data
  type : String
  doc : Data := .null
deriving Repr

structure RecordDeclaration where
  name : String
  fields : List FieldDeclaration := []
  /-- Records whose fields it has as well. -/
  bases : List String := []
  doc : Data := .null
  /-- Whether it is written as a call, which any key allows. -/
  functional : Bool := false
deriving Repr, Inhabited

structure EnumDeclaration where
  name : String
  /-- Names and literals. -/
  members : List (String × String)
  isText : Bool
  doc : Data := .null
  functional : Bool := false
deriving Repr

structure SynonymDeclaration where
  name : String
  type : String
  doc : Data := .null
deriving Repr

inductive Declaration where
  | record (d : RecordDeclaration)
  | enumeration (d : EnumDeclaration)
  | synonym (d : SynonymDeclaration)
deriving Repr

namespace Declaration

def name : Declaration → String
  | .record d => d.name
  | .enumeration d => d.name
  | .synonym d => d.name

def bases : Declaration → List String
  | .record d => d.bases
  | _ => []

/-- The declaration of a name; the last of several. -/
def named? (ds : List Declaration) (name : String) : Option Declaration :=
  ds.reverse.find? fun d => d.name == name

/-- An order under construction: what is placed, and the names met. -/
structure Placing where
  placed : List Declaration := []
  met : List String := []

/-- Places a declaration behind its bases, nested at most as deep as told. -/
def place (all : List Declaration) : Nat → Placing → Declaration → Placing
  | 0, p, _ => p
  | depth + 1, p, d =>
    if p.met.contains d.name then p else
    let below := (d.bases.filterMap (named? all)).foldl (place all depth)
      { p with met := d.name :: p.met }
    { below with placed := below.placed ++ [d] }

/-- Orders declarations so that bases precede what is built on them and all else keeps its place. Every
level of nesting meets a new name, which bounds the depth. -/
def ordered (ds : List Declaration) : List Declaration :=
  (ds.foldl (place ds (ds.length + 1)) {}).placed

end Declaration
end ClientBindings

import ClientBindings.Wire.Json

/-! Parameter styles: how a value is laid out in a path, a query string or a header. A value that
contributes nothing (null, a source of values, an empty container) yields no text. -/

namespace ClientBindings.Wire

inductive Style where
  | simple | label | matrix | form | space | pipe | deep | json
deriving DecidableEq, Repr, Inhabited

namespace Style

def all : List Style := [.simple, .label, .matrix, .form, .space, .pipe, .deep, .json]

def name : Style → String
  | .simple => "simple"
  | .label => "label"
  | .matrix => "matrix"
  | .form => "form"
  | .space => "space"
  | .pipe => "pipe"
  | .deep => "deep"
  | .json => "json"

/-- Whether the layout shows the parameter's name. -/
def isNamed : Style → Bool
  | .simple | .label => false
  | _ => true

end Style

namespace Layout

def join (separator : String) (parts : List String) : String := String.intercalate separator parts

/-- What a styled value consists of, encoded. -/
inductive Parts where
  | one (text : String)
  | items (texts : List String)
  | pairs (texts : List (String × String))

/-- Empty containers and unsupported kinds have no parts. -/
def parts? (v : Value) : Result (Option Parts) := do
  match v with
  | .scalar _ => if isScalar v then return some (.one (← encode v)) else return none
  | .list items | .tuple items =>
    if items.isEmpty then return none else return some (.items (← items.mapM encode))
  | .map entries => if entries.isEmpty then return none else return some (.pairs (← encodeEntries entries))
  | _ => return none

def flattenPairs (separator : String) (pairs : List (String × String)) : List String :=
  pairs.map fun (k, v) => k ++ separator ++ v

def simple (v : Value) (explode : Bool) : Result (Option String) := do
  return (← parts? v).map fun
    | .one text => text
    | .items texts => join "," texts
    | .pairs pairs => join "," (flattenPairs (if explode then "=" else ",") pairs)

def label (v : Value) (explode : Bool) : Result (Option String) := do
  let delimiter := if explode then "." else ","
  return (← parts? v).map fun
    | .one text => "." ++ text
    | .items texts => "." ++ join delimiter texts
    | .pairs pairs => "." ++ join delimiter (flattenPairs (if explode then "=" else ",") pairs)

def matrix (name : String) (v : Value) (explode : Bool) : Result (Option String) := do
  return (← parts? v).map fun
    | .one text => ";" ++ name ++ "=" ++ text
    | .items texts =>
      if explode then ";" ++ join ";" (texts.map (name ++ "=" ++ ·))
      else ";" ++ name ++ "=" ++ join "," texts
    | .pairs pairs =>
      if explode then ";" ++ join ";" (flattenPairs "=" pairs)
      else ";" ++ name ++ "=" ++ join "," (flattenPairs "," pairs)

/-- Query layouts that differ in the delimiter of values that are not exploded. -/
def delimited (delimiter name : String) (v : Value) (explode : Bool) : Result (Option String) := do
  return (← parts? v).map fun
    | .one text => name ++ "=" ++ text
    | .items texts =>
      if explode then join "&" (texts.map (name ++ "=" ++ ·))
      else name ++ "=" ++ join delimiter texts
    | .pairs pairs =>
      if explode then join "&" (flattenPairs "=" pairs)
      else name ++ "=" ++ join delimiter (flattenPairs delimiter pairs)

mutual
/-- One assignment for every scalar inside, named by the path of keys that leads to it. -/
def deep (name : String) : Value → Result (Option String)
  | .scalar s => do
    if isScalar (.scalar s) then return some (name ++ "=" ++ (← encode (.scalar s))) else return none
  | .list items | .tuple items => do
    if items.isEmpty then return none else return some (join "&" (← deepItems name 0 items))
  | .map entries => do
    if entries.isEmpty then return none else return some (join "&" (← deepEntries name entries))
  | _ => return none
def deepItems (name : String) (index : Nat) : List Value → Result (List String)
  | [] => return []
  | x :: xs => do
    let part ← deep (name ++ "[" ++ toString index ++ "]") x
    return part.toList ++ (← deepItems name (index + 1) xs)
def deepEntries (name : String) : List (Value × Value) → Result (List String)
  | [] => return []
  | (k, v) :: es => do
    let part ← deep (name ++ "[" ++ (← stringify k) ++ "]") v
    return part.toList ++ (← deepEntries name es)
end

/-- The encoded JSON text of the whole value. -/
def json (name : String) (v : Value) : Result (Option String) :=
  match v with
  | .null | .source .. => return none
  | _ => return some (name ++ "=" ++ Text.onChars Percent.component (← toJson v))

end Layout

def Style.apply (style : Style) (name : String) (v : Value) (explode : Bool) : Result (Option String) :=
  match style with
  | .simple => Layout.simple v explode
  | .label => Layout.label v explode
  | .matrix => Layout.matrix name v explode
  | .form => Layout.delimited "," name v explode
  | .space => Layout.delimited "%20" name v explode
  | .pipe => Layout.delimited "|" name v explode
  | .deep => Layout.deep name v
  | .json => Layout.json name v

/-- The query string of the parts that are there. -/
def query (parts : List (Option String)) : String :=
  let text := Layout.join "&" ((parts.filterMap id).filter (!·.isEmpty))
  if text.isEmpty then "" else "?" ++ text

end ClientBindings.Wire

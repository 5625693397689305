import ClientBindings.Data.Display

/-! Shapes of settings and where a value departs from its shape. Departures are listed in the order of
their places, those of one place in the order of discovery. -/

namespace ClientBindings

inductive Shape where
  /-- A mapping with exactly these keys, some of them required. -/
  | record (required : List String) (fields : List (String × Shape))
  | list (nonEmpty : Bool) (items : Shape)
  | text (nonEmpty : Bool)
  /-- The name of a module: ASCII letters, digits and low lines, no digit in front. -/
  | moduleName
deriving Repr

/-- One step down from a value to a part of it. -/
inductive Step where
  | key (name : String)
  | index (n : Nat)
deriving DecidableEq, Repr

namespace Step

def text : Step → String
  | .key name => name
  | .index n => toString n

def before : Step → Step → Bool
  | .key a, .key b => a < b
  | .index a, .index b => a < b
  | .key _, .index _ => false
  | .index _, .key _ => true

/-- The order of places: a place comes before everything inside it. -/
def atMost : List Step → List Step → Bool
  | [], _ => true
  | _ :: _, [] => false
  | a :: as, b :: bs => a.before b || (!b.before a && atMost as bs)

end Step

structure Departure where
  place : List Step
  complaint : String
deriving DecidableEq, Repr

namespace Departure

def message (d : Departure) : String :=
  if d.place.isEmpty then d.complaint
  else String.intercalate "/" (d.place.map Step.text) ++ ": " ++ d.complaint

/-- The same departure seen from one level up. -/
def below (step : Step) (d : Departure) : Departure := { d with place := step :: d.place }

end Departure

namespace Shape

def kind : Shape → String
  | .record .. => "object"
  | .list .. => "array"
  | .text _ | .moduleName => "string"

def isNameStart (c : Char) : Bool := c.isAlpha || c == '_'

def isNamePart (c : Char) : Bool := isNameStart c || c.isDigit

def namePattern : String := "^[A-Za-z_][A-Za-z0-9_]*$"

/-- Whether a text is a module name; a line end behind it is tolerated. -/
def isModuleName (s : String) : Bool :=
  let cs := s.toList
  let name := if cs.getLast? == some '\n' then cs.dropLast else cs
  match name with
  | [] => false
  | c :: rest => isNameStart c && rest.all isNamePart

def isKind : Shape → Data → Bool
  | .record .., .map _ => true
  | .list .., .list _ => true
  | .text _, .str _ | .moduleName, .str _ => true
  | _, _ => false

def shownText (s : String) : String := (Data.str s).shown

def missing (required : List String) (d : Data) : List String :=
  (required.filter fun name => (d.find? name).isNone).map fun name =>
    shownText name ++ " is a required property"

/-- The keys of a mapping that its shape does not know, in order. -/
def unknown (known : List String) (entries : Data.Fields) : List String :=
  ((entries.map fun e => e.1.text).filter fun k => !known.contains k).mergeSort fun a b => a ≤ b

def unexpected (extra : List String) : List String :=
  if extra.isEmpty then [] else
  ["Additional properties are not allowed (" ++ String.intercalate ", " (extra.map shownText)
    ++ (if extra.length == 1 then " was" else " were") ++ " unexpected)"]

/-- What a mapping, list or text fails in on its own, its parts aside. -/
def ownComplaints (shape : Shape) (d : Data) : List String :=
  if !shape.isKind d then [d.shown ++ " is not of type " ++ shownText shape.kind] else
  match shape, d with
  | .record required fields, .map entries =>
    missing required d ++ unexpected (unknown (fields.map Prod.fst) entries)
  | .list true _, .list [] => [d.shown ++ " should be non-empty"]
  | .text true, .str s => if s.isEmpty then [d.shown ++ " should be non-empty"] else []
  | .moduleName, .str s =>
    if isModuleName s then [] else [d.shown ++ " does not match " ++ shownText namePattern]
  | _, _ => []

mutual
def found : Shape → Data → List Departure
  | .record required fields, d =>
    (ownComplaints (.record required fields) d).map (Departure.mk []) ++ foundInFields fields d
  | .list nonEmpty items, d =>
    (ownComplaints (.list nonEmpty items) d).map (Departure.mk []) ++
      (match d with
        | .list xs => (xs.map (found items)).zipIdx.flatMap fun (ds, i) => ds.map (.below (.index i))
        | _ => [])
  | shape, d => (ownComplaints shape d).map (Departure.mk [])
def foundInFields : List (String × Shape) → Data → List Departure
  | [], _ => []
  | (name, shape) :: rest, d =>
    (match d.find? name with
      | some part => (found shape part).map (.below (.key name))
      | none => []) ++ foundInFields rest d
end

def departures (shape : Shape) (d : Data) : List Departure :=
  (found shape d).mergeSort fun a b => Step.atMost a.place b.place

end Shape
end ClientBindings

import ClientBindings.Failure

/-! Reading members of values whose kind the document decides. Each reader says which kinds it serves
and fails with the cause otherwise. -/

namespace ClientBindings.Data

/-- The entry under a key, `null` where there is none; only mappings are asked. -/
def get (d : Data) (key : String) (absent : Data := .null) : Result Data :=
  match d with
  | .map entries => return (Entries.find? Scalar.same entries (.str key)).getD absent
  | _ => throw .noMember

/-- The entry that has to be there. -/
def require (d : Data) (key : String) : Result Data :=
  match d with
  | .map entries =>
    match Entries.find? Scalar.same entries (.str key) with
    | some v => return v
    | none => throw .missingKey
  | _ => throw .wrongKind

/-- The entries of a mapping. -/
def entries : Data → Result Fields
  | .map es => return es
  | _ => throw .noMember

/-- What a loop over the value yields: elements, keys or characters. -/
def elements : Data → Result (List Data)
  | .list items | .tuple items => return items
  | .map es => return es.map fun e => .scalar e.1
  | .str s => return s.toList.map fun c => .str (String.ofList [c])
  | .scalar (.bytes bs) => return bs.map fun b => .int b.toNat
  | _ => throw .wrongKind

/-- A value that can be a key. -/
def asKey : Data → Result Scalar
  | .scalar s => return s
  | _ => throw .wrongKind

/-- What stands under a key of a mapping or at a position of a list. -/
def item (d key : Data) : Result Data :=
  match d with
  | .map entries => do
    match Entries.find? Scalar.same entries (← key.asKey) with
    | some v => return v
    | none => throw .missingKey
  | .list items | .tuple items =>
    match key with
    | .int n =>
      let place := if n < 0 then n + items.length else n
      if place < 0 then throw .outOfRange else
      match items[place.toNat]? with
      | some v => return v
      | none => throw .outOfRange
    | _ => throw .wrongKind
  | _ => throw .wrongKind

def asText : Data → Result String
  | .str s => return s
  | _ => throw .wrongKind

/-- Membership: an element of a list, a key of a mapping or a part of a text. -/
def has (d x : Data) : Result Bool :=
  match d with
  | .list items | .tuple items => return items.any fun y => y.same x
  | .map es => return Entries.contains Scalar.same es (← x.asKey)
  | .str s =>
    match x with
    | .str part => return Text.occurs part.toList s.toList
    | _ => throw .wrongKind
  | _ => throw .wrongKind

/-- Whether a mapping holds a reference. -/
def isReference : Data → Bool
  | .map es => Entries.contains Scalar.same es (.str "$ref")
  | _ => false

end ClientBindings.Data

import ClientBindings.Data.Access
import ClientBindings.Numeric.Numeral

/-! Pointers into documents: how segments are written and read, and one step along a pointer. -/

namespace ClientBindings.Pointer

open Text

/-- Tildes and slashes of a name as they stand in a pointer. -/
def escape (name : String) : String :=
  onChars (fun cs => replace ['/'] ['~', '1'] (replace ['~'] ['~', '0'] cs)) name

/-- A segment as the name it stands for; percent escapes are resolved last. -/
def unescapeChars (cs : List Char) : List Char :=
  Percent.decode (replace ['~', '0'] ['~'] (replace ['~', '1'] ['/'] cs))

/-- The names along a pointer, empty segments left out. -/
def segments (pointer : String) : List String :=
  ((splitOn '/' (pointer.toList.dropWhile (· == '/'))).filter (!·.isEmpty)).map fun cs =>
    String.ofList (unescapeChars cs)

/-- The position a segment names in a list. -/
def index? (segment : String) : Result (Option Nat) :=
  let cs := segment.toList
  if cs.isEmpty || !cs.all Unicode.isDigit then return none else
  match Numeral.digits? 10 cs with
  | some n => return some n
  | none => throw .badValue

/-- The child of a node under a segment. -/
def child? (node : Data) (segment : String) : Result (Option Data) := do
  match node with
  | .map entries => return Entries.find? Scalar.same entries (.str segment)
  | .list items => return (← index? segment).bind fun n => items[n]?
  | _ => return none

/-- The node reached by following segments; none where a step has no child. -/
def walk? : Data → List String → Result (Option Data)
  | node, [] => return some node
  | node, segment :: rest => do
    match ← child? node segment with
    | some next => walk? next rest
    | none => return none

end ClientBindings.Pointer

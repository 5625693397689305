import ClientBindings.Document.Pointer

/-! References inside a document: `#/` followed by the names that lead to the target. -/

namespace ClientBindings.Reference

open Text

/-- The names along a local reference. -/
def path (ref : String) : Result (List String) :=
  match ref.toList with
  | '#' :: '/' :: cs =>
    return (splitOn '/' cs).map fun segment => String.ofList (Pointer.unescapeChars segment)
  | _ => throw (.unsupportedReference ref)

/-- What follows the last slash. -/
def basename (ref : String) : String := String.ofList (cutLast '/' ref.toList).2

/-- A name for the target: the last part, or all parts joined where that one starts with a digit. -/
def name (ref : String) : Result String := do
  let base := basename ref
  match base.toList with
  | c :: _ => if Unicode.isDecimal c then return String.intercalate "_" (← path ref) else return base
  | [] => return base

/-- The value a reference designates. -/
def lookup (document : Data) (ref : String) : Result Data := do
  match ← Pointer.walk? document (← path ref) with
  | some node => return node
  | none => throw (.unresolvedReference ref)

/-- The target of a reference object; any other node is itself. -/
def resolve (document : Data) (node : Data) : Result Data :=
  match node.isReference, node.find? "$ref" with
  | true, some (.str ref) => lookup document ref
  | true, _ => throw .noMember
  | false, _ => return node

def resolveAll (document : Data) (nodes : Data) : Result (List Data) := do
  if !nodes.truthy then return []
  (← nodes.elements).mapM (resolve document)

end ClientBindings.Reference

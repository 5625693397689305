import ClientBindings.Yaml.Node
import ClientBindings.Yaml.Scalar

/-! The values that YAML nodes denote. Collections are filled level by level, so of several failures the
one nearest to the root shows, and of those at one depth the first. -/

namespace ClientBindings.Yaml

structure Defect where
  /-- The depth at which it shows; none for what shows only when all else is done. -/
  depth : Option Nat
  cause : Failure
deriving Repr, Inhabited

namespace Defect

def isShallower (a b : Defect) : Bool :=
  match a.depth, b.depth with
  | some m, some n => m < n
  | some _, none => true
  | none, _ => false

/-- The one that shows of two, the first of which comes first. -/
def first (a b : Defect) : Defect := if b.isShallower a then b else a

end Defect

/-- A value, or the defect that shows in its place. -/
abbrev Found := Except Defect

namespace Found

def at_ {α : Type} (depth : Nat) : Result α → Found α
  | .ok a => .ok a
  | .error cause => .error ⟨some depth, cause⟩

def malformed {α : Type} (depth : Nat) : Found α := .error ⟨some depth, .invalidYaml⟩

/-- Two values side by side. -/
def both {α β : Type} : Found α → Found β → Found (α × β)
  | .ok a, .ok b => .ok (a, b)
  | .ok _, .error d | .error d, .ok _ => .error d
  | .error d, .error e => .error (d.first e)

def all {α : Type} : List (Found α) → Found (List α)
  | [] => .ok []
  | x :: xs => (both x (all xs)).map fun (a, as) => a :: as

end Found

open Found

mutual
/-- The text that a node stands for where a text is expected. -/
def Node.text? : Node → Option String
  | .scalar _ text => some text
  | .mapping _ entries => valueText? entries
  | _ => none
/-- The text under the first key that is tagged as such. -/
def valueText? : List (Node × Node) → Option String
  | [] => none
  | (k, v) :: es => if k.tag = .value then v.text? else valueText? es
end

/-- The value of a node whose tag is one for texts. -/
def textValue (depth : Nat) (tag : Tag) (node : Node) : Found Scalar :=
  match node.text? with
  | some text => at_ depth (tag.read text)
  | none => malformed depth

/-- The value of a key. Collections are no keys. -/
def key (depth : Nat) (node : Node) : Found Scalar :=
  if node.tag.isCollection then malformed depth
  else textValue depth (if node.tag = .value then .str else node.tag) node

abbrev Field := Found (Scalar × Data)

/-- A mapping of entries, or the set of their keys, which is a sequence without repetitions. -/
def collection (tag : Tag) (entries : Data.Fields) : Data :=
  let distinct := Entries.ofList Scalar.same entries
  if tag = .set then .tuple (distinct.map fun e => .scalar e.1) else .map distinct

mutual
def value (depth : Nat) : Node → Found Data
  | .enclosing => .error ⟨none, .tooDeep⟩
  | .scalar tag text =>
    if tag.isCollection then malformed (depth + 1) else (at_ depth (tag.read text)).map .scalar
  | .sequence tag items =>
    match tag with
    | .seq => (all (values (depth + 1) items)).map .list
    | .omap | .pairs => (all (pairs (depth + 1) items)).map .list
    | .map | .set => malformed (depth + 1)
    | _ => malformed depth
  | .mapping tag entries =>
    match tag with
    | .map | .set =>
      match fields (depth + 1) entries with
      | none => malformed (depth + 1)
      | some (merged, own) => (all (merged ++ own)).map (collection tag)
    | .seq | .omap | .pairs => malformed (depth + 1)
    | tag =>
      match valueText? entries with
      | some text => (at_ depth (tag.read text)).map .scalar
      | none => malformed depth
def values (depth : Nat) : List Node → List (Found Data)
  | [] => []
  | x :: xs => value depth x :: values depth xs
/-- The elements of an ordered mapping, each of which is a mapping with one entry. -/
def pairs (depth : Nat) : List Node → List (Found Data)
  | [] => []
  | .mapping _ [(k, v)] :: rest =>
    (both (value depth k) (value depth v)).map (fun (a, b) => .tuple [a, b]) :: pairs depth rest
  | _ :: _ => [malformed depth]
/-- The entries merged from other mappings and a mapping's own ones; none where something else than
mappings is merged. -/
def fields (depth : Nat) : List (Node × Node) → Option (List Field × List Field)
  | [] => some ([], [])
  | (k, v) :: es => do
    let (merged, own) ← fields depth es
    if k.tag = .merge then return ((← mergedFields depth v) ++ merged, own)
    return (merged, both (key depth k) (value depth v) :: own)
def mergedFields (depth : Nat) : Node → Option (List Field)
  | .mapping _ entries => (fields depth entries).map fun (merged, own) => merged ++ own
  | .sequence _ items => mergedItems depth items
  | .enclosing => some []
  | .scalar .. => none
/-- Fields of several merged mappings; the first mapping has the last word. -/
def mergedItems (depth : Nat) : List Node → Option (List Field)
  | [] => some []
  | .mapping _ entries :: rest => do
    let (merged, own) ← fields depth entries
    return (← mergedItems depth rest) ++ (merged ++ own)
  | .enclosing :: rest => mergedItems depth rest
  | _ :: _ => none
end

/-- Reads a text that holds at most one document; a text without one denotes null. -/
def parse (text : String) : Result Data := do
  match ← Node.ofTokens (.ofText text) with
  | none => return .null
  | some node =>
    match value 0 node with
    | .ok d => return d
    | .error d => throw d.cause

end ClientBindings.Yaml

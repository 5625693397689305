import ClientBindings.Text.Percent
import ClientBindings.Yaml.Cursor

/-! Tags say what a YAML node is. A tag is written in full or behind a handle that stands for its
beginning; directives in front of a document introduce further handles. -/

namespace ClientBindings.Yaml

inductive Tag where
  | null | bool | int | float | str | binary | timestamp
  | seq | map | set | omap | pairs
  /-- A key whose mappings are merged into the mapping it stands in. -/
  | merge
  /-- A key whose text a mapping stands for where a text is expected. -/
  | value
  | unknown
deriving DecidableEq, Repr, Inhabited

namespace Tag

/-- The common beginning of the tags with a meaning. -/
def stem : String := "tag:yaml.org,2002:"

def names : List (String × Tag) :=
  [("null", .null), ("bool", .bool), ("int", .int), ("float", .float), ("str", .str),
   ("binary", .binary), ("timestamp", .timestamp), ("seq", .seq), ("map", .map), ("set", .set),
   ("omap", .omap), ("pairs", .pairs), ("merge", .merge), ("value", .value)]

/-- The tag that is written in full. -/
def ofUri (uri : String) : Tag := ((names.find? fun n => stem ++ n.1 == uri).map Prod.snd).getD .unknown

def isCollection : Tag → Bool
  | .seq | .map | .set | .omap | .pairs => true
  | _ => false

end Tag

/-- A tag as it is written: in full, or a handle and what follows what the handle stands for. -/
structure TagName where
  handle : Option String
  rest : String
deriving DecidableEq, Repr, Inhabited

namespace TagName

/-- The name that leaves the tag open. -/
def openName : String := "!"

def defaultHandles : List (String × String) := [("!", "!"), ("!!", Tag.stem)]

/-- The tag in full; none where the handle is unknown. -/
def uri? (handles : List (String × String)) (n : TagName) : Option String :=
  match n.handle with
  | none => some n.rest
  | some handle => ((handles ++ defaultHandles).lookup handle).map (· ++ n.rest)

end TagName

inductive Directive where
  | version (major : Nat)
  | handle (name stem : String)
  | other
deriving DecidableEq, Repr, Inhabited

namespace Directive

/-- The handles that directives introduce. The version may be given once and has to be 1, and every
handle may be introduced once. -/
def handles? (directives : List Directive) : Option (List (String × String)) :=
  let versions := directives.filterMap fun
    | .version major => some major
    | _ => none
  let handles := directives.filterMap fun
    | .handle name stem => some (name, stem)
    | _ => none
  let names := handles.map Prod.fst
  if (versions == [] || versions == [1]) && names.eraseDups == names then some handles else none

end Directive

def isNameChar (c : Char) : Bool := c.isAlphanum || c == '-' || c == '_'

def isUriChar (c : Char) : Bool := c.isAlphanum || "-;/?:@&=+$,_.!~*'()[]%".toList.contains c

/-- Whether a character ends a tag or the part of a directive. -/
def endsWord (c : Char) : Bool := c == endMark || c == ' ' || isBreak c

namespace Cursor

/-- The bytes of a run of escapes. -/
def escapedBytes : List Char → Cursor → Option (List UInt8 × Cursor)
  | [], c => some ([], c)
  | _ :: fuel, c =>
    if c.peek == '%' then do
      let byte ← Percent.byte? (c.peekAt 1) (c.peekAt 2)
      let (bytes, after) ← escapedBytes fuel (c.advance 3)
      return (byte :: bytes, after)
    else some ([], c)

def uriFrom : List Char → Cursor → Option (List Char × Cursor)
  | [], c => some ([], c)
  | _ :: fuel, c =>
    if c.peek == '%' then do
      let (bytes, after) ← escapedBytes fuel c
      let text ← Utf8.decode? bytes
      let (rest, after) ← uriFrom fuel after
      return (text ++ rest, after)
    else if isUriChar c.peek then do
      let (rest, after) ← uriFrom fuel c.step
      return (c.peek :: rest, after)
    else some ([], c)

/-- A non-empty URI, its escapes resolved. -/
def uri? (c : Cursor) : Option (String × Cursor) := do
  let (uri, after) ← uriFrom c.rounds c
  if uri.isEmpty then none else return (String.ofList uri, after)

/-- A handle between exclamation marks, or a single mark in front of a blank. -/
def handle? (c : Cursor) : Option (String × Cursor) :=
  if c.peek != '!' then none
  else if c.peekAt 1 == ' ' then some ("!", c.step)
  else
    let (name, after) := c.step.takeWhile isNameChar
    if after.peek == '!' then some ("!" ++ String.ofList name ++ "!", after.step) else none

def fullTagName? (c : Cursor) : Option (TagName × Cursor) := do
  let (uri, after) ← c.uri?
  if after.peek == '>' then return (⟨none, uri⟩, after.step) else none

/-- A tag behind a handle, which is a single mark unless another mark follows. -/
def shortTagName? (c : Cursor) : Option (TagName × Cursor) := do
  let word := c.step.rest.takeWhile (!endsWord ·)
  let (handle, after) ← if word.contains '!' then c.handle? else some ("!", c.step)
  let (uri, after) ← after.uri?
  return (⟨some handle, uri⟩, after)

def tagName? (c : Cursor) : Option (TagName × Cursor) := do
  let (name, after) ←
    if c.peekAt 1 == '<' then (c.advance 2).fullTagName?
    else if isSeparator (c.peekAt 1) then some (⟨none, TagName.openName⟩, c.step)
    else c.shortTagName?
  if endsWord after.peek then return (name, after) else none

def natOfDigits (ds : List Char) : Nat := ds.foldl (fun n d => 10 * n + (d.toNat - 48)) 0

/-- A version; only its first number matters. -/
def version? (c : Cursor) : Option (Directive × Cursor) :=
  let (major, after) := c.takeWhile Char.isDigit
  if major.isEmpty || after.peek != '.' then none else
  let (minor, after) := after.step.takeWhile Char.isDigit
  if minor.isEmpty || !endsWord after.peek then none else some (.version (natOfDigits major), after)

/-- A handle and the beginning of the tags it stands for. -/
def handleDirective? (c : Cursor) : Option (Directive × Cursor) := do
  let (name, after) ← c.handle?
  if after.peek != ' ' then none
  let (stem, after) ← (after.skipWhile (· == ' ')).uri?
  if endsWord after.peek then return (.handle name stem, after) else none

/-- A directive behind its mark, up to the end of its line. -/
def directive? (c : Cursor) : Option (Directive × Cursor) := do
  let (name, after) := c.takeWhile isNameChar
  if name.isEmpty || !endsWord after.peek then none
  let (directive, after) ←
    match String.ofList name with
    | "YAML" => (after.skipWhile (· == ' ')).version?
    | "TAG" => (after.skipWhile (· == ' ')).handleDirective?
    | _ => some (.other, after.skipWhile (!isBreak ·))
  return (directive, ← after.skipLine?)

end Cursor
end ClientBindings.Yaml

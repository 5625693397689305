import ClientBindings.Source.Literal
import ClientBindings.Failure

/-! Remarks on generated code: docstrings, comments, the note on what is deprecated, and the version of
the document. A remark may be missing; one that is no text cannot be laid out. -/

namespace ClientBindings.Remark

open Text

def spaces (n : Nat) : List Char := List.replicate n ' '

def quotes : List Char := ['"', '"', '"']

/-- Escapes backslashes, tripled quotes and a quote at the very end, so that the text cannot leave the
docstring. -/
def guard (cs : List Char) : List Char :=
  let cs := replace quotes "\\\"\\\"\\\"".toList (replace ['\\'] ['\\', '\\'] cs)
  if cs.getLast? == some '"' then cs.dropLast ++ ['\\', '"'] else cs

/-- Indents a line unless it is empty. -/
def indentLine (indent : Nat) (line : List Char) : List Char :=
  if line.isEmpty then line else spaces indent ++ line

/-- A text as docstring. One line stays on one line; below several lines the closing quotes get a line
of their own. Nothing is written for a blank text. -/
def docstringChars (indent : Nat) (cs : List Char) : List Char :=
  let cs := strip cs
  if cs.isEmpty then [] else
  match (splitOn '\n' (guard cs)).map (trimEnd Unicode.isBlank) with
  | [] => []
  | [line] => spaces indent ++ quotes ++ line ++ quotes
  | line :: rest =>
    spaces indent ++ quotes ++ line ++ '\n' :: join ['\n'] (rest.map (indentLine indent))
      ++ '\n' :: spaces indent ++ quotes

def isBlankByte (b : UInt8) : Bool := b == 32 || (9 ≤ b && b ≤ 13)

def docstring (text : Data) (indent : Nat) : Result String :=
  if !text.truthy then return "" else
  match text with
  | .str s => return onChars (docstringChars indent) s
  | .scalar (.bytes bs) => if bs.all isBlankByte then return "" else throw .wrongKind
  | _ => throw .noMember

/-- A text as lines of comment. -/
def commentChars (indent : Nat) (cs : List Char) : List Char :=
  join ['\n'] ((splitOn '\n' (strip cs)).map fun line =>
    trimEnd Unicode.isBlank (spaces indent ++ '#' :: ' ' :: line))

def comment (text : Data) (indent : Nat) : Result String :=
  if !text.truthy then return "" else
  match text with
  | .str s => return onChars (commentChars indent) s
  | .scalar (.bytes _) => throw .wrongKind
  | _ => throw .noMember

/-- Notes below a text that something is deprecated. -/
def noted (text : Data) (deprecated : Bool) : Result Data :=
  if !deprecated then return text
  else if text.truthy then return .str ((← text.toText) ++ "\n\nDeprecated.")
  else return .str "Deprecated."

def defaultVersion : String := "0.0.0"

/-- A version without white space around it; a default in place of a blank one. -/
def versionText (s : String) : String :=
  let cs := strip s.toList
  if cs.isEmpty then defaultVersion else String.ofList cs

/-- The version that a value tells. -/
def version (d : Data) : Result Data :=
  if !d.truthy then return .str defaultVersion else
  match d with
  | .str s => return .str (versionText s)
  | .scalar (.bytes bs) =>
    return if bs.all isBlankByte then .str defaultVersion else .scalar (.bytes (trim isBlankByte bs))
  | _ => throw .noMember

end ClientBindings.Remark

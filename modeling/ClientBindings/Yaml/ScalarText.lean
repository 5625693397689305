import ClientBindings.Failure
import ClientBindings.Text.Percent
import ClientBindings.Yaml.Cursor

/-! The texts of YAML scalars: plain, in quotes, and as indented blocks. Line breaks inside are folded
into blanks or kept as each form demands. Every round of a scan takes characters, so the characters left
bound the number of rounds. -/

namespace ClientBindings.Yaml

/-- What is there, or the failure of a text that is no YAML. -/
def wellFormed {α : Type} : Option α → Result α
  | some a => return a
  | none => throw .invalidYaml

/-- What a folded line break contributes: a blank for a lone line feed, else the breaks that follow. -/
def fold (first : Char) (breaks : List Char) : List Char :=
  if first != '\n' then first :: breaks
  else if breaks.isEmpty then [' '] else breaks

/-! ## Plain scalars -/

/-- Whether a plain scalar stops before the first of two characters. -/
def stopsPlain (inFlow : Bool) (c next : Char) : Bool :=
  isSeparator c
    || (c == ':' && (isSeparator next || (inFlow && ",[]\x7b\x7d".toList.contains next)))
    || (inFlow && ",?[]\x7b\x7d".toList.contains c)

def plainRun (inFlow : Bool) : List Char → List Char
  | [] => []
  | c :: cs => if stopsPlain inFlow c (cs.headD endMark) then [] else c :: plainRun inFlow cs

/-- Blanks and breaks after the first break; none at the mark of another document. -/
def plainBreaks : List Char → Cursor → Option (List Char × Cursor)
  | [], _ => none
  | _ :: fuel, c =>
    if c.peek == ' ' then plainBreaks fuel c.step
    else match c.lineBreak? with
      | none => some ([], c)
      | some (b, c) =>
        if c.atAnyDocumentMark then none
        else (plainBreaks fuel c).map fun (bs, c) => (b :: bs, c)

/-- The white space between two runs, the place behind it, and whether a line ended. No white space
means that the scalar is over. -/
def plainSpaces (c : Cursor) : List Char × Cursor × Bool :=
  let (blanks, c) := c.takeWhile (· == ' ')
  match c.lineBreak? with
  | none => (blanks, c, false)
  | some (first, c) =>
    if c.atAnyDocumentMark then ([], c, true) else
    match plainBreaks c.rounds c with
    | none => ([], c, true)
    | some (breaks, c) => (fold first breaks, c, true)

/-- A plain scalar; `indent` is the least column of a continuation line. Also tells whether a key may
follow, that is, whether the last thing read was a line end. -/
def plainFrom (inFlow : Bool) (indent : Nat) : List Char → List Char → Cursor → List Char × Cursor × Bool
  | [], _, c => ([], c, false)
  | _ :: fuel, spaces, c =>
    if c.peek == '#' then ([], c, true) else
    let run := plainRun inFlow c.rest
    if run.isEmpty then ([], c, true) else
    let (after, place, brokeLine) := plainSpaces (c.advance run.length)
    if after.isEmpty || place.peek == '#' || (!inFlow && place.column < indent) then
      (spaces ++ run, place, brokeLine)
    else
      let (text, place, keyAllowed) := plainFrom inFlow indent fuel after place
      (spaces ++ run ++ text, place, if text.isEmpty then brokeLine else keyAllowed)

/-! ## Quoted scalars -/

def escapes : List (Char × Char) :=
  [('0', '\x00'), ('a', '\x07'), ('b', '\x08'), ('t', '\t'), ('\t', '\t'), ('n', '\n'), ('v', '\x0b'),
   ('f', '\x0c'), ('r', '\r'), ('e', '\x1b'), (' ', ' '), ('"', '"'), ('\\', '\\'), ('/', '/'),
   ('N', '\u0085'), ('_', '\u00a0'), ('L', '\u2028'), ('P', '\u2029')]

def escapeWidths : List (Char × Nat) := [('x', 2), ('u', 4), ('U', 8)]

def hexNumber? (cs : List Char) : Option Nat := cs.foldlM (fun n c => (Percent.hexValue? c).map (16 * n + ·)) 0

/-- Breaks and leading blanks of further lines inside quotes. -/
def quotedBreaks : List Char → Cursor → Option (List Char × Cursor)
  | [], _ => none
  | _ :: fuel, c =>
    if c.atAnyDocumentMark then none else
    let c := c.skipWhile isSpaceOrTab
    match c.lineBreak? with
    | none => some ([], c)
    | some (b, c) => (quotedBreaks fuel c).map fun (bs, c) => (b :: bs, c)

/-- White space inside quotes. -/
def quotedSpaces (c : Cursor) : Option (List Char × Cursor) :=
  let (blanks, c) := c.takeWhile isSpaceOrTab
  if c.peek == endMark then none else
  match c.lineBreak? with
  | none => some (blanks, c)
  | some (first, c) => (quotedBreaks c.rounds c).map fun (breaks, c) => (fold first breaks, c)

/-- The character that a number of digits spell. A number without a character is a bad value; the text
is well-formed nevertheless. -/
def coded (width : Nat) (c : Cursor) : Result (List Char × Cursor) := do
  let digits := c.rest.take width
  if digits.length != width then throw .invalidYaml
  let code ← wellFormed (hexNumber? digits)
  if code > 0x10ffff then throw .badValue
  return ([Utf8.charOfCode code], c.advance width)

/-- What an escape after a backslash stands for. -/
def escape (c : Cursor) : Result (List Char × Cursor) :=
  match escapes.lookup c.peek, escapeWidths.lookup c.peek with
  | some x, _ => return ([x], c.step)
  | none, some width => coded width c.step
  | none, none => wellFormed do
    let (_, c) ← c.lineBreak?
    quotedBreaks c.rounds c

/-- A quoted scalar up to its closing quote. -/
def quotedFrom (quote : Char) : List Char → Cursor → Result (List Char × Cursor)
  | [], _ => throw .invalidYaml
  | _ :: fuel, c => do
    let x := c.peek
    if x == endMark then throw .invalidYaml
    else if x == quote then
      if quote == '\'' && c.peekAt 1 == '\'' then
        let (text, after) ← quotedFrom quote fuel (c.advance 2)
        return ('\'' :: text, after)
      else return ([], c.step)
    else if isSpaceOrTab x || isBreak x then
      let (spaces, after) ← wellFormed (quotedSpaces c)
      let (text, after) ← quotedFrom quote fuel after
      return (spaces ++ text, after)
    else if x == '\\' && quote == '"' then
      let (escaped, after) ← escape c.step
      let (text, after) ← quotedFrom quote fuel after
      return (escaped ++ text, after)
    else
      let (text, after) ← quotedFrom quote fuel c.step
      return (x :: text, after)

def quoted (c : Cursor) : Result (String × Cursor) := do
  let (text, after) ← quotedFrom c.peek c.rounds c.step
  return (String.ofList text, after)

/-! ## Block scalars -/

/-- What happens to the line breaks at the end of a block. -/
inductive Chomping where
  | strip | clip | keep
deriving DecidableEq, Repr

def chompingMark? : Char → Option Chomping
  | '+' => some .keep
  | '-' => some .strip
  | _ => none

/-- An indentation of zero is refused. -/
def incrementMark? (c : Char) : Option (Option Nat) :=
  if c == '0' then none else if c.isDigit then some (some (c.toNat - 48)) else some none

/-- The marks after the block indicator, in either order. -/
def blockHeader? (c : Cursor) : Option (Chomping × Option Nat × Cursor) := do
  let (chomping, increment, c) ← (match chompingMark? c.peek with
    | some chomping => do
      let c := c.step
      match ← incrementMark? c.peek with
      | some n => some (chomping, some n, c.step)
      | none => some (chomping, none, c)
    | none => do
      match ← incrementMark? c.peek with
      | some n =>
        let c := c.step
        match chompingMark? c.peek with
        | some chomping => some (chomping, some n, c.step)
        | none => some (.clip, some n, c)
      | none => some (.clip, none, c))
  if c.peek == ' ' || c.peek == endMark || isBreak c.peek then return (chomping, increment, c) else none

/-- Blank lines at the start, and the greatest column reached in them or before the first text. -/
def blockIndentation : List Char → Nat → Cursor → List Char × Nat × Cursor
  | [], width, c => ([], width, c)
  | _ :: fuel, width, c =>
    if c.peek == ' ' then
      let c := c.step
      blockIndentation fuel (max width c.column) c
    else match c.lineBreak? with
      | some (b, c) =>
        let (breaks, width, c) := blockIndentation fuel width c
        (b :: breaks, width, c)
      | none => ([], width, c)

def skipIndent (indent : Nat) (c : Cursor) : Cursor :=
  c.advance ((c.rest.takeWhile (· == ' ')).length.min (indent - c.column))

/-- Blank lines and the indentation of the next line. -/
def blockBreaks (indent : Nat) : List Char → Cursor → List Char × Cursor
  | [], c => ([], c)
  | _ :: fuel, c =>
    let c := skipIndent indent c
    match c.lineBreak? with
    | some (b, c) =>
      let (breaks, c) := blockBreaks indent fuel c
      (b :: breaks, c)
    | none => ([], c)

def blockEnds (chomping : Chomping) (last : List Char) (breaks : List Char) : List Char :=
  match chomping with
  | .strip => []
  | .clip => last
  | .keep => last ++ breaks

/-- The lines of a block from the first text on. -/
def blockLines (folded : Bool) (chomping : Chomping) (indent : Nat) :
    List Char → List Char → List Char → Cursor → List Char × Cursor
  | [], last, breaks, c => (blockEnds chomping last breaks, c)
  | _ :: fuel, last, breaks, c =>
    if c.column != indent || c.peek == endMark then (blockEnds chomping last breaks, c) else
    let startsWithText := !isSpaceOrTab c.peek
    let (line, c) := c.takeWhile (!isBreak ·)
    let (last, c) : List Char × Cursor :=
      match c.lineBreak? with
      | some (b, c) => ([b], c)
      | none => ([], c)
    let (next, c) := blockBreaks indent c.rounds c
    if c.column == indent && c.peek != endMark then
      let between :=
        if folded && last == ['\n'] && startsWithText && !isSpaceOrTab c.peek then
          (if next.isEmpty then [' '] else [])
        else last
      let (text, c) := blockLines folded chomping indent fuel last next c
      (breaks ++ line ++ between ++ text, c)
    else (breaks ++ line ++ blockEnds chomping last next, c)

/-- A block scalar behind its indicator; `leastIndent` is the least column its text may have. -/
def block? (folded : Bool) (leastIndent : Nat) (c : Cursor) : Option (String × Cursor) := do
  let (chomping, increment, c) ← blockHeader? c
  let c ← c.skipLine?
  let fuel := c.rounds
  let (indent, breaks, c) : Nat × List Char × Cursor :=
    match increment with
    | some n =>
      let indent := leastIndent + n - 1
      let (breaks, c) := blockBreaks indent fuel c
      (indent, breaks, c)
    | none =>
      let (breaks, width, c) := blockIndentation fuel 0 c
      (max leastIndent width, breaks, c)
  let (text, c) := blockLines folded chomping indent fuel [] breaks c
  return (String.ofList text, c)

end ClientBindings.Yaml

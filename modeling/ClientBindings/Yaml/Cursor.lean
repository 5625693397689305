/-! A place in a YAML text: what is left of it and the line and column reached. -/

namespace ClientBindings.Yaml

/-- Stands for the character after the last one; texts do not contain it. -/
def endMark : Char := '\x00'

def isBreak (c : Char) : Bool :=
  c == '\n' || c == '\r' || c.toNat == 0x85 || c.toNat == 0x2028 || c.toNat == 0x2029

def isSpaceOrTab (c : Char) : Bool := c == ' ' || c == '\t'

/-- Whether a character separates tokens. -/
def isSeparator (c : Char) : Bool := c == endMark || isSpaceOrTab c || isBreak c

def byteOrderMark : Char := Char.ofNat 0xfeff

structure Cursor where
  rest : List Char
  index : Nat := 0
  line : Nat := 0
  column : Nat := 0
deriving Repr, Inhabited

namespace Cursor

def peek (c : Cursor) : Char := c.rest.headD endMark

def peekAt (c : Cursor) (n : Nat) : Char := c.rest.getD n endMark

/-- One item for every character left and one for the end: rounds that suffice for any scan from here. -/
def rounds (c : Cursor) : List Char := endMark :: c.rest

/-- One character further. -/
def step (c : Cursor) : Cursor :=
  match c.rest with
  | [] => c
  | x :: rest =>
    if isBreak x && !(x == '\r' && rest.head? == some '\n') then
      { rest, index := c.index + 1, line := c.line + 1, column := 0 }
    else
      { rest, index := c.index + 1, line := c.line
        column := if x == byteOrderMark then c.column else c.column + 1 }

def advance : Nat → Cursor → Cursor
  | 0, c => c
  | n + 1, c => advance n c.step

/-- The longest run of characters of a class, and the place behind it. -/
def takeWhile (p : Char → Bool) (c : Cursor) : List Char × Cursor :=
  let run := c.rest.takeWhile p
  (run, c.advance run.length)

def skipWhile (p : Char → Bool) (c : Cursor) : Cursor := (c.takeWhile p).2

/-- A line break, if one is next; all but the two separators of paragraphs count as a line feed. -/
def lineBreak? (c : Cursor) : Option (Char × Cursor) :=
  match c.rest with
  | '\r' :: '\n' :: _ => some ('\n', c.advance 2)
  | x :: _ =>
    if x == '\n' || x == '\r' || x.toNat == 0x85 then some ('\n', c.step)
    else if isBreak x then some (x, c.step)
    else none
  | [] => none

/-- Skips blanks, a comment and the end of the line; none where anything else is left. -/
def skipLine? (c : Cursor) : Option Cursor :=
  let c := c.skipWhile (· == ' ')
  let c := if c.peek == '#' then c.skipWhile (!isBreak ·) else c
  match c.lineBreak? with
  | some (_, c) => some c
  | none => if c.peek == endMark then some c else none

/-- Whether a line made of three equal marks starts or ends a document here. -/
def atDocumentMark (c : Cursor) (mark : Char) : Bool :=
  c.peek == mark && c.peekAt 1 == mark && c.peekAt 2 == mark && isSeparator (c.peekAt 3)

def atAnyDocumentMark (c : Cursor) : Bool := c.atDocumentMark '-' || c.atDocumentMark '.'

end Cursor
end ClientBindings.Yaml

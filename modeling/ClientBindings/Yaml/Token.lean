import ClientBindings.Yaml.ScalarText
import ClientBindings.Yaml.Tag

/-! YAML text as tokens. Indentation opens and closes block collections, and a text followed by a colon
turns out to be a key only after it has been read, so its mark is inserted in front of it then. -/

namespace ClientBindings.Yaml

inductive Token where
  | directive (d : Directive)
  | documentStart
  | documentEnd
  | blockSequenceStart
  | blockMappingStart
  | blockEnd
  | flowSequenceStart
  | flowSequenceEnd
  | flowMappingStart
  | flowMappingEnd
  | blockEntry
  | flowEntry
  | key
  | value
  | backReference (name : String)
  | anchor (name : String)
  | tag (name : TagName)
  | scalar (text : String) (plain : Bool)
deriving DecidableEq, Repr, Inhabited

/-- A place where a key may have started. -/
structure KeyStart where
  /-- The number of tokens before it. -/
  position : Nat
  index : Nat
  line : Nat
  column : Nat
  /-- Whether the text cannot be anything but a key. -/
  required : Bool
deriving Repr

structure Scanner where
  place : Cursor
  tokens : Array Token := #[]
  /-- The column of the innermost open block collection, and of those around it. -/
  indent : Int := -1
  outer : List Int := []
  flowLevel : Nat := 0
  keyAllowed : Bool := true
  /-- Possible keys by flow level. -/
  keys : List (Nat × KeyStart) := []

namespace Scanner

variable (s : Scanner)

def inFlow : Bool := s.flowLevel != 0

def push (t : Token) : Scanner := { s with tokens := s.tokens.push t }

/-- Longest distance between the start of a key and its colon. -/
def keyLimit : Nat := 1024

def isStale (k : KeyStart) : Bool := k.line != s.place.line || s.place.index > k.index + keyLimit

/-- Forgets keys that can no longer be keys. -/
def dropStale : Option Scanner :=
  if s.keys.any fun k => s.isStale k.2 && k.2.required then none
  else some { s with keys := s.keys.filter fun k => !s.isStale k.2 }

/-- Forgets the possible key of this flow level. -/
def dropKey : Option Scanner :=
  match s.keys.lookup s.flowLevel with
  | some k => if k.required then none else some { s with keys := s.keys.filter (·.1 != s.flowLevel) }
  | none => some s

/-- Remembers that a key may start here. -/
def saveKey : Option Scanner :=
  if !s.keyAllowed then some s else do
  let s ← s.dropKey
  let k : KeyStart :=
    { position := s.tokens.size, index := s.place.index, line := s.place.line
      column := s.place.column, required := !s.inFlow && s.indent == s.place.column }
  return { s with keys := (s.flowLevel, k) :: s.keys }

/-- Closes the block collections that are indented further than a column. -/
def unwindFrom (column : Int) : Int → List Int → Array Token → Int × List Int × Array Token
  | indent, [], tokens => (indent, [], tokens)
  | indent, next :: outer, tokens =>
    if indent > column then unwindFrom column next outer (tokens.push .blockEnd)
    else (indent, next :: outer, tokens)

def unwind (column : Int) : Scanner :=
  if s.inFlow then s else
  let (indent, outer, tokens) := unwindFrom column s.indent s.outer s.tokens
  { s with indent, outer, tokens }

def deepens (column : Nat) : Bool := s.indent < column

def enter (column : Nat) : Scanner := { s with indent := column, outer := s.indent :: s.outer }

/-- Skips blanks, comments and line ends. A line end allows a key again outside flow collections. -/
def skipToToken : List Char → Scanner → Scanner
  | [], s => s
  | _ :: fuel, s =>
    let place := s.place.skipWhile (· == ' ')
    let place := if place.peek == '#' then place.skipWhile (!isBreak ·) else place
    match place.lineBreak? with
    | some (_, place) => skipToToken fuel { s with place, keyAllowed := s.keyAllowed || !s.inFlow }
    | none => { s with place }

/-- Skips characters and adds a token. -/
def take (n : Nat) (t : Token) : Scanner := { s.push t with place := s.place.advance n }

def documentMark (t : Token) : Option Scanner := do
  let s ← (s.unwind (-1)).dropKey
  return { s.take 3 t with keyAllowed := false }

def directive : Option Scanner := do
  let s ← (s.unwind (-1)).dropKey
  let (d, place) ← s.place.step.directive?
  return { s.push (.directive d) with place, keyAllowed := false }

def openFlow (t : Token) : Option Scanner := do
  let s ← s.saveKey
  return { s.take 1 t with flowLevel := s.flowLevel + 1, keyAllowed := true }

def closeFlow (t : Token) : Option Scanner := do
  let s ← s.dropKey
  return { s.take 1 t with flowLevel := s.flowLevel - 1, keyAllowed := false }

def flowEntry : Option Scanner := do
  let s ← s.dropKey
  return { s.take 1 .flowEntry with keyAllowed := true }

/-- Opens a block collection where one starts at this column. -/
def openBlock (t : Token) : Option Scanner :=
  if s.inFlow then some s
  else if !s.keyAllowed then none
  else if s.deepens s.place.column then some ((s.enter s.place.column).push t)
  else some s

def blockEntry : Option Scanner := do
  let s ← (← s.openBlock .blockSequenceStart).dropKey
  return { s.take 1 .blockEntry with keyAllowed := true }

def explicitKey : Option Scanner := do
  let s ← (← s.openBlock .blockMappingStart).dropKey
  return { s.take 1 .key with keyAllowed := !s.inFlow }

/-- A colon behind a possible key marks that key; any other colon stands for an empty key. -/
def value : Option Scanner :=
  match s.keys.lookup s.flowLevel with
  | some k =>
    let tokens := s.tokens.insertIdxIfInBounds k.position .key
    let s := { s with tokens, keys := s.keys.filter (·.1 != s.flowLevel) }
    let s :=
      if !s.inFlow && s.deepens k.column then
        { s.enter k.column with tokens := s.tokens.insertIdxIfInBounds k.position .blockMappingStart }
      else s
    some { s.take 1 .value with keyAllowed := false }
  | none => do
    let s ← (← s.openBlock .blockMappingStart).dropKey
    return { s.take 1 .value with keyAllowed := !s.inFlow }

def endsName (c : Char) : Bool := isSeparator c || "?:,]\x7d%@\x60".toList.contains c

/-- The name of an anchor or alias. -/
def named (make : String → Token) : Option Scanner := do
  let s ← s.saveKey
  let (name, place) := s.place.step.takeWhile isNameChar
  if name.isEmpty || !endsName place.peek then none
  return { s.push (make (String.ofList name)) with place, keyAllowed := false }

def tag : Option Scanner := do
  let s ← s.saveKey
  let (name, place) ← s.place.tagName?
  return { s.push (.tag name) with place, keyAllowed := false }

def block (folded : Bool) : Option Scanner := do
  let s ← s.dropKey
  let (text, place) ← block? folded (max 1 (s.indent + 1)).toNat s.place.step
  return { s.push (.scalar text false) with place, keyAllowed := true }

def quoted : Result Scanner := do
  let s ← wellFormed s.saveKey
  let (text, place) ← Yaml.quoted s.place
  return { s.push (.scalar text false) with place, keyAllowed := false }

def plain : Option Scanner := do
  let s ← s.saveKey
  let (text, place, keyAllowed) :=
    plainFrom s.inFlow (s.indent + 1).toNat s.place.rounds [] s.place
  return { s.push (.scalar (String.ofList text) true) with place, keyAllowed }

/-- Whether a plain scalar may start with the first of two characters. -/
def startsPlain (inFlow : Bool) (c next : Char) : Bool :=
  !(isSeparator c || "-?:,[]\x7b\x7d#&*!|>'\"%@\x60".toList.contains c)
    || (!isSeparator next && (c == '-' || (!inFlow && (c == '?' || c == ':'))))

/-- The next token and those it implies, unless it is a quoted scalar. -/
def unquoted : Option Scanner :=
  let c := s.place.peek
  let following := s.place.peekAt 1
  let flow := s.inFlow
  if c == '%' && s.place.column == 0 then s.directive
  else if s.place.column == 0 && s.place.atDocumentMark '-' then s.documentMark .documentStart
  else if s.place.column == 0 && s.place.atDocumentMark '.' then s.documentMark .documentEnd
  else if c == '[' then s.openFlow .flowSequenceStart
  else if c == '\x7b' then s.openFlow .flowMappingStart
  else if c == ']' then s.closeFlow .flowSequenceEnd
  else if c == '\x7d' then s.closeFlow .flowMappingEnd
  else if c == ',' then s.flowEntry
  else if c == '-' && isSeparator following then s.blockEntry
  else if c == '?' && (flow || isSeparator following) then s.explicitKey
  else if c == ':' && (flow || isSeparator following) then s.value
  else if c == '*' then s.named .backReference
  else if c == '&' then s.named .anchor
  else if c == '!' then s.tag
  else if c == '|' && !flow then s.block false
  else if c == '>' && !flow then s.block true
  else if startsPlain flow c following then s.plain
  else none

def next : Result Scanner :=
  let c := s.place.peek
  if c == '\'' || c == '"' then s.quoted else wellFormed s.unquoted

/-- The tokens that nothing can be inserted between any more. -/
def settled : List Token :=
  let waiting := (s.keys.filter fun k => !s.isStale k.2).map fun k => k.2.position
  s.tokens.toList.take (waiting.foldl min s.tokens.size)

/-- Up to the next token: what is skipped settles keys and closes collections. -/
def arrive : Option Scanner := do
  let s ← (skipToToken s.place.rounds s).dropStale
  return s.unwind s.place.column

end Scanner

/-- The tokens of a text and, where reading it fails, the failure behind the last of them. -/
structure TokenStream where
  tokens : List Token
  failure : Option Failure
deriving Inhabited

namespace Scanner

def run : Nat → Scanner → TokenStream
  | 0, s => ⟨s.settled, some .invalidYaml⟩
  | fuel + 1, s =>
    match s.arrive with
    | none => ⟨s.settled, some .invalidYaml⟩
    | some there =>
      if there.place.rest.isEmpty then
        match (there.unwind (-1)).dropKey with
        | some last => ⟨last.tokens.toList, none⟩
        | none => ⟨s.settled, some .invalidYaml⟩
      else match there.next with
        | .ok after => run fuel after
        | .error f => ⟨s.settled, some f⟩

end Scanner

/-- Whether YAML admits a character at all. -/
def isAdmitted (c : Char) : Bool :=
  let n := c.toNat
  c == '\t' || c == '\n' || c == '\r' || (0x20 ≤ n && n ≤ 0x7e) || n == 0x85 || (0xa0 ≤ n && n ≤ 0xfffd)
    || 0x10000 ≤ n

/-- The tokens of a text. A byte order mark in front is skipped. -/
def TokenStream.ofText (text : String) : TokenStream :=
  let cs := text.toList
  if !cs.all isAdmitted then ⟨[], some .invalidYaml⟩ else
  let place : Cursor := { rest := cs }
  let place := if place.peek == byteOrderMark then place.step else place
  Scanner.run (cs.length + 2) { place }

end ClientBindings.Yaml

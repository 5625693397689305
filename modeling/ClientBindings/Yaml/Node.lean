import ClientBindings.Yaml.Plain
import ClientBindings.Yaml.Token

/-! YAML tokens as a tree whose nodes all have a tag. Places where a node is left out hold an empty plain
scalar; aliases are replaced by the node they name. -/

namespace ClientBindings.Yaml

inductive Node where
  | scalar (tag : Tag) (text : String)
  | sequence (tag : Tag) (items : List Node)
  | mapping (tag : Tag) (entries : List (Node × Node))
  /-- An alias of a node that it stands inside. -/
  | enclosing
deriving Repr, Inhabited

/-- The tag of a scalar; a plain text and one whose tag is left open tell it by their spelling. -/
def Tag.ofScalar (uri : Option String) (plain : Bool) (text : String) : Tag :=
  match uri with
  | none => if plain then .ofSpelling text else .str
  | some uri => if uri == TagName.openName then .ofSpelling text else .ofUri uri

/-- The tag of a collection; `usual` where it is left open. -/
def Tag.ofCollection (usual : Tag) (uri : Option String) : Tag :=
  match uri with
  | none => usual
  | some uri => if uri == TagName.openName then usual else .ofUri uri

namespace Node

def empty : Node := .scalar .null ""

def tag : Node → Tag
  | .scalar tag _ | .sequence tag _ | .mapping tag _ => tag
  | .enclosing => .unknown

/-- What is left to read, the names given so far and the nodes they belong to. -/
structure State where
  tokens : List Token
  /-- The failure behind the last token, if there is one. -/
  beyond : Option Failure
  handles : List (String × String) := []
  names : List String := []
  anchors : List (String × Node) := []

abbrev Reading (α : Type) := State → Result (α × State)

/-- Why reading cannot go on. -/
def State.stuck (s : State) : Failure := if s.tokens.isEmpty then s.beyond.getD .invalidYaml else .invalidYaml

/-- Fails where nothing but a failure is left. -/
def State.checkMore (s : State) : Result Unit :=
  match s.tokens, s.beyond with
  | [], some f => throw f
  | _, _ => return ()

/-- Takes the next token if it is the given one. -/
def accept (t : Token) (s : State) : Option State :=
  match s.tokens with
  | next :: tokens => if next = t then some { s with tokens } else none
  | [] => none

def expect (t : Token) (s : State) : Result State :=
  match accept t s with
  | some s => return s
  | none => throw s.stuck

def nextIs (ts : List Token) (s : State) : Bool :=
  match s.tokens with
  | next :: _ => ts.contains next
  | [] => false

/-- An anchor and a tag in either order. -/
def properties (s : State) : Option String × Option TagName × List Token :=
  match s.tokens with
  | .anchor name :: .tag t :: tokens => (some name, some t, tokens)
  | .tag t :: .anchor name :: tokens => (some name, some t, tokens)
  | .anchor name :: tokens => (some name, none, tokens)
  | .tag t :: tokens => (none, some t, tokens)
  | tokens => (none, none, tokens)

/-- The tag in full, if there is one; its handle has to be known. -/
def fullTag (name : Option TagName) (s : State) : Result (Option String) :=
  match name with
  | none => return none
  | some name => return some (← wellFormed (name.uri? s.handles))

def startName (name : Option String) (s : State) : Result State :=
  match name with
  | none => return s
  | some name => if s.names.contains name then throw .invalidYaml else return { s with names := name :: s.names }

def finishName (name : Option String) (node : Node) (s : State) : State :=
  match name with
  | none => s
  | some name => { s with anchors := (name, node) :: s.anchors }

/-- The node that a name stands for; the node around the alias is not finished yet. -/
def named (name : String) (s : State) : Result Node :=
  match s.anchors.lookup name with
  | some node => return node
  | none => if s.names.contains name then return .enclosing else throw .invalidYaml

/-- The tokens before which a node may be missing, by the place it stands in. -/
def afterBlockEntry : List Token := [.blockEntry, .blockEnd]
def afterLooseEntry : List Token := [.blockEntry, .key, .value, .blockEnd]
def afterBlockKey : List Token := [.key, .value, .blockEnd]
def afterFlowKey : List Token := [.value, .flowEntry, .flowMappingEnd]
def afterFlowValue : List Token := [.flowEntry, .flowMappingEnd]
def afterPairKey : List Token := [.value, .flowEntry, .flowSequenceEnd]
def afterPairValue : List Token := [.flowEntry, .flowSequenceEnd]

mutual
/-- A node. Outside flow collections a sequence may start with an entry mark alone where `loose`. -/
def read : Nat → Bool → Bool → Reading Node
  | 0, _, _, _ => throw .invalidYaml
  | fuel + 1, block, loose, s => do
    match s.tokens with
    | .backReference name :: tokens => return (← named name s, { s with tokens })
    | _ =>
      let (name, tag, tokens) := properties s
      let s := { s with tokens }
      let uri ← fullTag tag s
      s.checkMore
      let s ← startName name s
      let (node, s) ← content fuel block loose uri (name.isSome || uri.isSome) s
      return (node, finishName name node s)
def content : Nat → Bool → Bool → Option String → Bool → Reading Node
  | 0, _, _, _, _, _ => throw .invalidYaml
  | fuel + 1, block, loose, uri, decorated, s => do
    match s.tokens with
    | .scalar text plain :: tokens => return (.scalar (.ofScalar uri plain text) text, { s with tokens })
    | .flowSequenceStart :: tokens =>
      let (items, s) ← flowItems fuel true { s with tokens }
      return (.sequence (.ofCollection .seq uri) items, s)
    | .flowMappingStart :: tokens =>
      let (entries, s) ← flowEntries fuel true { s with tokens }
      return (.mapping (.ofCollection .map uri) entries, s)
    | t :: tokens =>
      if loose && t = .blockEntry then
        let (items, s) ← looseItems fuel s
        return (.sequence (.ofCollection .seq uri) items, s)
      else if block && t = .blockSequenceStart then
        let (items, s) ← blockItems fuel { s with tokens }
        return (.sequence (.ofCollection .seq uri) items, s)
      else if block && t = .blockMappingStart then
        let (entries, s) ← blockEntries fuel { s with tokens }
        return (.mapping (.ofCollection .map uri) entries, s)
      else if decorated then return (.scalar (.ofScalar uri true "") "", s)
      else throw .invalidYaml
    | [] => if decorated then return (.scalar (.ofScalar uri true "") "", s) else throw s.stuck
/-- A node unless one of the given tokens shows that it is missing. -/
def readOr : Nat → List Token → Bool → Bool → Reading Node
  | 0, _, _, _, _ => throw .invalidYaml
  | fuel + 1, stops, block, loose, s =>
    if nextIs stops s then return (empty, s) else read fuel block loose s
def blockItems : Nat → Reading (List Node)
  | 0, _ => throw .invalidYaml
  | fuel + 1, s => do
    match accept .blockEntry s with
    | some s =>
      let (item, s) ← readOr fuel afterBlockEntry true false s
      let (items, s) ← blockItems fuel s
      return (item :: items, s)
    | none => return ([], ← expect .blockEnd s)
def looseItems : Nat → Reading (List Node)
  | 0, _ => throw .invalidYaml
  | fuel + 1, s => do
    match accept .blockEntry s with
    | some s =>
      let (item, s) ← readOr fuel afterLooseEntry true false s
      let (items, s) ← looseItems fuel s
      return (item :: items, s)
    | none => return ([], s)
def blockEntries : Nat → Reading (List (Node × Node))
  | 0, _ => throw .invalidYaml
  | fuel + 1, s => do
    match accept .blockEnd s with
    | some s => return ([], s)
    | none =>
      let (key, s) ← readOr fuel afterBlockKey true true (← expect .key s)
      let (value, s) ←
        match accept .value s with
        | some s => readOr fuel afterBlockKey true true s
        | none => pure (empty, s)
      let (entries, s) ← blockEntries fuel s
      return ((key, value) :: entries, s)
def flowItems : Nat → Bool → Reading (List Node)
  | 0, _, _ => throw .invalidYaml
  | fuel + 1, first, s => do
    match accept .flowSequenceEnd s with
    | some s => return ([], s)
    | none =>
      let s ← if first then pure s else expect .flowEntry s
      match accept .key s with
      | some s =>
        let (key, s) ← readOr fuel afterPairKey false false s
        let (value, s) ←
          match accept .value s with
          | some s => readOr fuel afterPairValue false false s
          | none => pure (empty, s)
        let (items, s) ← flowItems fuel false s
        return (.mapping .map [(key, value)] :: items, s)
      | none =>
        if nextIs [.flowSequenceEnd] s then flowItems fuel true s
        else
          let (item, s) ← read fuel false false s
          let (items, s) ← flowItems fuel false s
          return (item :: items, s)
def flowEntries : Nat → Bool → Reading (List (Node × Node))
  | 0, _, _ => throw .invalidYaml
  | fuel + 1, first, s => do
    match accept .flowMappingEnd s with
    | some s => return ([], s)
    | none =>
      let s ← if first then pure s else expect .flowEntry s
      match accept .key s with
      | some s =>
        let (key, s) ← readOr fuel afterFlowKey false false s
        let (value, s) ←
          match accept .value s with
          | some s => readOr fuel afterFlowValue false false s
          | none => pure (empty, s)
        let (entries, s) ← flowEntries fuel false s
        return ((key, value) :: entries, s)
      | none =>
        if nextIs [.flowMappingEnd] s then flowEntries fuel true s
        else
          let (key, s) ← read fuel false false s
          let (entries, s) ← flowEntries fuel false s
          return ((key, empty) :: entries, s)
end

/-- The directives in front of a document, and the tokens behind them. -/
def directives : List Token → List Directive × List Token
  | .directive d :: tokens =>
    let (ds, rest) := directives tokens
    (d :: ds, rest)
  | tokens => ([], tokens)

/-- Whether a document ends in front of the next token. -/
def atBoundary (s : State) : Bool :=
  match s.tokens with
  | .directive _ :: _ | .documentStart :: _ | .documentEnd :: _ | [] => true
  | _ => false

/-- The first document. Directives need a mark that starts it; behind such a mark it may be empty. -/
def document (s : State) : Result (Node × State) := do
  let fuel := 8 * s.tokens.length + 16
  let (ds, rest) := directives s.tokens
  let s := { s with tokens := rest, handles := ← wellFormed (Directive.handles? ds) }
  match accept .documentStart s with
  | some s =>
    s.checkMore
    if atBoundary s then return (empty, s) else read fuel true false s
  | none => if ds.isEmpty then read fuel true false s else throw s.stuck

/-- The only node of a text; none for a text without documents. -/
def ofTokens (stream : TokenStream) : Result (Option Node) := do
  let s : State := { tokens := stream.tokens, beyond := stream.failure }
  s.checkMore
  if s.tokens.isEmpty then return none
  let (node, s) ← document s
  let s := { s with tokens := s.tokens.dropWhile (· == Token.documentEnd) }
  s.checkMore
  if s.tokens.isEmpty then return some node else throw .invalidYaml

end Node
end ClientBindings.Yaml

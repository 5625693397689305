import ClientBindings.Failure

/-! Values handled while requests are made: document values, bytes, tuples, sources of values that are
asked later, signals and multipart bodies. Keys of mappings are values again. -/

namespace ClientBindings

inductive Value where
  | scalar (s : Scalar)
  | list (items : List Value)
  | tuple (items : List Value)
  | map (entries : List (Value × Value))
  /-- Yields a value when asked; a deferred one only after waiting. -/
  | source (deferred : Bool) (yields : Value)
  | signal (raised : Bool)
  | multipart (fields : List (Value × Value))
deriving Repr, Inhabited

namespace Value

@[match_pattern] abbrev null : Value := .scalar .null
@[match_pattern] abbrev bool (b : Bool) : Value := .scalar (.bool b)
@[match_pattern] abbrev int (n : Int) : Value := .scalar (.int n)
@[match_pattern] abbrev float (x : Double) : Value := .scalar (.float x)
@[match_pattern] abbrev str (s : String) : Value := .scalar (.str s)
@[match_pattern] abbrev bytes (bs : List UInt8) : Value := .scalar (.bytes bs)

abbrev Fields := List (Value × Value)

mutual
def ofData : Data → Value
  | .scalar s => .scalar s
  | .list items => .list (ofItems items)
  | .tuple items => .tuple (ofItems items)
  | .map entries => .map (ofEntries entries)
def ofItems : List Data → List Value
  | [] => []
  | x :: xs => ofData x :: ofItems xs
def ofEntries : List (Scalar × Data) → List (Value × Value)
  | [] => []
  | (k, v) :: es => (.scalar k, ofData v) :: ofEntries es
end

mutual
/-- A value as a document value; none where it holds what documents do not. -/
def toData? : Value → Option Data
  | .scalar s => some (.scalar s)
  | .list items => (toItems? items).map .list
  | .tuple items => (toItems? items).map .tuple
  | .map entries => (toEntries? entries).map .map
  | .source .. | .signal _ | .multipart _ => none
def toItems? : List Value → Option (List Data)
  | [] => some []
  | x :: xs => do
    let d ← toData? x
    return d :: (← toItems? xs)
def toEntries? : List (Value × Value) → Option (List (Scalar × Data))
  | [] => some []
  | (.scalar k, v) :: es => do
    let d ← toData? v
    return (k, d) :: (← toEntries? es)
  | _ :: _ => none
end

def isNaN : Value → Bool
  | .float .nan => true
  | _ => false

mutual
/-- Equality of values: numbers compare across kinds, nothing equals a number that is none, and
mappings compare without regard to order. -/
def same : Value → Value → Bool
  | .scalar a, .scalar b => a.same b && !isNaN (.scalar a)
  | .list xs, .list ys => sameItems xs ys
  | .tuple xs, .tuple ys => sameItems xs ys
  | .map es, .map fs => es.length == fs.length && sameEntries es fs
  | _, _ => false
def sameItems : List Value → List Value → Bool
  | [], [] => true
  | x :: xs, y :: ys => same x y && sameItems xs ys
  | _, _ => false
def sameEntries : List (Value × Value) → List (Value × Value) → Bool
  | [], _ => true
  | (k, v) :: es, fs => fs.any (fun f => same k f.1 && same v f.2) && sameEntries es fs
end

def truthy : Value → Bool
  | .scalar s => s.truthy
  | .list items | .tuple items => !items.isEmpty
  | .map entries => !entries.isEmpty
  | _ => true

def isNull : Value → Bool
  | .null => true
  | _ => false

mutual
/-- Whether a value can be a key: neither a container that may change nor one that holds such a one. -/
def isKey : Value → Bool
  | .list _ | .map _ | .multipart _ => false
  | .tuple items => areKeys items
  | .scalar _ | .source .. | .signal _ => true
def areKeys : List Value → Bool
  | [] => true
  | x :: xs => isKey x && areKeys xs
end

/-- What a loop over the value yields: elements, keys, characters or the numbers of bytes. -/
def elements : Value → Result (List Value)
  | .list items | .tuple items => return items
  | .map entries => return entries.map Prod.fst
  | .str s => return s.toList.map fun c => .str (String.ofList [c])
  | .bytes bs => return bs.map fun b => .int b.toNat
  | _ => throw .wrongKind

def find? (entries : Fields) (key : String) : Option Value := Entries.find? same entries (.str key)

/-- The entry under a key, `null` where there is none. -/
def getD (entries : Fields) (key : String) : Value := (find? entries key).getD .null

def put (entries : Fields) (key : String) (v : Value) : Fields := Entries.put same entries (.str key) v

mutual
def shownChars : Value → List Char
  | .scalar s => s.shownChars
  | .list items => '[' :: (Data.commaJoin (shownItems items) ++ [']'])
  | .tuple [x] => '(' :: (shownChars x ++ [',', ')'])
  | .tuple items => '(' :: (Data.commaJoin (shownItems items) ++ [')'])
  | .map entries => '\x7b' :: (Data.commaJoin (shownEntries entries) ++ ['\x7d'])
  | .source .. => "<source>".toList
  | .signal _ => "<signal>".toList
  | .multipart _ => "<multipart>".toList
def shownItems : List Value → List (List Char)
  | [] => []
  | x :: xs => shownChars x :: shownItems xs
def shownEntries : List (Value × Value) → List (List Char)
  | [] => []
  | (k, v) :: es => (shownChars k ++ ':' :: ' ' :: shownChars v) :: shownEntries es
end

/-- A scalar as its text, anything else as shown. -/
def text : Value → String
  | .scalar s => s.text
  | v => String.ofList v.shownChars

mutual
/-- Whether all that a value holds has a text. -/
def isSpellable : Value → Bool
  | .scalar s => s.isSpellable
  | .list items | .tuple items => areSpellable items
  | .map entries => holdSpellable entries
  | .source .. | .signal _ | .multipart _ => true
def areSpellable : List Value → Bool
  | [] => true
  | x :: xs => isSpellable x && areSpellable xs
def holdSpellable : List (Value × Value) → Bool
  | [] => true
  | (k, v) :: es => isSpellable k && (isSpellable v && holdSpellable es)
end

def toText (v : Value) : Result String := Result.guarded v.isSpellable v.text

end Value
end ClientBindings

import ClientBindings.Failure
import ClientBindings.Numeric.Numeral
import ClientBindings.Text.IpAddress
import ClientBindings.Text.Punycode
import ClientBindings.Unicode.Casing
import ClientBindings.Unicode.Identifier

/-! Where a request goes: a URL taken apart, in the spelling in which it is sent. Scheme and host are in
small letters, the usual port is left out, dots in the path are resolved, and what a part cannot hold is
percent-encoded. -/

namespace ClientBindings.Wire

structure Address where
  scheme : List Char := []
  user : List Char := []
  host : List Char := []
  port : Option Int := none
  path : List Char := []
  query : Option (List Char) := none
  fragment : Option (List Char) := none
deriving Repr, Inhabited

namespace Address

/-! ## What each part may hold -/

def isVisible (c : Char) : Bool := 0x20 ≤ c.toNat && c.toNat < 0x7f

/-- A part holds the visible characters of ASCII but those given. -/
def keepsAllBut (excluded : String) (c : Char) : Bool := isVisible c && !excluded.toList.contains c

def pathExclusions : String := " \"#<>?\x60\x7b\x7d"

def keepsInPath : Char → Bool := keepsAllBut pathExclusions

def keepsInQuery : Char → Bool := keepsAllBut " \"#<>"

def keepsInFragment : Char → Bool := keepsAllBut " \"<>\x60"

def keepsInUser : Char → Bool := keepsAllBut (pathExclusions ++ "/;=@[\\]^|")

def keepsInHost (c : Char) : Bool :=
  c.isAlphanum || "-._~!$&'()*+,;=\"\x60\x7b\x7d%|\\".toList.contains c

/-! ## Hosts -/

/-- Whether a host may be cut into four runs of digits with one character between any two of them. -/
def looksLikeV4 (cs : List Char) : Bool :=
  let runs := (splitRuns cs).map List.length
  runs.length ≤ 4 && runs.all (0 < ·) && 4 ≤ runs.foldl (fun count n => count + (n + 1) / 2) 0
where
  splitRuns (cs : List Char) : List (List Char) :=
    Text.splitOn ' ' (cs.map fun c => if c.isDigit then c else ' ')

/-- The points that part the labels of a host. -/
def isPoint (c : Char) : Bool := c == '.' || c.toNat == 0x3002 || c.toNat == 0xff0e || c.toNat == 0xff61

/-- Whether a label may hold a character: a letter in its small form, a digit or a hyphen. -/
def isLabelChar (c : Char) : Bool :=
  c == '-' || (Unicode.isIdentifierPart c && c != '_' && Unicode.lowerChar c == [c])

def isLabel (cs : List Char) : Bool :=
  !cs.isEmpty && cs.all isLabelChar && cs.head? != some '-' && cs.getLast? != some '-'
    && (cs.drop 2).take 2 != ['-', '-']

/-- A label in ASCII, of at most sixty-three characters. -/
def asciiLabel? (cs : List Char) : Option (List Char) :=
  let ascii := cs.all Percent.isAscii
  let written := if ascii then cs else "xn--".toList ++ Punycode.encode cs
  if (isLabel cs || (ascii && "xn--".toList.isPrefixOf cs)) && written.length ≤ 63 then some written else none

/-- A host name outside ASCII in ASCII. A point at its end stays. -/
def asciiHost? (cs : List Char) : Option (List Char) := do
  let labels := Text.splitOn '.' ((Unicode.lower cs).map fun c => if isPoint c then '.' else c)
  let closed := labels.getLast? == some []
  let labels ← (if closed then labels.dropLast else labels).mapM asciiLabel?
  let host := Text.join ['.'] labels
  if labels.isEmpty || host.length > 253 then none
  return if closed then host ++ ['.'] else host

def host? (cs : List Char) : Option (List Char) :=
  if looksLikeV4 cs then (if IpAddress.isV4 cs then some cs else none)
  else if cs.head? == some '[' && cs.getLast? == some ']' then
    let inner := (cs.drop 1).dropLast
    if IpAddress.isV6 inner then some inner else none
  else if cs.all Percent.isAscii then some (Percent.encode keepsInHost (cs.map Char.toLower))
  else asciiHost? cs

/-! ## Ports and paths -/

def usualPorts : List (String × Int) := [("ftp", 21), ("http", 80), ("https", 443), ("ws", 80), ("wss", 443)]

/-- The port, unless it is missing or the usual one; none at all where the text is no number. -/
def port? (scheme text : List Char) : Option (Option Int) :=
  if text.isEmpty then some none else
  (Numeral.int? 10 text).map fun n => if usualPorts.lookup (String.ofList scheme) == some n then none else some n

/-- Leaves out `.` and lets `..` drop the segment before it. -/
def withoutDots : List (List Char) → List (List Char) → List (List Char)
  | acc, [] => acc.reverse
  | acc, segment :: rest =>
    if segment == ['.'] then withoutDots acc rest
    else if segment == ['.', '.'] then withoutDots (if acc == [[]] then acc else acc.drop 1) rest
    else withoutDots (segment :: acc) rest

def resolveDots (path : List Char) : List Char := Text.join ['/'] (withoutDots [] (Text.splitOn '/' path))

/-! ## Reading -/

def isSchemeChar (c : Char) : Bool := c.isAlphanum || c == '+' || c == '-' || c == '.'

/-- The scheme in front of a colon, which may be empty. -/
def cutScheme (cs : List Char) : List Char × List Char :=
  let run := cs.takeWhile isSchemeChar
  match cs.drop run.length with
  | ':' :: rest => if (run.head?.map Char.isAlpha).getD true then (run, rest) else ([], cs)
  | _ => ([], cs)

def endsAuthority (c : Char) : Bool := c == '/' || c == '?' || c == '#'

/-- The host, which brackets may surround, and the text behind it. -/
def cutHost (cs : List Char) : List Char × List Char :=
  let plain := (cs.takeWhile (· != ':'), cs.dropWhile (· != ':'))
  if cs.head? != some '[' then plain else
  match Text.cutLast ']' cs with
  | (some inner, rest) => (inner ++ [']'], rest)
  | (none, _) => plain

/-- The text behind a mark, if the mark is there, and the text before it. -/
def cutOptional (mark : Char) (cs : List Char) : List Char × Option (List Char) :=
  if cs.contains mark then let (before, behind) := Text.cut mark cs; (before, some behind) else (cs, none)

/-- Longest text that is read as a URL. -/
def longest : Nat := 65536

def isControl (c : Char) : Bool := c.toNat < 32 || c.toNat == 127

def parse? (url : String) : Option Address := do
  let cs := url.toList
  if cs.length > longest || cs.any isControl then none
  let (scheme, cs) := cutScheme cs
  let scheme := scheme.map Char.toLower
  let (authority, cs) : List Char × List Char :=
    match cs with
    | '/' :: '/' :: rest => (rest.takeWhile (!endsAuthority ·), rest.dropWhile (!endsAuthority ·))
    | _ => ([], cs)
  let (cs, fragment) := cutOptional '#' cs
  let (path, query) := cutOptional '?' cs
  let (user, place) := Text.cutLast '@' authority
  let (host, behind) := cutHost place
  let user := Percent.encode keepsInUser (user.getD [])
  let host ← host? host
  let port ← port? scheme (if behind.head? == some ':' then behind.drop 1 else behind)
  let rooted := !scheme.isEmpty || !user.isEmpty || !host.isEmpty || port.isSome
  if !rooted && (['/', '/'].isPrefixOf path || path.head? == some ':') then none
  return {
    scheme, user, host, port
    path := Percent.encode keepsInPath (if rooted then resolveDots path else path)
    query := query.map (Percent.encode keepsInQuery)
    fragment := fragment.map (Percent.encode keepsInFragment) }

/-- Only an absolute address names the machine that is asked. -/
def isAbsolute (a : Address) : Bool := !a.scheme.isEmpty && !a.host.isEmpty

/-- A relative address is taken for a path from the root. -/
def rooted (a : Address) : Address :=
  if a.isAbsolute then a else { path := '/' :: a.path.dropWhile (· == '/'), query := a.query }

def parse (url : String) : Result Address :=
  match parse? url with
  | some a => return a.rooted
  | none => throw .invalidUrl

/-! ## Writing -/

/-- Host and port. -/
def place (a : Address) : List Char :=
  (if a.host.contains ':' then '[' :: (a.host ++ [']']) else a.host)
    ++ (match a.port with
      | some n => ':' :: (toString n).toList
      | none => [])

def authority (a : Address) : List Char := (if a.user.isEmpty then [] else a.user ++ ['@']) ++ a.place

/-- An optional part behind its mark. -/
def marked (mark : Char) : Option (List Char) → List Char
  | some cs => mark :: cs
  | none => []

def chars (a : Address) : List Char :=
  (if a.scheme.isEmpty then [] else a.scheme ++ [':'])
    ++ (if a.authority.isEmpty then [] else '/' :: '/' :: a.authority)
    ++ a.path ++ marked '?' a.query ++ marked '#' a.fragment

def text (a : Address) : String := String.ofList a.chars

/-- Name and password in front of the host. -/
def credentials? (a : Address) : Option (List Char × List Char) :=
  let (name, word) := Text.cut ':' a.user
  if name.isEmpty && word.isEmpty then none else some (Percent.decode name, Percent.decode word)

end Address
end ClientBindings.Wire

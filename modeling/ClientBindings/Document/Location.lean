import ClientBindings.Failure
import ClientBindings.Text.IpAddress

/-! Where documents are: file paths and URLs, and how a location is read relative to the document that
mentions it. -/

namespace ClientBindings.Location

open Text

def isHttp (cs : List Char) : Bool :=
  "http://".toList.isPrefixOf cs || "https://".toList.isPrefixOf cs

def isUrl (location : String) : Bool := isHttp location.toList

/-! ## URLs -/

structure UrlParts where
  scheme : List Char := []
  authority : List Char := []
  path : List Char := []
  parameters : List Char := []
  query : List Char := []
  fragment : List Char := []

def isSchemeChar (c : Char) : Bool := c.isAlphanum || c == '+' || c == '-' || c == '.'

/-- The scheme in small letters and the rest. -/
def cutScheme (cs : List Char) : List Char × List Char :=
  let scheme := cs.takeWhile (· != ':')
  match scheme, cs.drop scheme.length with
  | first :: _, ':' :: rest =>
    if first.isAlpha && scheme.all isSchemeChar then (scheme.map Char.toLower, rest) else ([], cs)
  | _, _ => ([], cs)

def endsAuthority (c : Char) : Bool := c == '/' || c == '?' || c == '#'

/-- Control characters and blanks in front are dropped, tabs and line ends everywhere. -/
def cleanUrl (cs : List Char) : List Char :=
  (cs.dropWhile fun c => c.toNat ≤ 32).filter fun c => !(c == '\t' || c == '\r' || c == '\n')

/-- Characters that stand for a text with one of the marks that divide a URL. -/
def disguisedMarks : List Nat :=
  [0x2047, 0x2048, 0x2049, 0x2100, 0x2101, 0x2105, 0x2106, 0x2a74, 0xfe13, 0xfe16, 0xfe55, 0xfe56, 0xfe5f,
   0xfe6b, 0xff03, 0xff0f, 0xff1a, 0xff1f, 0xff20]

/-- Whether what stands in brackets is an address: of version six, or of a version that it names. -/
def isBracketed (host : List Char) : Bool :=
  match host with
  | 'v' :: rest =>
    let (version, address) := cut '.' rest
    !version.isEmpty && version.all (fun c => (Percent.hexValue? c).isSome) && rest.contains '.'
      && !address.isEmpty && !address.contains '\n'
  | _ => IpAddress.isV6 host

/-- Whether brackets in an authority come in pairs around an address and no mark is disguised. -/
def isAuthority (cs : List Char) : Bool :=
  let paired := cs.contains '[' && cs.contains ']'
  let bracketed := (cut ']' (cut '[' cs).2).1
  (paired && isBracketed bracketed || !paired && !cs.contains '[' && !cs.contains ']')
    && !cs.any fun c => disguisedMarks.contains c.toNat

def splitUrl (url : List Char) : Result UrlParts := do
  let (scheme, rest) := cutScheme (cleanUrl url)
  let (authority, rest) : List Char × List Char :=
    match rest with
    | '/' :: '/' :: rest => (rest.takeWhile (!endsAuthority ·), rest.dropWhile (!endsAuthority ·))
    | _ => ([], rest)
  if !isAuthority authority then throw .badValue
  let (rest, fragment) := cut '#' rest
  let (path, query) := cut '?' rest
  return { scheme, authority, path, query, fragment }

/-- The part of the last segment from its first semicolon on counts as parameters. -/
def cutParameters (path : List Char) : List Char × List Char :=
  match cutLast '/' path with
  | (some before, last) =>
    let (kept, parameters) := cut ';' last
    (before ++ '/' :: kept, parameters)
  | (none, last) => cut ';' last

def parseUrl (url : List Char) (defaultScheme : List Char) : Result UrlParts := do
  let parts ← splitUrl url
  let parts := if parts.scheme.isEmpty then { parts with scheme := defaultScheme } else parts
  if parts.scheme == "http".toList || parts.scheme == "https".toList then
    let (path, parameters) := cutParameters parts.path
    return { parts with path, parameters }
  else return parts

def unparse (u : UrlParts) : List Char :=
  let mark (c : Char) (cs : List Char) := if cs.isEmpty then [] else c :: cs
  let path := u.path ++ mark ';' u.parameters
  let rooted := if path.isEmpty || path.head? == some '/' then path else '/' :: path
  u.scheme ++ ':' :: '/' :: '/' :: u.authority ++ rooted ++ mark '?' u.query ++ mark '#' u.fragment

/-- Removes `.` segments and lets `..` drop the segment before it. -/
def collapse : List (List Char) → List (List Char) → List (List Char)
  | acc, [] => acc.reverse
  | acc, segment :: rest =>
    if segment == ['.', '.'] then collapse (acc.drop 1) rest
    else if segment == ['.'] then collapse acc rest
    else collapse (segment :: acc) rest

/-- Empty segments between the first and the last one are left out. -/
def dropInnerEmpty : List (List Char) → List (List Char)
  | [] => []
  | first :: rest => first :: ((rest.dropLast.filter (!·.isEmpty)) ++ rest.getLast?.toList)

def joinPath (base path : List Char) : List Char :=
  let segments :=
    if path.head? == some '/' then splitOn '/' path
    else dropInnerEmpty ((splitOn '/' base).dropLast ++ keptLast base ++ splitOn '/' path)
  let last := segments.getLast?.getD []
  let closing := if last == ['.'] || last == ['.', '.'] then [[]] else []
  let joined := join ['/'] (collapse [] segments ++ closing)
  if joined.isEmpty then ['/'] else joined
where
  /-- A base that ends with a slash keeps its empty last segment. -/
  keptLast (base : List Char) : List (List Char) :=
    if (splitOn '/' base).getLast? == some [] then [[]] else []

/-- A reference read relative to a URL. -/
def joinUrl (base location : List Char) : Result (List Char) := do
  if location.isEmpty then return base
  let b ← parseUrl base []
  let u ← parseUrl location b.scheme
  if u.scheme != b.scheme then return location
  if !u.authority.isEmpty then return unparse u
  if u.path.isEmpty && u.parameters.isEmpty then
    let query := if u.query.isEmpty then b.query else u.query
    return unparse { b with query, fragment := u.fragment }
  return unparse { u with authority := b.authority, path := joinPath b.path u.path }

/-- Parts joined onto the origin of a URL. -/
def mergeUrl (url : String) (parts : List String) : Result String := do
  let u ← splitUrl url.toList
  let origin := u.scheme ++ ':' :: '/' :: '/' :: u.authority
  let trimmed := parts.map fun part => part.toList.dropWhile (· == '/')
  let inner := trimmed.dropLast.map (trimEnd (· == '/'))
  return String.ofList (join ['/'] (origin :: (inner ++ trimmed.getLast?.toList)))

/-! ## Paths -/

def leadingSlashes : List Char → List Char
  | '/' :: '/' :: '/' :: _ => ['/']
  | '/' :: '/' :: _ => ['/', '/']
  | '/' :: _ => ['/']
  | _ => []

/-- Drops empty segments and dots and resolves `..` where a segment precedes it. -/
def normalizeSegments (absolute : Bool) : List (List Char) → List (List Char) → List (List Char)
  | acc, [] => acc.reverse
  | acc, segment :: rest =>
    if segment.isEmpty || segment == ['.'] then normalizeSegments absolute acc rest
    else if segment != ['.', '.'] then normalizeSegments absolute (segment :: acc) rest
    else match acc with
      | [] => normalizeSegments absolute (if absolute then [] else [segment]) rest
      | top :: below =>
        normalizeSegments absolute (if top == ['.', '.'] then segment :: acc else below) rest

def normalizePath (cs : List Char) : List Char :=
  let slashes := leadingSlashes cs
  let path := slashes ++ join ['/'] (normalizeSegments (!slashes.isEmpty) [] (splitOn '/' cs))
  if path.isEmpty then ['.'] else path

def appendPath (base path : List Char) : List Char :=
  if path.head? == some '/' then path
  else if base.isEmpty || base.getLast? == some '/' then base ++ path
  else base ++ '/' :: path

/-- The directory part of a path. -/
def directory (cs : List Char) : List Char :=
  match cutLast '/' cs with
  | (none, _) => []
  | (some before, _) => if before.all (· == '/') then before ++ ['/'] else trimEnd (· == '/') before

/-- A path spelled without dots and doubled slashes. -/
def tidyPath (cs : List Char) : List Char :=
  let segments := (splitOn '/' cs).filter fun s => !(s.isEmpty || s == ['.'])
  let path := leadingSlashes cs ++ join ['/'] segments
  if path.isEmpty then ['.'] else path

/-- The extension of a file name with its dot. -/
def suffix (path : String) : String :=
  let name := (cutLast '/' (tidyPath path.toList)).2
  match cutLast '.' name with
  | (some before, last) => if before.isEmpty || last.isEmpty then "" else String.ofList ('.' :: last)
  | _ => ""

/-! ## Locations -/

variable (workingDirectory : String)

/-- URLs stay as they are; paths become absolute and normal. -/
def normalize (location : String) : String :=
  if isUrl location then location
  else onChars (fun cs => normalizePath (appendPath workingDirectory.toList cs)) location

/-- A location read from the document that mentions it. -/
def resolve (base location : String) : Result String := do
  if isUrl location then return location
  if isUrl base then return String.ofList (← joinUrl base.toList location.toList)
  return normalize workingDirectory
    (String.ofList (appendPath (directory base.toList) location.toList))

end ClientBindings.Location

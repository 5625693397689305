import ClientBindings.Text.Base64
import ClientBindings.Wire.Address
import ClientBindings.Wire.Json
import ClientBindings.Wire.Multipart
import ClientBindings.Wire.Request

/-! Messages: requests completed for the network. The headers that a client always sends are added unless
the request has them, and the content becomes bytes that say what they are. -/

namespace ClientBindings.Wire

/-- Headers in order; names count without regard to case and may be repeated. -/
structure Headers where
  entries : List (String × String) := []
deriving Repr, Inhabited

namespace Headers

def small (name : String) : String := Text.onChars (List.map Char.toLower) name

/-- The values under a name. -/
def values (h : Headers) (name : String) : List String :=
  (h.entries.filter fun e => small e.1 == small name).map Prod.snd

def has (h : Headers) (name : String) : Bool := !(h.values name).isEmpty

/-- The values under a name, joined by commas. -/
def find? (h : Headers) (name : String) : Option String :=
  match h.values name with
  | [] => none
  | found => some (String.intercalate ", " found)

def append (h k : Headers) : Headers := ⟨h.entries ++ k.entries⟩

/-- Sets a header only if there is none of its name. -/
def orSet (h : Headers) (name value : String) : Headers :=
  if h.has name then h else ⟨h.entries ++ [(name, value)]⟩

def erase (h : Headers) (name : String) : Headers := ⟨h.entries.filter fun e => small e.1 != small name⟩

/-- Replaces all headers of a name. -/
def set (h : Headers) (name value : String) : Headers := (h.erase name).append ⟨[(name, value)]⟩

/-- What a client sends with every request. -/
def always : Headers where
  entries :=
    [("Accept", "*/*"), ("Accept-Encoding", "gzip, deflate"), ("Connection", "keep-alive"),
     ("User-Agent", "python-httpx/0.28.1")]

/-- The headers that a client always sends, replaced by those given. -/
def completed (own : Headers) : Headers := (own.entries.foldl (fun h e => h.erase e.1) always).append own

/-- A name as it is sent; bytes stand for the characters of their codes. -/
def nameOf : Value → Result String
  | .str s => if s.toList.all Percent.isAscii then return s else throw .unencodable
  | .bytes bs => return String.ofList (bs.map fun b => Char.ofNat b.toNat)
  | _ => throw .noMember

/-- Names and values have to be ASCII. -/
def ofValues (entries : List (Value × Value)) : Result Headers := do
  let named ← entries.mapM fun (name, v) => do
    let name ← nameOf name
    let text ← v.toText
    if text.toList.all Percent.isAscii then return (name, text) else throw .unencodable
  return ⟨named⟩

end Headers

/-- The bytes of a content and the headers that describe them. Raw content is text or bytes. -/
def Content.encoded (mediaType : Option String) : Content → Result (List UInt8 × Headers)
  | .empty | .raw .null | .files [] => return ([], {})
  | .raw (.str s) => return sized (Utf8.encode s.toList)
  | .raw (.bytes bs) => return sized bs
  | .raw _ => throw .wrongKind
  | .json v => return described (Utf8.encode (← JsonForm.body.chars v)) "application/json"
  | .files uploads => do
    let boundary := (mediaType.bind Multipart.boundary?).getD Multipart.usualBoundary
    let bytes ← Multipart.bytes boundary uploads
    return described bytes ("multipart/form-data; boundary=" ++ String.ofList boundary)
where
  length (bytes : List UInt8) : String × String := ("Content-Length", toString bytes.length)
  sized (bytes : List UInt8) : List UInt8 × Headers := (bytes, ⟨if bytes.isEmpty then [] else [length bytes]⟩)
  described (bytes : List UInt8) (mediaType : String) : List UInt8 × Headers :=
    (bytes, ⟨[length bytes, ("Content-Type", mediaType)]⟩)

structure Message where
  method : String
  address : Address
  headers : Headers
  body : List UInt8
deriving Repr, Inhabited

namespace Message

/-- The header that names and passwords in an address become. -/
def authorization (name word : List Char) : String :=
  "Basic " ++ String.ofList (Base64.encode (Utf8.encode (name ++ ':' :: word)))

/-- Methods that announce the length of their content even if there is none. -/
def announcing : List String := ["POST", "PUT", "PATCH"]

/-- The headers of a request with those that its address and method call for. -/
def addressed (h : Headers) (method : String) (address : Address) : Headers :=
  let h := if address.host.isEmpty then h else h.orSet "Host" (String.ofList address.place)
  let announces := announcing.contains method && !h.has "Transfer-Encoding"
  let h := if announces then h.orSet "Content-Length" "0" else h
  match address.credentials? with
  | some (name, word) => h.set "Authorization" (authorization name word)
  | none => h

/-- A request as it goes out. -/
def ofRequest (r : Request) : Result Message := do
  let address ← Address.parse r.url
  let headers := (← Headers.ofValues r.headers).completed
  let (body, described) ← r.content.encoded (headers.find? "Content-Type")
  let headers := described.entries.foldl (fun h e => h.orSet e.1 e.2) headers
  return { method := r.method, address, headers := addressed headers r.method address, body }

end Message
end ClientBindings.Wire

import ClientBindings.Text.Percent
import ClientBindings.Unicode.Casing
import ClientBindings.Wire.MediaType
import ClientBindings.Wire.Value

/-! Bodies of several parts. A boundary that the headers name, or else a standard one, stands between the
parts; each part has a name and may have a file name and a media type. -/

namespace ClientBindings.Wire.Multipart

def lineEnd : List Char := ['\r', '\n']

/-- Quotes and control characters inside a quoted parameter. -/
def parameterChar (c : Char) : List Char :=
  if c = '"' then "%22".toList
  else if c = '\\' then ['\\', '\\']
  else if c.toNat < 32 ∧ c.toNat ≠ 27 then Percent.encodeByte c.toUInt8
  else [c]

def parameter (name : String) (v : Value) : Result (List Char) :=
  match v with
  | .str s => return name.toList ++ '=' :: '"' :: (s.toList.flatMap parameterChar ++ ['"'])
  | _ => throw .wrongKind

structure Part where
  name : Value
  fileName : Value
  content : Value
  /-- What describes the content besides its names. -/
  headers : Value.Fields

/-- The media type that is given, or else the usual one of a file that has a name. -/
def mediaTypeOf (fileName given : Value) : Result Value :=
  match given, fileName with
  | .null, .str name => return if name.isEmpty then .null else .str (MediaType.ofFileName name)
  | .null, v => if v.truthy then throw .wrongKind else return .null
  | given, _ => return given

/-- Whether headers name a media type; their names have to be texts. -/
def namesType (headers : Value.Fields) : Result Bool :=
  headers.anyM fun (name, _) =>
    match name with
    | .str s => return Text.occurs "content-type".toList (Unicode.lower s.toList)
    | .bytes _ => throw .wrongKind
    | _ => throw .noMember

def Part.of (name fileName content mediaType : Value) (headers : Value.Fields) : Result Part := do
  let mediaType ← mediaTypeOf fileName mediaType
  let own := if mediaType.isNull then [] else [(.str "Content-Type", mediaType)]
  return ⟨name, fileName, content, if ← namesType headers then headers else headers ++ own⟩

/-- A part of an upload: file name, content and perhaps media type and headers. -/
def Part.ofUpload : Value → Result Part
  | .tuple [name, .tuple [fileName, content]] => Part.of name fileName content .null []
  | .tuple [name, .tuple [fileName, content, mediaType]] => Part.of name fileName content mediaType []
  | .tuple [name, .tuple [fileName, content, mediaType, .map headers]] =>
    Part.of name fileName content mediaType headers
  | .tuple [_, .tuple [_, _, _, _]] => throw .wrongKind
  | _ => throw .badValue

def headerLine : Value × Value → Result (List Char)
  | (name, .str v) => return lineEnd ++ ((← name.toText).toList ++ ':' :: ' ' :: v.toList)
  | _ => throw .noMember

def Part.head (p : Part) : Result (List Char) := do
  let name ← parameter "name" p.name
  let fileNames ← [p.fileName].filter (·.truthy) |>.mapM (parameter "filename")
  let names := Text.join [';', ' '] ("form-data".toList :: name :: fileNames)
  let lines ← p.headers.mapM headerLine
  return "Content-Disposition: ".toList ++ names ++ lines.flatten ++ lineEnd ++ lineEnd

def Part.body (p : Part) : Result (List UInt8) :=
  match p.content with
  | .str s => return Utf8.encode s.toList
  | .bytes bs => return bs
  | _ => throw .noMember

def Part.bytes (border : List Char) (p : Part) : Result (List UInt8) := do
  let head ← p.head
  return Utf8.encode (border ++ lineEnd ++ head) ++ (← p.body) ++ Utf8.encode lineEnd

/-- The body of uploads. -/
def bytes (boundary : List Char) (uploads : List Value) : Result (List UInt8) := do
  let border := '-' :: '-' :: boundary
  let pieces ← (← uploads.mapM Part.ofUpload).mapM (Part.bytes border)
  return pieces.flatten ++ Utf8.encode (border ++ '-' :: '-' :: lineEnd)

/-- The boundary that a media type names. -/
def boundary? (mediaType : String) : Option (List Char) :=
  if !"multipart/form-data".toList.isPrefixOf mediaType.toList then none else
  let sections := ((Text.splitOn ';' mediaType.toList).drop 1).map Text.strip
  let named := sections.find? fun s => "boundary=".toList.isPrefixOf (s.map Char.toLower)
  named.map fun s => Text.trim (· == '"') (s.drop 9)

def usualBoundary : List Char := List.replicate 32 '0'

end ClientBindings.Wire.Multipart

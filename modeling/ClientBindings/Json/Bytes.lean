import ClientBindings.Json.Reader

/-! JSON in bytes. A mark in front tells the encoding; without one, the places of the zero bytes among
the first four do, since JSON starts with characters of one byte. -/

namespace ClientBindings.Json

inductive Encoding where
  | utf8
  | utf16 (order : ByteOrder)
  | utf32 (order : ByteOrder)
deriving DecidableEq, Repr, Inhabited

/-- The marks that tell an encoding, the longer ones first where one starts with another. -/
def marks : List (List UInt8 × Encoding) :=
  [([0, 0, 0xfe, 0xff], .utf32 .big), ([0xff, 0xfe, 0, 0], .utf32 .little), ([0xfe, 0xff], .utf16 .big),
   ([0xff, 0xfe], .utf16 .little), ([0xef, 0xbb, 0xbf], .utf8)]

/-- The encoding of bytes without a mark. -/
def unmarkedEncoding : List UInt8 → Encoding
  | a :: b :: c :: d :: _ =>
    if a = 0 then (if b = 0 then .utf32 .big else .utf16 .big)
    else if b = 0 then (if c = 0 ∧ d = 0 then .utf32 .little else .utf16 .little)
    else .utf8
  | [a, b] => if a = 0 then .utf16 .big else if b = 0 then .utf16 .little else .utf8
  | _ => .utf8

/-- The encoding of bytes, and the bytes behind its mark. -/
def encodingOf (bs : List UInt8) : Encoding × List UInt8 :=
  match marks.find? fun m => m.1.isPrefixOf bs with
  | some (mark, encoding) => (encoding, bs.drop mark.length)
  | none => (unmarkedEncoding bs, bs)

def Encoding.decode? : Encoding → List UInt8 → Option (List Char)
  | .utf8, bs => Utf8.decodeHalves? bs
  | .utf16 order, bs => Utf16.decode? order bs
  | .utf32 order, bs => Utf32.decode? order bs

def parseBytes (bs : List UInt8) : Result Data :=
  let (encoding, bs) := encodingOf bs
  match encoding.decode? bs with
  | some cs => parse (String.ofList cs)
  | none => throw .undecodable

end ClientBindings.Json

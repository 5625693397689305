/-! UTF-8: the bytes of a text and the text of bytes, strictly or with a replacement character for
every longest start of a character that cannot go on. Halves of surrogate pairs are no characters; a
reader may let them pass as replacement characters. -/

namespace ClientBindings.Utf8

def encode (cs : List Char) : List UInt8 := cs.flatMap String.utf8EncodeChar

def replacement : Char := Char.ofNat 0xfffd

/-- The character of a code; half of a surrogate pair is none and gets replaced. -/
def charOfCode (code : Nat) : Char := if 0xd800 ≤ code ∧ code < 0xe000 then replacement else Char.ofNat code

/-- The bytes that may follow a leading byte: how many, and the bounds of the first of them. -/
def tailShape? (halves : Bool) (lead : UInt8) : Option (Nat × UInt8 × UInt8) :=
  if 0xc2 ≤ lead ∧ lead ≤ 0xdf then some (1, 0x80, 0xbf)
  else if lead = 0xe0 then some (2, 0xa0, 0xbf)
  else if lead = 0xed then some (2, 0x80, if halves then 0xbf else 0x9f)
  else if 0xe1 ≤ lead ∧ lead ≤ 0xef then some (2, 0x80, 0xbf)
  else if lead = 0xf0 then some (3, 0x90, 0xbf)
  else if 0xf1 ≤ lead ∧ lead ≤ 0xf3 then some (3, 0x80, 0xbf)
  else if lead = 0xf4 then some (3, 0x80, 0x8f)
  else none

/-- Collects continuation bytes into a code; also tells how many fitted. -/
def collect : Nat → UInt8 → UInt8 → Nat → Nat → List UInt8 → Option Nat × Nat
  | 0, _, _, code, taken, _ => (some code, taken)
  | _ + 1, _, _, _, taken, [] => (none, taken)
  | n + 1, low, high, code, taken, b :: bs =>
    if low ≤ b ∧ b ≤ high then collect n 0x80 0xbf (code * 64 + (b.toNat - 0x80)) (taken + 1) bs
    else (none, taken)

/-- The character at the front, or none where there is no valid one, and the bytes beyond the first
that belong to it. -/
def front (halves : Bool) (lead : UInt8) (bs : List UInt8) : Option Char × Nat :=
  if lead < 0x80 then (some (Char.ofNat lead.toNat), 0)
  else match tailShape? halves lead with
    | none => (none, 0)
    | some (n, low, high) =>
      let start := lead.toNat % (if n = 1 then 32 else if n = 2 then 16 else 8)
      let (code, taken) := collect n low high start 0 bs
      (code.map charOfCode, taken)

/-- Every character found, a malformed one as `none`; the counter skips bytes already read. -/
def decodeFrom (halves : Bool) : Nat → List UInt8 → List (Option Char)
  | _, [] => []
  | skip + 1, _ :: bs => decodeFrom halves skip bs
  | 0, b :: bs =>
    let (c, taken) := front halves b bs
    c :: decodeFrom halves taken bs

def decode? (bs : List UInt8) : Option (List Char) := (decodeFrom false 0 bs).mapM id

/-- Decodes what is UTF-8 apart from halves of surrogate pairs. -/
def decodeHalves? (bs : List UInt8) : Option (List Char) := (decodeFrom true 0 bs).mapM id

def decodeLossy (bs : List UInt8) : List Char := (decodeFrom false 0 bs).map (·.getD replacement)

end ClientBindings.Utf8

import ClientBindings.Text.Utf8
import ClientBindings.Text.Chars

/-! Percent-encoding of text as UTF-8. -/

namespace ClientBindings.Percent

def upperHexDigit (n : Nat) : Char := if n < 10 then Char.ofNat (48 + n) else Char.ofNat (55 + n)

def encodeByte (b : UInt8) : List Char := ['%', upperHexDigit (b.toNat / 16), upperHexDigit (b.toNat % 16)]

def encode (keep : Char → Bool) (cs : List Char) : List Char :=
  cs.flatMap fun c => if keep c then [c] else (String.utf8EncodeChar c).flatMap encodeByte

/-- Letters, digits and the marks that stand for themselves inside a URL component. -/
def isUnreserved (c : Char) : Bool := c.isAlphanum || "-_.!~*'()".toList.contains c

def component (cs : List Char) : List Char := encode isUnreserved cs

def isFormSafe (c : Char) : Bool := c.isAlphanum || "_.-~".toList.contains c

/-- Form encoding of a byte: a blank is written as a plus sign. -/
def formByte (b : UInt8) : List Char :=
  let c := Char.ofNat b.toNat
  if c == ' ' then ['+'] else if isFormSafe c then [c] else encodeByte b

def formBytes (bs : List UInt8) : List Char := bs.flatMap formByte

def formComponent (cs : List Char) : List Char := formBytes (Utf8.encode cs)

def hexValue? (c : Char) : Option Nat :=
  let n := c.toNat
  if 48 ≤ n ∧ n ≤ 57 then some (n - 48)
  else if 65 ≤ n ∧ n ≤ 70 then some (n - 55)
  else if 97 ≤ n ∧ n ≤ 102 then some (n - 87)
  else none

/-- The byte that two hexadecimal digits spell. -/
def byte? (a b : Char) : Option UInt8 := do
  let high ← hexValue? a
  let low ← hexValue? b
  return UInt8.ofNat (16 * high + low)

/-- The bytes of a run of ASCII characters: escapes as the bytes they spell, all else as it is. -/
def bytesOf : List Char → List UInt8
  | '%' :: a :: b :: cs =>
    match byte? a b with
    | some byte => byte :: bytesOf cs
    | none => '%'.toUInt8 :: bytesOf (a :: b :: cs)
  | c :: cs => c.toUInt8 :: bytesOf cs
  | [] => []

def isAscii (c : Char) : Bool := c.toNat < 128

/-- Splits into maximal runs of ASCII characters and single other characters. -/
def decodeRuns : List Char → List Char → List Char
  | run, [] => Utf8.decodeLossy (bytesOf run.reverse)
  | run, c :: cs =>
    if isAscii c then decodeRuns (c :: run) cs
    else Utf8.decodeLossy (bytesOf run.reverse) ++ c :: decodeRuns [] cs

/-- Resolves escapes; bytes that are no UTF-8 become replacement characters and an incomplete escape
stays. -/
def decode (cs : List Char) : List Char := decodeRuns [] cs

end ClientBindings.Percent

import ClientBindings.Text.Utf8

/-! Texts in units of two or four bytes, in either byte order: UTF-16 and UTF-32. Halves of surrogate
pairs that stand alone pass as replacement characters. -/

namespace ClientBindings

namespace Surrogate

def isHigh (code : Nat) : Bool := 0xd800 ≤ code && code < 0xdc00

def isLow (code : Nat) : Bool := 0xdc00 ≤ code && code < 0xe000

/-- The code that two halves spell. -/
def pair (high low : Nat) : Nat := 0x10000 + (high - 0xd800) * 0x400 + (low - 0xdc00)

end Surrogate

inductive ByteOrder where
  | little | big
deriving DecidableEq, Repr, Inhabited

/-- The number that bytes spell. -/
def ByteOrder.number (order : ByteOrder) (bs : List UInt8) : Nat :=
  let ordered := match order with
    | .big => bs
    | .little => bs.reverse
  ordered.foldl (fun n b => n * 256 + b.toNat) 0

namespace Utf16

/-- The units of two bytes; none if a byte is left over. -/
def units? (order : ByteOrder) : List UInt8 → Option (List Nat)
  | [] => some []
  | [_] => none
  | a :: b :: bs => (units? order bs).map (order.number [a, b] :: ·)

def ofUnits : List Nat → List Char
  | high :: low :: rest =>
    if Surrogate.isHigh high && Surrogate.isLow low then
      Char.ofNat (Surrogate.pair high low) :: ofUnits rest
    else Utf8.charOfCode high :: ofUnits (low :: rest)
  | [unit] => [Utf8.charOfCode unit]
  | [] => []

def decode? (order : ByteOrder) (bs : List UInt8) : Option (List Char) := (units? order bs).map ofUnits

end Utf16

namespace Utf32

def charOf? (code : Nat) : Option Char := if code < 0x110000 then some (Utf8.charOfCode code) else none

def decode? (order : ByteOrder) : List UInt8 → Option (List Char)
  | [] => some []
  | a :: b :: c :: d :: bs => do
    let x ← charOf? (order.number [a, b, c, d])
    return x :: (← decode? order bs)
  | _ => none

end Utf32
end ClientBindings

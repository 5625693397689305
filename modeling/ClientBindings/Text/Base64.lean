/-! Base 64 with padding. Reading skips characters that are no digits. -/

namespace ClientBindings.Base64

def alphabet : List Char := "ABCDEFGHIJKLMNOPQRSTUVWXYZabcdefghijklmnopqrstuvwxyz0123456789+/".toList

def digit (n : Nat) : Char := alphabet.getD (n % 64) 'A'

def encode : List UInt8 → List Char
  | a :: b :: c :: rest =>
    let n := a.toNat * 65536 + b.toNat * 256 + c.toNat
    digit (n / 262144) :: digit (n / 4096) :: digit (n / 64) :: digit n :: encode rest
  | [a, b] =>
    let n := a.toNat * 1024 + b.toNat * 4
    [digit (n / 4096), digit (n / 64), digit n, '=']
  | [a] => [digit (a.toNat / 4), digit (a.toNat * 16), '=', '=']
  | [] => []

/-- The place of a digit in the alphabet. -/
def value? (c : Char) : Option Nat :=
  let place := alphabet.idxOf c
  if place < alphabet.length then some place else none

/-- The bytes that digits spell. The counter is the place in the current group of four, `pads` counts
the padding since the last digit and `carried` holds the bits not yet written. A complete group with
its padding ends the text. -/
def decodeFrom (place pads carried : Nat) : List Char → Option (List UInt8)
  | [] => if place = 0 then some [] else none
  | c :: cs =>
    if c = '=' then
      if 2 ≤ place ∧ 4 ≤ place + pads + 1 then some []
      else decodeFrom place (if 2 ≤ place then pads + 1 else pads) carried cs
    else match value? c with
      | none => decodeFrom place pads carried cs
      | some d =>
        let byte (n : Nat) : UInt8 := UInt8.ofNat n
        match place with
        | 0 => decodeFrom 1 0 d cs
        | 1 => (decodeFrom 2 0 (d % 16) cs).map (byte (carried * 4 + d / 16) :: ·)
        | 2 => (decodeFrom 3 0 (d % 4) cs).map (byte (carried * 16 + d / 4) :: ·)
        | _ => (decodeFrom 0 0 0 cs).map (byte (carried * 64 + d) :: ·)

def decode? (cs : List Char) : Option (List UInt8) := decodeFrom 0 0 0 cs

end ClientBindings.Base64

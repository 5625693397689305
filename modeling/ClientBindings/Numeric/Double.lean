/-! Binary floating point numbers of 64 bits, held exactly: a finite one is an integer times a power
of two. Rounding goes to the nearest number and, between two of them, to the even one. -/

namespace ClientBindings

inductive Double where
  | nan
  | infinite (negative : Bool)
  | finite (negative : Bool) (mantissa : Nat) (exponent : Int)
deriving DecidableEq, Repr, Inhabited

namespace Double

def zero (negative : Bool) : Double := .finite negative 0 0

/-- The least exponent a finite number has. -/
def leastExponent : Int := -1074

/-- The first mantissa that needs 53 bits. -/
def fullMantissa : Nat := Nat.pow 2 52

/-- Nearest integer to `num / den`; a tie goes to the even neighbour. -/
def roundQuotient (num den : Nat) : Nat :=
  let q := num / den
  let r := num % den
  if 2 * r < den ∨ (2 * r = den ∧ q % 2 = 0) then q else q + 1

/-- Numerator and denominator of `num / den / 2 ^ q`. -/
def rescale (num den : Nat) (q : Int) : Nat × Nat :=
  if 0 ≤ q then (num, den * Nat.pow 2 q.toNat) else (num * Nat.pow 2 (-q).toNat, den)

/-- The number nearest to the quotient of two naturals. -/
def ofRatio (negative : Bool) (num den : Nat) : Double :=
  if num = 0 ∨ den = 0 then zero negative else
  let low := max ((num.log2 : Int) - den.log2 - 53) leastExponent
  let wide := rescale num den low
  let q := if wide.1 / wide.2 < 2 * fullMantissa then low else low + 1
  let (n, d) := rescale num den q
  let m := roundQuotient n d
  let (m, q) := if m = 2 * fullMantissa then (fullMantissa, q + 1) else (m, q)
  if m = 0 then zero negative
  else if 971 < q then .infinite negative
  else .finite negative m q

/-- The number nearest to `coefficient * 10 ^ exponent`. Exponents far outside the range are settled
without raising ten to them. -/
def ofDecimal (negative : Bool) (coefficient : Nat) (exponent : Int) : Double :=
  let magnitude : Int := coefficient.log2 / 3 + exponent
  if coefficient = 0 then zero negative
  else if 400 < exponent ∧ 0 ≤ exponent then .infinite negative
  else if magnitude < -400 then zero negative
  else if 0 ≤ exponent then ofRatio negative (coefficient * Nat.pow 10 exponent.toNat) 1
  else ofRatio negative coefficient (Nat.pow 10 (-exponent).toNat)

/-- The integer that a number equals, if there is one. -/
def toInt? : Double → Option Int
  | .finite negative m q =>
    let whole : Option Nat :=
      if 0 ≤ q then some (m * Nat.pow 2 q.toNat)
      else if m % Nat.pow 2 (-q).toNat = 0 then some (m / Nat.pow 2 (-q).toNat) else none
    whole.map fun n => if negative then -(n : Int) else n
  | _ => none

def isZero : Double → Bool
  | .finite _ 0 _ => true
  | _ => false

def isFinite : Double → Bool
  | .finite .. => true
  | _ => false

end Double
end ClientBindings

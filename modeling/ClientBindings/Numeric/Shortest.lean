import ClientBindings.Numeric.Double

/-! The shortest decimal that reads back as a given number, and among those of that length the one
nearest to it. All arithmetic is exact. -/

namespace ClientBindings

/-- The positive rational `coefficient * 10 ^ exponent`. -/
structure Decimal where
  coefficient : Nat
  exponent : Int
deriving DecidableEq, Repr, Inhabited

namespace Decimal

def digits (d : Decimal) : List Char := Nat.toDigits 10 d.coefficient

/-- Position of the decimal point counted from the first digit: the value is
`0.d₁…dₖ * 10 ^ point`. -/
def point (d : Decimal) : Int := d.digits.length + d.exponent

/-- Moves trailing zeros of the coefficient into the exponent. -/
def strip : Nat → Decimal → Decimal
  | 0, d => d
  | fuel + 1, d =>
    if d.coefficient ≠ 0 ∧ d.coefficient % 10 = 0 then strip fuel ⟨d.coefficient / 10, d.exponent + 1⟩
    else d

/-- The same value with no trailing zero. -/
def normalize (d : Decimal) : Decimal := d.strip d.coefficient.log2

end Decimal

namespace Double

/-- The reals that round to `mantissa * 2 ^ exponent`, measured in quarters of the last binary place. -/
structure RoundingInterval where
  low : Nat
  value : Nat
  high : Nat
  closed : Bool

def roundingInterval (mantissa : Nat) (exponent : Int) : RoundingInterval where
  low := if mantissa = fullMantissa ∧ leastExponent < exponent then 4 * mantissa - 1 else 4 * mantissa - 2
  value := 4 * mantissa
  high := 4 * mantissa + 2
  closed := mantissa % 2 = 0

/-- Compares `a * 10 ^ e` with `n * 2 ^ q` after clearing negative powers. -/
def crossScale (a : Nat) (e : Int) (n : Nat) (q : Int) : Nat × Nat :=
  (a * Nat.pow 10 e.toNat * Nat.pow 2 (-q).toNat, n * Nat.pow 2 q.toNat * Nat.pow 10 (-e).toNat)

def RoundingInterval.contains (i : RoundingInterval) (q : Int) (d : Decimal) : Bool :=
  let (x, low) := crossScale d.coefficient d.exponent i.low q
  let (x', high) := crossScale d.coefficient d.exponent i.high q
  if i.closed then low ≤ x && x' ≤ high else low < x && x' < high

/-- Largest `k` in the given range with `10 ^ k` at most `n * 2 ^ q`. -/
def floorLog10 (n : Nat) (q : Int) : Nat → Int → Int
  | 0, k => k
  | fuel + 1, k =>
    let (power, value) := crossScale 1 k n q
    if power ≤ value then k else floorLog10 n q fuel (k - 1)

/-- The neighbour of the value on the grid of multiples of `10 ^ e` that lies in the interval; of two
the nearer, and at a tie the even one. -/
def gridPoint? (i : RoundingInterval) (q e : Int) : Option Decimal :=
  let (unit, value) := crossScale 1 e i.value q
  let floor := value / unit
  let below : Decimal := ⟨floor, e⟩
  let above : Decimal := ⟨floor + 1, e⟩
  match floor != 0 && i.contains q below, i.contains q above with
  | true, true =>
    let rest := value % unit
    if 2 * rest < unit ∨ (2 * rest = unit ∧ floor % 2 = 0) then some below else some above
  | true, false => some below
  | false, true => some above
  | false, false => none

/-- Fewest digits first; seventeen digits always suffice. -/
def shortestOf (mantissa : Nat) (exponent : Int) : Decimal :=
  let i := roundingInterval mantissa exponent
  let q := exponent - 2
  let estimate : Int := ((i.value.log2 : Int) + q + 1) * 30103 / 100000 + 1
  let top := floorLog10 i.value q 4 estimate
  let grids := (List.range 17).map fun (n : Nat) => top - (n : Int)
  ((grids.findSome? (gridPoint? i q)).getD ⟨0, 0⟩).normalize

end Double
end ClientBindings

import ClientBindings.Numeric.Double

/-! Sums and products of binary floating point numbers: the exact result, rounded once. -/

namespace ClientBindings.Double

/-- The number nearest to `mantissa * 2 ^ exponent`. -/
def ofBinary (negative : Bool) (mantissa : Nat) (exponent : Int) : Double :=
  if 0 ≤ exponent then ofRatio negative (mantissa * Nat.pow 2 exponent.toNat) 1
  else ofRatio negative mantissa (Nat.pow 2 (-exponent).toNat)

/-- The number nearest to an integer. -/
def ofInt (n : Int) : Double := ofRatio (n < 0) n.natAbs 1

def negate : Double → Double
  | .nan => .nan
  | .infinite negative => .infinite (!negative)
  | .finite negative m q => .finite (!negative) m q

def isNegative : Double → Bool
  | .nan => false
  | .infinite negative | .finite negative .. => negative

/-- A signed mantissa in units that are `2 ^ shift` times smaller. -/
def refined (negative : Bool) (mantissa shift : Nat) : Int :=
  let units : Int := mantissa * Nat.pow 2 shift
  if negative then -units else units

/-- A sum of zero is negative only if both terms are. -/
def add : Double → Double → Double
  | .nan, _ | _, .nan => .nan
  | .infinite a, .infinite b => if a = b then .infinite a else .nan
  | .infinite a, _ | _, .infinite a => .infinite a
  | .finite a m p, .finite b n q =>
    let unit := min p q
    let sum := refined a m (p - unit).toNat + refined b n (q - unit).toNat
    if sum = 0 then zero (a && b) else ofBinary (sum < 0) sum.natAbs unit

def mul : Double → Double → Double
  | .nan, _ | _, .nan => .nan
  | .infinite a, y => if y.isZero then .nan else .infinite (a != y.isNegative)
  | x, .infinite b => if x.isZero then .nan else .infinite (x.isNegative != b)
  | .finite a m p, .finite b n q => ofBinary (a != b) (m * n) (p + q)

@[simp] theorem negate_negate (x : Double) : x.negate.negate = x := by cases x <;> simp [negate]

@[simp] theorem add_nan (x : Double) : add x .nan = .nan := by cases x <;> rfl

@[simp] theorem mul_nan (x : Double) : mul x .nan = .nan := by cases x <;> rfl

end ClientBindings.Double

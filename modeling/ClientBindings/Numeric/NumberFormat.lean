import ClientBindings.Numeric.Shortest

/-! How numbers are spelled. The digits are always the shortest that read back; a format decides
where positional writing ends, how an exponent looks and what stands for the special values. -/

namespace ClientBindings

structure NumberFormat where
  /-- The least and greatest position of the decimal point written without an exponent. -/
  leastPoint : Int
  greatestPoint : Int
  /-- Whether a whole number keeps a `.0`. -/
  keepsFraction : Bool
  exponentWidth : Nat
  signedZero : Bool
  notANumber : String
  infinity : String

namespace NumberFormat

/-- Program text: positional from 10⁻⁴ up to 10¹⁶, exponents of at least two digits. -/
def source : NumberFormat where
  leastPoint := -3
  greatestPoint := 16
  keepsFraction := true
  exponentWidth := 2
  signedZero := true
  notANumber := "nan"
  infinity := "inf"

/-- Text on the wire: positional from 10⁻⁶ up to 10²¹, whole numbers without a point. -/
def wire : NumberFormat where
  leastPoint := -5
  greatestPoint := 21
  keepsFraction := false
  exponentWidth := 1
  signedZero := false
  notANumber := "NaN"
  infinity := "Infinity"

variable (f : NumberFormat)

def fractionMark : List Char := if f.keepsFraction then ['.', '0'] else []

def exponentText (e : Int) : List Char :=
  let digits := Nat.toDigits 10 e.natAbs
  'e' :: (if 0 ≤ e then '+' else '-') :: (List.replicate (f.exponentWidth - digits.length) '0' ++ digits)

/-- A positive decimal without trailing zeros. -/
def positive (d : Decimal) : List Char :=
  let digits := d.digits
  let p := d.point
  if f.leastPoint ≤ p ∧ p ≤ f.greatestPoint then
    if p ≤ 0 then '0' :: '.' :: (List.replicate (-p).toNat '0' ++ digits)
    else if (digits.length : Int) ≤ p then
      digits ++ List.replicate (p.toNat - digits.length) '0' ++ f.fractionMark
    else digits.take p.toNat ++ '.' :: digits.drop p.toNat
  else
    let fraction := digits.drop 1
    digits.take 1 ++ (if fraction.isEmpty then [] else '.' :: fraction) ++ f.exponentText (p - 1)

def sign (negative : Bool) : List Char := if negative then ['-'] else []

def chars : Double → List Char
  | .nan => f.notANumber.toList
  | .infinite negative => sign negative ++ f.infinity.toList
  | .finite negative m q =>
    if m = 0 then sign (negative && f.signedZero) ++ '0' :: f.fractionMark
    else sign negative ++ f.positive (Double.shortestOf m q)

def text (x : Double) : String := String.ofList (f.chars x)

end NumberFormat
end ClientBindings

import ClientBindings.Numeric.Double
import ClientBindings.Text.Chars
import ClientBindings.Text.Percent
import ClientBindings.Unicode.Digit

/-! Numbers as people write them: white space around them, a sign, decimal digits of any script and
single fillers between digits. Integers may show their base and floats an exponent or a word. -/

namespace ClientBindings.Numeral

/-- The number that decimal digits of any script spell; other digits spell none. -/
def decimal? (cs : List Char) : Option Nat :=
  cs.foldlM (fun n c => (Unicode.decimalValue? c).map (10 * n + ·)) 0

/-- Decimal texts with more digits are not read as integers. -/
def mostDigits : Nat := 4300

/-- Integers with more digits than are read have no decimal text. -/
def isShort (n : Int) : Bool := (Nat.toDigits 10 n.natAbs).length ≤ mostDigits

/-- White space that may surround a number. Separators of records are none. -/
def isMargin (c : Char) : Bool := Unicode.isBlank c && !(28 ≤ c.toNat && c.toNat ≤ 31)

def isFiller (c : Char) : Bool := c == '_'

/-- The sign in front and the rest. -/
def cutSign : List Char → Bool × List Char
  | '-' :: cs => (true, cs)
  | '+' :: cs => (false, cs)
  | cs => (false, cs)

/-- The value of a digit; letters continue the decimal digits. -/
def digit? (c : Char) : Option Nat := (Unicode.decimalValue? c).orElse fun _ => Percent.hexValue? c

/-- A text without its fillers, each of which has to stand between two digits. -/
def unfilled? (isDigit : Char → Bool) : Bool → List Char → Option (List Char)
  | _, [] => some []
  | afterDigit, c :: cs =>
    if isFiller c then
      if afterDigit && (cs.head?.map isDigit).getD false then unfilled? isDigit false cs else none
    else (unfilled? isDigit (isDigit c) cs).map (c :: ·)

/-- The letter that marks the digits of a base. -/
def mark? (base : Nat) : Option Char := [(2, 'b'), (8, 'o'), (16, 'x')].lookup base

/-- The digits behind a zero and the mark of their base, if they are marked. -/
def unmarked (base : Nat) (cs : List Char) : List Char :=
  match cs, mark? base with
  | '0' :: c :: rest, some mark =>
    if c.toLower == mark then (if rest.head? == some '_' then rest.drop 1 else rest) else cs
  | _, _ => cs

/-- The number that digits of a base spell. -/
def digits? (base : Nat) (cs : List Char) : Option Nat := do
  let cs ← unfilled? (fun c => (digit? c).isSome) false cs
  if cs.isEmpty || (base == 10 && cs.length > mostDigits) then none
  cs.foldlM (fun n c => ((digit? c).filter (· < base)).map (base * n + ·)) 0

def signed (negative : Bool) (n : Nat) : Int := if negative then -(n : Int) else n

def int? (base : Nat) (cs : List Char) : Option Int :=
  let (negative, cs) := cutSign (Text.trim isMargin cs)
  (digits? base (unmarked base cs)).map (signed negative)

/-! ## Floats -/

def isInfinity (cs : List Char) : Bool := cs == "inf".toList || cs == "infinity".toList

def isNotANumber (cs : List Char) : Bool := cs == "nan".toList

/-- An exponent, or nothing. -/
def exponent? : List Char → Option Int
  | [] => some 0
  | mark :: cs =>
    let (negative, digits) := cutSign cs
    if mark != 'e' || digits.isEmpty then none else (decimal? digits).map (signed negative)

/-- Digits with a point among them or none, and an exponent. -/
def scaled? (negative : Bool) (cs : List Char) : Option Double := do
  let whole := cs.takeWhile Unicode.isDecimal
  let rest := cs.dropWhile Unicode.isDecimal
  let behind := if rest.head? == some '.' then rest.drop 1 else []
  let fraction := behind.takeWhile Unicode.isDecimal
  if whole.isEmpty && fraction.isEmpty then none
  let exponent ← exponent? (if rest.head? == some '.' then behind.dropWhile Unicode.isDecimal else rest)
  return Double.ofDecimal negative (← decimal? (whole ++ fraction)) (exponent - fraction.length)

def float? (cs : List Char) : Option Double := do
  let cs ← unfilled? Unicode.isDecimal false ((Text.trim isMargin cs).map Char.toLower)
  let (negative, cs) := cutSign cs
  if isInfinity cs then return .infinite negative
  if isNotANumber cs then return .nan
  scaled? negative cs

end ClientBindings.Numeral

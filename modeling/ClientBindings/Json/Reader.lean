import ClientBindings.Failure
import ClientBindings.Numeric.Numeral
import ClientBindings.Text.WideUnits

/-! Reading JSON. Besides the standard's grammar the names `NaN`, `Infinity` and `-Infinity` are
numbers; whole numbers stay exact, up to a number of digits, and a repeated key keeps its first place
and takes its last value. -/

namespace ClientBindings.Json

def isBlank (c : Char) : Bool := c == ' ' || c == '\t' || c == '\n' || c == '\r'

def skipBlank (cs : List Char) : List Char := cs.dropWhile isBlank

def isDigit (c : Char) : Bool := c.isDigit

/-- The number that decimal digits spell. -/
def natOfDigits (ds : List Char) : Nat := ds.foldl (fun n d => 10 * n + (d.toNat - 48)) 0

/-! ## Strings -/

def hexCode? (a b c d : Char) : Option Nat := do
  let a ← Percent.hexValue? a
  let b ← Percent.hexValue? b
  let c ← Percent.hexValue? c
  let d ← Percent.hexValue? d
  return ((a * 16 + b) * 16 + c) * 16 + d

def shortEscape? : Char → Option Char
  | '"' => some '"'
  | '\\' => some '\\'
  | '/' => some '/'
  | 'b' => some '\x08'
  | 'f' => some '\x0c'
  | 'n' => some '\n'
  | 'r' => some '\r'
  | 't' => some '\t'
  | _ => none

/-- The second half of a pair, if an escape for one comes next. -/
def lowHalf? : List Char → Option Nat
  | '\\' :: 'u' :: a :: b :: c :: d :: _ => (hexCode? a b c d).filter Surrogate.isLow
  | _ => none

/-- The characters up to the closing quote and the text after it. A pending first half of a pair is
joined with the second. -/
def stringFrom : Option Nat → List Char → Option (List Char × List Char)
  | _, [] => none
  | _, '"' :: cs => some ([], cs)
  | pending, '\\' :: 'u' :: a :: b :: c :: d :: cs => do
    let code ← hexCode? a b c d
    match pending with
    | some high =>
      let (rest, after) ← stringFrom none cs
      return (Char.ofNat (Surrogate.pair high code) :: rest, after)
    | none =>
      if Surrogate.isHigh code && (lowHalf? cs).isSome then stringFrom (some code) cs
      else
        let (rest, after) ← stringFrom none cs
        return (Utf8.charOfCode code :: rest, after)
  | _, '\\' :: c :: cs => do
    let c ← shortEscape? c
    let (rest, after) ← stringFrom none cs
    return (c :: rest, after)
  | _, c :: cs => do
    if c.toNat < 32 || c == '\\' then none
    let (rest, after) ← stringFrom none cs
    return (c :: rest, after)

/-- A string whose opening quote has been read. -/
def string (cs : List Char) : Option (String × List Char) :=
  (stringFrom none cs).map fun (s, after) => (String.ofList s, after)

/-! ## Numbers -/

/-- The digits of a whole part: a zero alone or digits that do not start with zero. -/
def wholeDigits : List Char → Option (List Char × List Char)
  | '0' :: cs => some (['0'], cs)
  | c :: cs => if isDigit c then some (c :: cs.takeWhile isDigit, cs.dropWhile isDigit) else none
  | [] => none

/-- The digits after a point, none if there is no such part. -/
def fractionDigits : List Char → List Char × List Char
  | '.' :: c :: cs =>
    if isDigit c then (c :: cs.takeWhile isDigit, cs.dropWhile isDigit) else ([], '.' :: c :: cs)
  | cs => ([], cs)

def isExponentMark (c : Char) : Bool := c == 'e' || c == 'E'

/-- The exponent, if there is one. -/
def exponentPart (cs : List Char) : Option Int × List Char :=
  match cs with
  | mark :: rest =>
    if !isExponentMark mark then (none, cs) else
    let (negative, ds) : Bool × List Char :=
      match rest with
      | '-' :: ds => (true, ds)
      | '+' :: ds => (false, ds)
      | ds => (false, ds)
    let digits := ds.takeWhile isDigit
    if digits.isEmpty then (none, cs)
    else
      let n : Int := natOfDigits digits
      (some (if negative then -n else n), ds.dropWhile isDigit)
  | [] => (none, cs)

/-- What is there, or the failure of a text that is no JSON. -/
def expect {α : Type} : Option α → Result α
  | some a => return a
  | none => throw .invalidJson

/-- A number without its sign. -/
def unsigned (negative : Bool) (cs : List Char) : Result (Scalar × List Char) := do
  let (whole, cs) ← expect (wholeDigits cs)
  let (fraction, cs) := fractionDigits cs
  let (exponent, cs) := exponentPart cs
  if fraction.isEmpty && exponent.isNone then
    if whole.length > Numeral.mostDigits then throw .badValue
    return (.int (Numeral.signed negative (natOfDigits whole)), cs)
  else
    let scale := exponent.getD 0 - fraction.length
    return (.float (Double.ofDecimal negative (natOfDigits (whole ++ fraction)) scale), cs)

/-! ## Values -/

/-- What follows a word, if the text starts with it. -/
def after? (word : String) (cs : List Char) : Option (List Char) :=
  if word.toList.isPrefixOf cs then some (cs.drop word.length) else none

def words : List (String × Scalar) :=
  [("null", .null), ("true", .bool true), ("false", .bool false), ("NaN", .float .nan),
   ("Infinity", .float (.infinite false)), ("-Infinity", .float (.infinite true))]

def word? (cs : List Char) : Option (Scalar × List Char) :=
  words.findSome? fun (word, s) => (after? word cs).map (s, ·)

def plain (cs : List Char) : Result (Scalar × List Char) :=
  match word? cs, cs with
  | some found, _ => return found
  | none, '-' :: cs => unsigned true cs
  | none, cs => unsigned false cs

mutual
/-- A value at the front of a text and what follows it. -/
def value : Nat → List Char → Result (Data × List Char)
  | 0, _ => throw .invalidJson
  | fuel + 1, cs =>
    match cs with
    | '"' :: cs => do
      let (s, after) ← expect (string cs)
      return (.str s, after)
    | '[' :: cs =>
      match skipBlank cs with
      | ']' :: after => return (.list [], after)
      | cs => do
        let (xs, after) ← items fuel cs
        return (.list xs, after)
    | '\x7b' :: cs =>
      match skipBlank cs with
      | '\x7d' :: after => return (.map [], after)
      | cs => do
        let (es, after) ← members fuel cs
        return (.map (Entries.ofList Scalar.same es), after)
    | cs => do
      let (s, after) ← plain cs
      return (.scalar s, after)
def items : Nat → List Char → Result (List Data × List Char)
  | 0, _ => throw .invalidJson
  | fuel + 1, cs => do
    let (x, cs) ← value fuel cs
    match skipBlank cs with
    | ',' :: cs =>
      let (xs, after) ← items fuel (skipBlank cs)
      return (x :: xs, after)
    | ']' :: after => return ([x], after)
    | _ => throw .invalidJson
def members : Nat → List Char → Result (List (Scalar × Data) × List Char)
  | 0, _ => throw .invalidJson
  | fuel + 1, cs =>
    match cs with
    | '"' :: cs => do
      let (key, cs) ← expect (string cs)
      match skipBlank cs with
      | ':' :: cs =>
        let (v, cs) ← value fuel (skipBlank cs)
        match skipBlank cs with
        | ',' :: cs =>
          let (es, after) ← members fuel (skipBlank cs)
          return ((.str key, v) :: es, after)
        | '\x7d' :: after => return ([(.str key, v)], after)
        | _ => throw .invalidJson
      | _ => throw .invalidJson
    | _ => throw .invalidJson
end

/-- The value of a text that holds one and nothing else. -/
def parse (text : String) : Result Data := do
  let cs := text.toList
  let (v, after) ← value (2 * cs.length + 2) (skipBlank cs)
  if (skipBlank after).isEmpty then return v else throw .invalidJson

end ClientBindings.Json

import ClientBindings.Numeric.Numeral
import ClientBindings.Wire.Text

/-! Values as JSON text. Forms of JSON differ in how numbers and keys are written and in the white
space behind separators; values that are neither scalars nor containers have no JSON text. -/

namespace ClientBindings.Wire

structure JsonForm where
  number : Double → Result (List Char)
  key : Value → Result (List Char)
  /-- White space behind commas and colons. -/
  gap : List Char

namespace JsonForm

def integer (n : Int) : Result (List Char) :=
  Result.guarded (Numeral.isShort n) (toString n).toList

/-- The text of a scalar; bytes and moments have none. -/
def scalar (f : JsonForm) : Scalar → Result (List Char)
  | .null => return "null".toList
  | .bool true => return "true".toList
  | .bool false => return "false".toList
  | .int n => integer n
  | .float x => f.number x
  | .str s => return Quoted.json s.toList
  | .bytes _ | .moment _ => throw .wrongKind

/-- Keys in strict JSON are scalars, written as texts. -/
def strictKey (number : Double → Result (List Char)) : Value → Result (List Char)
  | .scalar s => do
    let text ← scalar ⟨number, fun _ => throw .wrongKind, []⟩ s
    return if s.isStr then text else Quoted.json text
  | _ => throw .wrongKind

/-- Numbers as browsers write them, `null` for those that are not finite, and any key as its text. -/
def browser : JsonForm where
  number x := return if x.isFinite then NumberFormat.wire.chars x else "null".toList
  key k := return Quoted.json (← stringify k).toList
  gap := []

def finiteNumber (x : Double) : Result (List Char) :=
  if x.isFinite then return NumberFormat.source.chars x else throw .badValue

/-- Request bodies: numbers in source form, which have to be finite. -/
def body : JsonForm := ⟨finiteNumber, strictKey finiteNumber, []⟩

/-- Numbers that JSON lacks, by the names that readers know. -/
def namedNumber (x : Double) : Result (List Char) :=
  match x with
  | .nan => return "NaN".toList
  | .infinite negative => return NumberFormat.sign negative ++ "Infinity".toList
  | .finite .. => return NumberFormat.source.chars x

/-- JSON for people, with blanks behind separators. -/
def spaced : JsonForm := ⟨namedNumber, strictKey namedNumber, [' ']⟩

def enclosed (f : JsonForm) (opening closing : Char) (parts : List (List Char)) : List Char :=
  opening :: (Text.join (',' :: f.gap) parts ++ [closing])

mutual
def chars (f : JsonForm) : Value → Result (List Char)
  | .scalar s => f.scalar s
  | .list xs | .tuple xs => return f.enclosed '[' ']' (← itemChars f xs)
  | .map es => return f.enclosed '\x7b' '\x7d' (← entryChars f es)
  | _ => throw .wrongKind
def itemChars (f : JsonForm) : List Value → Result (List (List Char))
  | [] => return []
  | x :: xs => do
    let item ← chars f x
    return item :: (← itemChars f xs)
def entryChars (f : JsonForm) : List (Value × Value) → Result (List (List Char))
  | [] => return []
  | (k, v) :: es => do
    let key ← f.key k
    let item ← chars f v
    return (key ++ ':' :: (f.gap ++ item)) :: (← entryChars f es)
end

def text (f : JsonForm) (v : Value) : Result String := return String.ofList (← f.chars v)

end JsonForm

/-- Compact JSON as browsers write it. -/
def toJson (v : Value) : Result String := JsonForm.browser.text v

end ClientBindings.Wire

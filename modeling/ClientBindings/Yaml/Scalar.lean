import ClientBindings.Failure
import ClientBindings.Numeric.Arithmetic
import ClientBindings.Numeric.Numeral
import ClientBindings.Text.Base64
import ClientBindings.Yaml.Plain

/-! The value that a text has under a tag. The tag may have been told by the spelling or given, so that
any text can stand under it. -/

namespace ClientBindings.Yaml

/-- The truth value of a word, however it is capitalised. -/
def boolOf (text : String) : Result Bool :=
  let word := text.toLower
  if trueWords.contains word then return true
  else if falseWords.contains word then return false
  else throw .missingKey

/-- The value of groups in base sixty, the last of them counting ones. -/
def sixtieths (groups : List Int) : Int := groups.foldl (fun n group => 60 * n + group) 0

def wholeNumber (base : Nat) (cs : List Char) : Result Int :=
  match Numeral.int? base cs with
  | some n => return n
  | none => throw .badValue

/-- The integer that a text without fillers and without its sign spells: behind `0b` in base two, behind
`0x` in base sixteen, behind a zero in base eight, else in base ten or sixty. -/
def unsignedInt (cs : List Char) : Result Int :=
  match cs with
  | [] => throw .outOfRange
  | ['0'] => return 0
  | '0' :: 'b' :: rest => wholeNumber 2 rest
  | '0' :: 'x' :: rest => wholeNumber 16 rest
  | '0' :: _ => wholeNumber 8 cs
  | _ => return sixtieths (← (Text.splitOn ':' cs).mapM (wholeNumber 10))

def withoutFillers (text : String) : List Char := text.toList.filter (!isFiller ·)

def intOf (text : String) : Result Int := do
  let cs := withoutFillers text
  let (negative, body) := Numeral.cutSign cs
  if cs.isEmpty then throw .outOfRange
  let n ← unsignedInt body
  return if negative then -n else n

/-- An integer as the float next to it, which has to be finite. -/
def nearest (n : Int) : Result Double :=
  let x := Double.ofInt n
  if x.isFinite then return x else throw .tooLarge

/-- The sum of groups in base sixty, the last of them counting ones. Each product and sum is rounded,
starting from the last group. -/
def roundedSixtieths (groups : List Double) : Result Double := do
  let step (acc : Double × Int) (group : Double) : Result (Double × Int) := do
    return (acc.1.add (group.mul (← nearest acc.2)), 60 * acc.2)
  return (← groups.reverse.foldlM step (.zero false, 1)).1

def float (cs : List Char) : Result Double :=
  match Numeral.float? cs with
  | some x => return x
  | none => throw .badValue

def unsignedFloat (cs : List Char) : Result Double := do
  if cs == ".inf".toList then return .infinite false
  if cs == ".nan".toList then return .nan
  if cs.contains ':' then return ← roundedSixtieths (← (Text.splitOn ':' cs).mapM float)
  float cs

def floatOf (text : String) : Result Double := do
  let cs := (withoutFillers text).map Char.toLower
  let (negative, body) := Numeral.cutSign cs
  if cs.isEmpty then throw .outOfRange
  let x ← unsignedFloat body
  return if negative then x.negate else x

/-- The bytes that base 64 spells, which is written in ASCII. -/
def bytesOf (text : String) : Result (List UInt8) :=
  let cs := text.toList
  match if cs.all Percent.isAscii then Base64.decode? cs else none with
  | some bytes => return bytes
  | none => throw .invalidYaml

def momentOf (text : String) : Result Moment :=
  match Moment.parse? (withoutEnd text).toList with
  | none => throw .noMember
  | some m => if m.isValid then return m else throw .badValue

/-- The value of a text under a tag for texts. -/
def Tag.read (tag : Tag) (text : String) : Result Scalar := do
  match tag with
  | .null => return .null
  | .bool => return .bool (← boolOf text)
  | .int => return .int (← intOf text)
  | .float => return .float (← floatOf text)
  | .str => return .str text
  | .binary => return .bytes (← bytesOf text)
  | .timestamp => return .moment (← momentOf text)
  | _ => throw .invalidYaml

end ClientBindings.Yaml

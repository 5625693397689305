import ClientBindings.Yaml.Moment
import ClientBindings.Yaml.Tag

/-! The tag of a text that has none: its spelling tells whether it is a truth value, a number, a moment,
null, or a text like any other. A line end behind the text does not count. -/

namespace ClientBindings.Yaml

def trueWords : List String := ["yes", "Yes", "YES", "true", "True", "TRUE", "on", "On", "ON"]

def falseWords : List String := ["no", "No", "NO", "false", "False", "FALSE", "off", "Off", "OFF"]

def nullWords : List String := ["~", "null", "Null", "NULL"]

def infinityWords : List String := [".inf", ".Inf", ".INF"]

def nanWords : List String := [".nan", ".NaN", ".NAN"]

/-- Marks of YAML that stand alone denote nothing. -/
def loneMarks : List String := ["!", "&", "*"]

def isFiller (c : Char) : Bool := c == '_'

def withoutSign (cs : List Char) : List Char :=
  match cs with
  | '-' :: rest | '+' :: rest => rest
  | _ => cs

def isDigitOrFiller (c : Char) : Bool := c.isDigit || isFiller c

def isHexDigit (c : Char) : Bool := (Percent.hexValue? c).isSome

/-- Digits or fillers of a base, at least one of them. -/
def areDigits (isDigit : Char → Bool) (cs : List Char) : Bool :=
  !cs.isEmpty && cs.all fun c => isDigit c || isFiller c

/-- A group behind a colon: below sixty and of at most two digits. -/
def isSixtieth (cs : List Char) : Bool :=
  match cs with
  | [a] => a.isDigit
  | [a, b] => '0' ≤ a && a ≤ '5' && b.isDigit
  | _ => false

/-- A digit, and then digits and fillers. -/
def isWhole (cs : List Char) : Bool :=
  match cs with
  | c :: rest => c.isDigit && rest.all isDigitOrFiller
  | [] => false

/-- Several groups between colons, the first of which is a whole number. -/
def isSexagesimal (cs : List Char) : Bool :=
  match Text.splitOn ':' cs with
  | first :: second :: rest => isWhole first && (second :: rest).all isSixtieth
  | _ => false

def isUnsignedInt (cs : List Char) : Bool :=
  match cs with
  | '0' :: 'b' :: rest => areDigits (fun c => c == '0' || c == '1') rest
  | '0' :: 'x' :: rest => areDigits isHexDigit rest
  | '0' :: rest => rest.all fun c => ('0' ≤ c && c ≤ '7') || isFiller c
  | _ => isWhole cs || isSexagesimal cs

/-- An exponent with its sign, or nothing. -/
def isExponent : List Char → Bool
  | [] => true
  | mark :: sign :: digits =>
    (mark == 'e' || mark == 'E') && (sign == '-' || sign == '+') && !digits.isEmpty && digits.all Char.isDigit
  | _ => false

/-- What may follow a point: digits, fillers and an exponent. -/
def isFraction (cs : List Char) : Bool := isExponent (cs.dropWhile isDigitOrFiller)

def isUnsignedFloat (cs : List Char) : Bool :=
  let (whole, fraction) := Text.cut '.' cs
  whole.length < cs.length
    && ((isWhole whole && isFraction fraction) || (isSexagesimal whole && fraction.all isDigitOrFiller))

/-- A number that starts with its point has no sign. -/
def isPointed (cs : List Char) : Bool :=
  match cs with
  | '.' :: c :: rest => c.isDigit && isFraction rest
  | _ => false

def isFloat (cs : List Char) : Bool :=
  isUnsignedFloat (withoutSign cs) || isPointed cs
    || infinityWords.contains (String.ofList (withoutSign cs)) || nanWords.contains (String.ofList cs)

/-- A text without a line end behind it. -/
def withoutEnd (text : String) : String :=
  let cs := text.toList
  if cs.getLast? == some '\n' then String.ofList cs.dropLast else text

/-- The tag that a spelling tells. -/
def Tag.ofSpelling (text : String) : Tag :=
  let word := withoutEnd text
  let cs := word.toList
  if text.isEmpty || nullWords.contains word then .null
  else if trueWords.contains word || falseWords.contains word then .bool
  else if isFloat cs then .float
  else if isUnsignedInt (withoutSign cs) then .int
  else if word == "<<" then .merge
  else if Moment.isEvident cs then .timestamp
  else if word == "=" then .value
  else if loneMarks.contains word then .unknown
  else .str

end ClientBindings.Yaml

import ClientBindings.Unicode.Identifier
import ClientBindings.Text.Words

/-! Identifiers of the generated language: which texts are names, which names are taken by the
language, and how any text is turned into a name. -/

namespace ClientBindings.Identifier

open Text

def keywords : List String :=
  ["False", "None", "True", "and", "as", "assert", "async", "await", "break", "class", "continue",
   "def", "del", "elif", "else", "except", "finally", "for", "from", "global", "if", "import", "in",
   "is", "lambda", "nonlocal", "not", "or", "pass", "raise", "return", "try", "while", "with", "yield"]

/-- Words with a meaning in some places only; generated modules do not use them as names. -/
def softKeywords : List String := ["match", "case", "type", "_"]

def isKeyword (name : String) : Bool := keywords.contains name

def isReserved (name : String) : Bool := isKeyword name || softKeywords.contains name

/-- Whether the text has the shape of an identifier. -/
def hasShape : List Char → Bool
  | [] => false
  | c :: cs => Unicode.isIdentifierStart c && cs.all Unicode.isIdentifierPart

def isValid (name : String) : Bool := hasShape name.toList && !isKeyword name

/-- A reserved word gets a trailing low line. -/
def escape (name : String) : String := if isReserved name then name ++ "_" else name

def isWordChar (c : Char) : Bool := c.isAlphanum || c == '_'

/-- Everything outside ASCII letters, digits and the low line becomes a low line. -/
def simplify (cs : List Char) : List Char := cs.map fun c => if isWordChar c then c else '_'

/-- A leading digit gets a low line in front. -/
def guardDigit : List Char → List Char
  | [] => []
  | c :: cs => if c.isDigit then '_' :: c :: cs else c :: cs

/-- The nearest identifier to a text; empty only for the empty text. -/
def normalize (name : String) : String := escape (onChars (fun cs => guardDigit (simplify cs)) name)

/-- One low line for every run of them. -/
def squeeze : List Char → List Char
  | a :: b :: cs => if a == '_' && b == '_' then squeeze (b :: cs) else a :: squeeze (b :: cs)
  | cs => cs

def functionName (name : String) : String :=
  normalize (onChars (fun cs => squeeze (snakeCase (simplify cs))) name)

def className (name : String) : String := normalize (onChars (fun cs => pascalCase (simplify cs)) name)

end ClientBindings.Identifier

import ClientBindings.Unicode.Casing
import ClientBindings.Text.Chars

/-! Names as sequences of words: the cuts at capitals and delimiters, and the usual spellings. -/

namespace ClientBindings.Text

/-- Hyphens, dots and white space stand between words as low lines do. -/
def isDelimiter (c : Char) : Bool := c == '-' || c == '.' || Unicode.isBlank c

/-- Cuts an acronym before the capital that starts the next word. -/
def cutAcronyms : List Char → List Char
  | a :: b :: c :: cs =>
    if a.isUpper && b.isUpper && c.isLower then a :: '_' :: b :: c :: cutAcronyms cs
    else a :: cutAcronyms (b :: c :: cs)
  | cs => cs

/-- Cuts between a small letter or digit and a capital. -/
def cutCapitals : List Char → List Char
  | a :: b :: cs =>
    if (a.isLower || a.isDigit) && b.isUpper then a :: '_' :: cutCapitals (b :: cs)
    else a :: cutCapitals (b :: cs)
  | cs => cs

def snakeCase (cs : List Char) : List Char :=
  Unicode.lower (cutCapitals (cutAcronyms (cs.map fun c => if isDelimiter c then '_' else c)))

def pascalCase (cs : List Char) : List Char :=
  (splitOn '_' (snakeCase cs)).flatMap Unicode.capitalize

def camelCase (cs : List Char) : List Char :=
  match (splitOn '_' (snakeCase cs)).filter (!·.isEmpty) with
  | [] => []
  | word :: words => word ++ words.flatMap Unicode.capitalize

end ClientBindings.Text

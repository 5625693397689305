import ClientBindings.Numeric.NumberFormat
import ClientBindings.Numeric.Numeral
import ClientBindings.Text.Quoted
import ClientBindings.Text.Chars
import ClientBindings.Data.Basic

/-! How document values are shown inside messages and as text: `None`, `True`, quoted texts, numbers
in source form, lists in brackets and mappings in braces. Integers of too many digits are not shown: what
holds one has no text. -/

namespace ClientBindings

namespace Scalar

def shownChars : Scalar → List Char
  | .null => "None".toList
  | .bool true => "True".toList
  | .bool false => "False".toList
  | .int n => (toString n).toList
  | .float x => NumberFormat.source.chars x
  | .str s => Quoted.shown s.toList
  | .bytes bs => Quoted.shownBytes bs
  | .moment m => m.shownChars

def shown (s : Scalar) : String := String.ofList s.shownChars

/-- A text as it is, a moment in its standard form, anything else as shown. -/
def text : Scalar → String
  | .str s => s
  | .moment m => String.ofList m.chars
  | s => s.shown

/-- Whether a scalar has a text. -/
def isSpellable : Scalar → Bool
  | .int n => Numeral.isShort n
  | _ => true

end Scalar

namespace Data

def commaJoin (parts : List (List Char)) : List Char := Text.join [',', ' '] parts

mutual
def shownChars : Data → List Char
  | .scalar s => s.shownChars
  | .list items => '[' :: (commaJoin (shownItems items) ++ [']'])
  | .tuple [x] => '(' :: (shownChars x ++ [',', ')'])
  | .tuple items => '(' :: (commaJoin (shownItems items) ++ [')'])
  | .map entries => '\x7b' :: (commaJoin (shownEntries entries) ++ ['\x7d'])
def shownItems : List Data → List (List Char)
  | [] => []
  | x :: xs => shownChars x :: shownItems xs
def shownEntries : List (Scalar × Data) → List (List Char)
  | [] => []
  | (k, v) :: es => (k.shownChars ++ ':' :: ' ' :: shownChars v) :: shownEntries es
end

def shown (d : Data) : String := String.ofList d.shownChars

def text : Data → String
  | .scalar s => s.text
  | d => d.shown

mutual
/-- Whether all that a value holds has a text. -/
def isSpellable : Data → Bool
  | .scalar s => s.isSpellable
  | .list items | .tuple items => areSpellable items
  | .map entries => holdSpellable entries
def areSpellable : List Data → Bool
  | [] => true
  | x :: xs => isSpellable x && areSpellable xs
def holdSpellable : List (Scalar × Data) → Bool
  | [] => true
  | (k, v) :: es => k.isSpellable && (isSpellable v && holdSpellable es)
end

end Data
end ClientBindings

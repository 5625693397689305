import ClientBindings.Wire.Value

/-! Values as literals of the generated language: texts in double quotes, anything else as shown. What has no text
has no literal. -/

namespace ClientBindings.Literal

def quoted (s : String) : String := Text.onChars Quoted.json s

/-- The literal of a scalar that has one. -/
def spelling : Scalar → String
  | .str s => quoted s
  | s => s.shown

def ofScalar (s : Scalar) : Result String := Result.guarded s.isSpellable (spelling s)

/-- The literal of a value that has one. -/
def spellingOf : Data → String
  | .str s => quoted s
  | d => d.shown

def ofData (d : Data) : Result String := Result.guarded d.isSpellable (spellingOf d)

def ofValue : Value → Result String
  | .str s => return quoted s
  | v => v.toText

end ClientBindings.Literal

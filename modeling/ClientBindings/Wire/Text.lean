import ClientBindings.Wire.Value
import ClientBindings.Text.Percent

/-! Values as text on the wire: scalars the way browsers print them, and percent-encoded components. What has
no text is refused. -/

namespace ClientBindings.Wire

def isScalar : Value → Bool
  | .null => false
  | .scalar s => s.isPlain
  | _ => false

def isSequence : Value → Bool
  | .list _ | .tuple _ => true
  | _ => false

/-- Truth values and floats are spelled as in a browser, everything else as shown. -/
def spelling : Value → String
  | .bool true => "true"
  | .bool false => "false"
  | .float x => NumberFormat.wire.text x
  | v => v.text

def stringify (v : Value) : Result String := Result.guarded v.isSpellable (spelling v)

def encode (v : Value) : Result String := return Text.onChars Percent.component (← stringify v)

def encodeEntries (entries : Value.Fields) : Result (List (String × String)) :=
  entries.mapM fun (k, v) => return (← encode k, ← encode v)

end ClientBindings.Wire

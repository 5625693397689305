import ClientBindings.Wire.Value
import ClientBindings.Text.Chars

/-! Joining the parts of a URL. -/

namespace ClientBindings.Wire

def isSlash (c : Char) : Bool := c == '/'

/-- Without the slashes at the end; a line end behind them stays. -/
def trimSlashes (part : List Char) : List Char :=
  if part.getLast? == some '\n' then Text.trimEnd isSlash part.dropLast ++ ['\n'] else Text.trimEnd isSlash part

/-- Parts after the first lose their leading slashes and parts before the last their trailing ones. -/
def trimParts (isFirst : Bool) : List (List Char) → List (List Char)
  | [] => []
  | [part] => [if isFirst then part else part.dropWhile isSlash]
  | part :: rest =>
    let inner := if isFirst then part else part.dropWhile isSlash
    trimSlashes inner :: trimParts false rest

/-- Joins the parts that are there with single slashes, keeping the outer ones. -/
def joinUrl (parts : List (Option String)) : String :=
  let present := (parts.filterMap id).filter (!·.isEmpty)
  String.ofList (Text.join ['/'] (trimParts true (present.map String.toList)))

end ClientBindings.Wire

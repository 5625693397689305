import ClientBindings.Data.Display

/-! Why a computation stops. The first causes tell how a value of a loose kind was misused; the others
belong to one stage each and carry what their message needs. -/

namespace ClientBindings

inductive Failure where
  /-- The value's kind has no such member. -/
  | noMember
  /-- The value's kind does not support the operation. -/
  | wrongKind
  /-- A mapping lacks a required key. -/
  | missingKey
  /-- A position lies outside a sequence. -/
  | outOfRange
  /-- The value's kind fits and the value does not. -/
  | badValue
  /-- An integer is beyond the range of floats. -/
  | tooLarge
  /-- Nesting goes beyond the supported depth. -/
  | tooDeep
  | unresolvedReference (ref : String)
  | unsupportedReference (ref : String)
  | unsupportedVersion (version : Data)
  | invalidSettings (messages : List String)
  | fileNotFound (path : String)
  | isDirectory (path : String)
  | notADirectory (path : String)
  | fileExists (path : String)
  /-- A directory that cannot be removed under the name it is given. -/
  | notRemovable (path : String)
  /-- Bytes that are no text in their encoding. -/
  | undecodable
  /-- A text that its encoding cannot write. -/
  | unencodable
  | invalidUrl
  | httpStatus (status : Nat) (url : String)
  | invalidJson
  | invalidYaml
deriving Repr, Inhabited

namespace Failure

/-- The text shown for a failure; empty where the cause has no words of its own. -/
def message : Failure → String
  | .unresolvedReference ref => "Can't find " ++ ref
  | .unsupportedReference ref =>
    "External refs are not supported (" ++ ref ++ "). Make sure the document is bundled first."
  | .unsupportedVersion version => "Only openapi v3 is supported for now (got " ++ version.shown ++ ")"
  | .invalidSettings messages => "Invalid generator config: " ++ String.intercalate "; " messages
  | _ => ""

end Failure

abbrev Result := Except Failure

/-- A result that is refused unless the condition holds. -/
def Result.guarded {α : Type} (condition : Bool) (a : α) : Result α :=
  if condition then return a else throw .badValue

def Scalar.toText (s : Scalar) : Result String := Result.guarded s.isSpellable s.text

def Data.toText (d : Data) : Result String := Result.guarded d.isSpellable d.text

end ClientBindings

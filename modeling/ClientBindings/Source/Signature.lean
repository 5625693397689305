/-! Parameter lists of generated functions. -/

namespace ClientBindings

structure Argument where
  name : String
  type : String
  required : Bool
deriving DecidableEq, Repr, Inhabited

namespace Argument

/-- Optional arguments default to nothing. -/
def text (a : Argument) : String :=
  a.name ++ ": " ++ a.type ++ (if a.required then "" else " | None = None")

/-- The items of a parameter list, given whether an optional argument came before and whether the mark
did. A required argument behind an optional one can only be passed by name; the mark stands before the
first such argument. -/
def signatureFrom (optionalSeen marked : Bool) : List Argument → List String
  | [] => []
  | a :: rest =>
    let marks := a.required && optionalSeen && !marked
    (if marks then ["*"] else []) ++
      a.text :: signatureFrom (optionalSeen || !a.required) (marked || marks) rest

def signature (arguments : List Argument) : List String := signatureFrom false false arguments

/-- Every argument passed on by name. -/
def forwarded (arguments : List Argument) : String :=
  String.intercalate ", " (arguments.map fun a => a.name ++ "=" ++ a.name)

end Argument
end ClientBindings

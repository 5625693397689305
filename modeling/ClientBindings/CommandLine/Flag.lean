import ClientBindings.Data.Display
import ClientBindings.Unicode.Digit

/-! The flags of the command line and how an argument is read as one of them. Long flags may be cut
short as long as they stay unique; short flags may be run together and have their value attached. -/

namespace ClientBindings.CommandLine

inductive Flag where
  | help | config | name | only | without | output | package | templates | verbose
deriving DecidableEq, Repr, Inhabited

namespace Flag

def all : List Flag := [.help, .config, .name, .only, .without, .output, .package, .templates, .verbose]

def spellings : Flag → List String
  | .help => ["-h", "--help"]
  | .config => ["--config", "-c"]
  | .name => ["--name", "-n"]
  | .only => ["--include"]
  | .without => ["--exclude"]
  | .output => ["--output", "-o"]
  | .package => ["--package-name", "-p"]
  | .templates => ["--template-dir", "-t"]
  | .verbose => ["--verbose", "-v"]

def takesValue : Flag → Bool
  | .help | .verbose => false
  | _ => true

/-- A message about a flag. -/
def complaint (f : Flag) (text : String) : String :=
  "argument " ++ String.intercalate "/" f.spellings ++ ": " ++ text

def noValue (f : Flag) : String := f.complaint "expected one argument"

def ignored (f : Flag) (value : List Char) : String :=
  f.complaint ("ignored explicit argument " ++ (Data.str (String.ofList value)).shown)

/-- Every spelling with its flag. -/
def table : List (List Char × Flag) := all.flatMap fun f => f.spellings.map fun s => (s.toList, f)

def named? (spelling : List Char) : Option Flag := table.lookup spelling

end Flag

/-- What an argument is on its own. -/
inductive Word where
  | value (text : String)
  /-- Two dashes: no argument behind them is a flag. -/
  | divider
  /-- A flag, perhaps with a text behind a sign of equality or, if it is short, right behind its letter. -/
  | flag (f : Flag) (isShort : Bool) (attached : Option (List Char))
  | unknown (text : String)
deriving DecidableEq, Repr

namespace Word

/-- Digits with a dash in front, and perhaps a point among them; a line end behind is tolerated. -/
def isNegativeNumber (cs : List Char) : Bool :=
  match if cs.getLast? == some '\n' then cs.dropLast else cs with
  | '-' :: rest =>
    let behind := rest.dropWhile Unicode.isDecimal
    match behind with
    | [] => !rest.isEmpty
    | '.' :: fraction => !fraction.isEmpty && fraction.all Unicode.isDecimal
    | _ => false
  | _ => false

/-- The long flags that an argument may be short for. -/
def candidates (stem : List Char) : List (List Char × Flag) :=
  Flag.table.filter fun e => stem.isPrefixOf e.1

def attachedIn (cs : List Char) : Option (List Char) :=
  if cs.contains '=' then some (Text.cut '=' cs).2 else none

def shown (names : List (List Char × Flag)) : String :=
  String.intercalate ", " (names.map fun e => String.ofList e.1)

/-- An argument that begins with a dash and is no flag as it stands. -/
def ofUnlisted (text : String) : Word :=
  let cs := text.toList
  if isNegativeNumber cs || cs.contains ' ' then .value text else .unknown text

/-- Reads one argument in front of any divider. -/
def ofText (text : String) : Except String Word :=
  let cs := text.toList
  match cs with
  | '-' :: mark :: rest =>
    match Flag.named? cs with
    | some f => return .flag f (mark != '-') none
    | none =>
      let stem := (Text.cut '=' cs).1
      match if cs.contains '=' then Flag.named? stem else none with
      | some f => return .flag f (mark != '-') (attachedIn cs)
      | none =>
        if mark != '-' then
          match Flag.named? ['-', mark] with
          | some f => return .flag f true (some rest)
          | none => return ofUnlisted text
        else match candidates stem with
          | [] => return ofUnlisted text
          | [(_, f)] => return .flag f false (attachedIn cs)
          | several => throw ("ambiguous option: " ++ text ++ " could match " ++ shown several)
  | _ => return .value text

/-- Reads all arguments. -/
def ofTexts : List String → Except String (List Word)
  | [] => return []
  | "--" :: rest => return .divider :: rest.map .value
  | text :: rest => return (← ofText text) :: (← ofTexts rest)

end Word
end ClientBindings.CommandLine

import ClientBindings.CommandLine.Flag
import ClientBindings.Document.Location
import ClientBindings.Settings.Item

/-! The options that arguments stand for. -/

namespace ClientBindings.CommandLine

structure Options where
  /-- Where the document is, if one is given. -/
  spec : Option String := none
  config : Option String := none
  name : String := "api"
  only : Option (List String) := none
  without : Option (List String) := none
  output : String := "generated"
  package : String := "api_client"
  templates : Option String := none
  verbose : Bool := false
deriving DecidableEq, Repr, Inhabited

/-- What keeps arguments from being options. -/
inductive Refusal where
  | help
  | usage (message : String)
deriving DecidableEq, Repr

/-- Options while arguments are read. -/
structure Reading where
  options : Options := {}
  /-- Whether the place of the document is filled, be it by nothing. -/
  placed : Bool := false
  helped : Bool := false
  /-- Arguments that nothing asks for. -/
  extra : List String := []
deriving Repr

namespace Reading

def tidy (path : String) : String := Text.onChars Location.tidyPath path

def add (list : Option (List String)) (value : String) : Option (List String) := some (list.getD [] ++ [value])

/-- What a flag sets; the value counts only for flags that take one. -/
def set (r : Reading) (f : Flag) (value : String) : Reading :=
  let o := r.options
  { r with helped := r.helped || f == .help, options := match f with
    | .config => { o with config := some (tidy value) }
    | .name => { o with name := value }
    | .only => { o with only := add o.only value }
    | .without => { o with without := add o.without value }
    | .output => { o with output := tidy value }
    | .package => { o with package := value }
    | .templates => { o with templates := some (tidy value) }
    | .verbose => { o with verbose := true }
    | .help => o }

def place (r : Reading) (spec : Option String) : Reading :=
  { r with options := { r.options with spec }, placed := true }

def addExtra (r : Reading) (text : String) : Reading := { r with extra := r.extra ++ [text] }

/-- The flags in one argument, with the value of the last one if the argument holds it. What follows a
short flag without a value has to be short flags again. The first part of the answer is the flag whose
value is still to come. -/
def unfold (f : Flag) (isShort : Bool) (attached : Option (List Char)) (r : Reading) :
    Except Refusal (Option Flag × Reading) :=
  match attached with
  | none => return if f.takesValue then (some f, r) else (none, r.set f "")
  | some text =>
    if f.takesValue then return (none, r.set f (String.ofList text)) else
    match text with
    | [] => throw (.usage (f.ignored []))
    | c :: rest =>
      match if isShort then Flag.named? ['-', c] else none with
      | none => throw (.usage (f.ignored (c :: rest)))
      | some g => unfold g true (if rest.isEmpty then none else some rest) (r.set f "")
termination_by (attached.map fun cs => cs.length + 1).getD 0
decreasing_by
  split <;> simp

/-- Stops as soon as help is asked for. -/
def orHelp (r : Reading) : Except Refusal Reading := if r.helped then throw .help else return r

/-- Reads words in order. The first value fills the place of the document. -/
def read : List Word → Reading → Except Refusal Reading
  | [], r => return r
  | .value text :: rest, r =>
    if r.placed then read rest (r.addExtra text) else
    match rest with
    | .divider :: rest => read rest (r.place (some text))
    | rest => read rest (r.place (some text))
  | .divider :: rest, r =>
    if r.placed then read rest (r.addExtra "--") else
    match rest with
    | .value text :: rest => read rest (r.place (some text))
    | rest => read rest (r.place none)
  | .unknown text :: rest, r => read rest (r.addExtra text)
  | .flag f isShort attached :: rest, r => do
    match ← unfold f isShort attached r with
    | (none, r) => read rest (← r.orHelp)
    | (some f, r) =>
      match rest with
      | .value text :: rest => read rest (← (r.set f text).orHelp)
      | _ => throw (.usage f.noValue)
termination_by words => words.length

end Reading

namespace Options

def defaultConfig : String := ".py-oas-generator.json"

/-- Whether a document is named; the empty text names none. -/
def hasSpec (o : Options) : Bool := o.spec.any fun s => !s.isEmpty

/-- Either a document or settings have to be given; settings may lie where they are expected. -/
def settle (o : Options) (hasDefault : Bool) : Except Refusal Options :=
  if o.hasSpec then
    if o.config.isSome then throw (.usage "SPEC and --config are mutually exclusive") else return o
  else if o.config.isSome then return o
  else if hasDefault then return { o with config := some defaultConfig }
  else throw (.usage ("Either SPEC or --config is required (no ./" ++ defaultConfig ++ " found)"))

def parse (arguments : List String) (hasDefault : Bool) : Except Refusal Options := do
  let words ← (Word.ofTexts arguments).mapError .usage
  let r ← Reading.read words {}
  if !r.extra.isEmpty then
    throw (.usage ("unrecognized arguments: " ++ String.intercalate " " r.extra))
  r.options.settle hasDefault

/-- The module to generate from the document. -/
def item (o : Options) : Item := ⟨o.name, o.spec.getD "", o.only, o.without⟩

end Options
end ClientBindings.CommandLine

import ClientBindings.Text.Chars

/-! Placeholders in paths: names in braces. Only the first opening brace that can be closed around a
name counts, so a name may hold further opening braces. -/

namespace ClientBindings.Placeholder

/-- A path cut at its first placeholder. -/
structure Cut where
  head : List Char
  name : List Char
  rest : List Char
deriving DecidableEq, Repr

/-- The first placeholder: its name is not empty and ends at the first closing brace after that. -/
def first? (cs : List Char) : Option Cut :=
  match cs.span (· != '\x7b') with
  | (head, _ :: c :: tail) =>
    match tail.span (· != '\x7d') with
    | (name, _ :: rest) => some ⟨head, c :: name, rest⟩
    | _ => none
  | _ => none

/-- The literal text up to the next opening brace. A line end that closes the whole path does not
belong to it. -/
def literal (cs : List Char) : List Char × List Char :=
  match cs.span (· != '\x7b') with
  | (text, []) =>
    match text.reverse with
    | '\n' :: front => (front.reverse, ['\n'])
    | _ => (text, [])
  | cut => cut

/-- The text outside all placeholders and literals, and each placeholder's name with the literal text
behind it. Every placeholder takes characters, so as many rounds as there are characters suffice. -/
def scanFor : Nat → List Char → List Char × List (String × String)
  | 0, cs => (cs, [])
  | rounds + 1, cs =>
    match first? cs with
    | none => (cs, [])
    | some cut =>
      let (text, rest) := literal cut.rest
      let (head, spans) := scanFor rounds rest
      (cut.head ++ head, (String.ofList cut.name, String.ofList text) :: spans)

def scan (path : String) : String × List (String × String) :=
  let (head, spans) := scanFor path.length path.toList
  (String.ofList head, spans)

end ClientBindings.Placeholder

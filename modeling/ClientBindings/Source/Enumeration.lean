import ClientBindings.Source.Draft
import ClientBindings.Source.Literal

/-! Declarations of enumerations. Names that an enumeration cannot have for its members are altered. -/

namespace ClientBindings.EnumDeclaration

/-- Names that are refused, dropped or altered when they name a member. -/
def isReserved (className name : String) : Bool :=
  let cs := name.toList
  cs.isEmpty || name == "mro" || name.startsWith "__" || name.startsWith ("_" ++ className ++ "__")
    || (cs.length > 2 && cs.head? == some '_' && cs.getLast? == some '_')

/-- A reserved name in a form that is allowed: one low line in front, and no doubled ones. -/
def altered (name : String) : String :=
  let parts := (Text.splitOn '_' (Identifier.normalize name).toList).filter (!·.isEmpty)
  String.ofList ('_' :: Text.join ['_'] parts)

def allowedName (className name : String) : String :=
  if isReserved className name then altered name else name

/-- The members without later ones of the same name. -/
def distinct (members : List EnumMember) : List EnumMember :=
  members.foldl (fun kept m => if kept.any fun k => k.name == m.name then kept else kept ++ [m]) []

/-- Names and literals of members, no name being used twice. -/
def namedMembers (className : String) (members : List EnumMember) : List (String × String) :=
  (members.foldl (fun (acc : List (String × String)) m =>
    let name := freshName (acc.map Prod.fst) (allowedName className m.name)
    acc ++ [(name, Literal.spelling m.value)]) [])

def ofMembers (name : String) (members : List EnumMember) (doc : Data) : EnumDeclaration :=
  let named := namedMembers name (distinct members)
  { name, members := named, isText := isTextEnumeration members, doc
    functional := !named.all fun m => Identifier.isValid m.1 }

/-- The enumeration of members whose values have literals. -/
def declared (name : String) (members : List EnumMember) (doc : Data) : Result EnumDeclaration :=
  Result.guarded ((distinct members).all fun m => m.value.isSpellable) (ofMembers name members doc)

end ClientBindings.EnumDeclaration

import ClientBindings.Binding.Style

/-! Calls that generated functions make, kept as data: a styled argument, an awaited token, a query
string of several of them, and the URL they are put into. -/

namespace ClientBindings

/-- A member of an argument, written in a style. -/
structure StyledMember where
  style : Scalar
  name : Data
  /-- The argument that holds the member. -/
  source : String
  explode : Bool := false
  required : Bool := false
deriving Repr

namespace StyledMember

/-- Whether the name of the member is passed along; an unknown style is taken to need it. -/
def isNamed (m : StyledMember) : Bool :=
  !(Wire.Style.all.any fun s => !s.isNamed && m.style.same (.str s.name))

/-- Deep objects have one layout only. -/
def passesExplode (m : StyledMember) : Bool := m.explode && !m.style.same (.str Wire.Style.deep.name)

end StyledMember

/-- The token of a security scheme, styled if it goes into the query. -/
structure TokenCall where
  security : Scalar
  style : Option String := none
  parameter : Data := .null
deriving Repr

inductive Call where
  | member (m : StyledMember)
  | token (t : TokenCall)
deriving Repr

/-- What a URL has in place of literal text. -/
inductive UrlCall where
  | member (m : StyledMember)
  | query (parts : List Call)
deriving Repr

structure UrlSpan where
  call : UrlCall
  /-- The literal text that follows. -/
  literal : String := ""
deriving Repr

structure UrlTemplate where
  head : String
  spans : List UrlSpan := []
deriving Repr

namespace UrlTemplate

def isLiteral (t : UrlTemplate) : Bool := t.spans.isEmpty

end UrlTemplate

/-- A header and the call that yields its value. -/
structure HeaderCall where
  key : Data
  call : Call
deriving Repr

end ClientBindings

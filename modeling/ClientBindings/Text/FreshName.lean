/-! Names that are still free: the name itself, or the name with the least number from two on. -/

namespace ClientBindings

def numbered (name : String) (n : Nat) : String := name ++ toString (n + 2)

/-- Among the name and one numbered name more than there are taken ones, at least one is free. -/
def freshName (taken : List String) (name : String) : String :=
  if !taken.contains name then name else
  (((List.range (taken.length + 1)).map (numbered name)).find? fun c => !taken.contains c).getD name

end ClientBindings

/-! Sets of characters as sorted lists of bounds: a code is inside when an odd number of bounds is at
most the code. -/

namespace ClientBindings.Unicode.InversionList

def contains : List Nat → Nat → Bool
  | [], _ => false
  | [first], c => first ≤ c
  | first :: past :: rest, c => if c < first then false else if c < past then true else contains rest c

end ClientBindings.Unicode.InversionList

import ClientBindings.Unicode.Blank

/-! Operations on texts as lists of characters. -/

namespace ClientBindings.Text

/-- The pieces between occurrences of a character; never none. -/
def splitOn (mark : Char) : List Char → List (List Char)
  | [] => [[]]
  | c :: cs =>
    if c = mark then [] :: splitOn mark cs
    else match splitOn mark cs with
      | [] => [[c]]
      | piece :: pieces => (c :: piece) :: pieces

def join (separator : List Char) (pieces : List (List Char)) : List Char := separator.intercalate pieces

def trimEnd {α : Type} (drop : α → Bool) (xs : List α) : List α := (xs.reverse.dropWhile drop).reverse

def trim {α : Type} (drop : α → Bool) (xs : List α) : List α := trimEnd drop (xs.dropWhile drop)

/-- Without white space at either end. -/
def strip (cs : List Char) : List Char := trim Unicode.isBlank cs

/-- Replaces occurrences of a non-empty pattern from left to right; the counter skips the rest of an
occurrence. -/
def replaceFrom (pattern new : List Char) : Nat → List Char → List Char
  | _, [] => []
  | skip + 1, _ :: cs => replaceFrom pattern new skip cs
  | 0, c :: cs =>
    if pattern.isPrefixOf (c :: cs) then new ++ replaceFrom pattern new (pattern.length - 1) cs
    else c :: replaceFrom pattern new 0 cs

def replace (pattern new cs : List Char) : List Char := replaceFrom pattern new 0 cs

/-- Replaces the first occurrence only. -/
def replaceFirst (pattern new : List Char) : List Char → List Char
  | [] => if pattern.isEmpty then new else []
  | c :: cs =>
    if pattern.isPrefixOf (c :: cs) then new ++ (c :: cs).drop pattern.length
    else c :: replaceFirst pattern new cs

/-- Whether a pattern occurs anywhere. -/
def occurs (pattern : List Char) : List Char → Bool
  | [] => pattern.isEmpty
  | c :: cs => pattern.isPrefixOf (c :: cs) || occurs pattern cs

/-- The lines of a text without their ends, a carriage return and line feed being one end. A text that
ends with a line end has no further empty line. -/
def lines : List Char → List (List Char)
  | [] => []
  | '\r' :: '\n' :: cs => [] :: lines cs
  | c :: cs =>
    if Unicode.isLineEnd c then [] :: lines cs
    else match lines cs, cs with
      | line :: rest, _ :: _ => (c :: line) :: rest
      | rest, _ => [c] :: rest

/-- The text before the first occurrence of a mark and the text after it. -/
def cut (mark : Char) (cs : List Char) : List Char × List Char :=
  (cs.takeWhile (· != mark), (cs.dropWhile (· != mark)).drop 1)

/-- The text before the last occurrence of a mark, if there is one, and the text after it. -/
def cutLast (mark : Char) (cs : List Char) : Option (List Char) × List Char :=
  let tail := (cs.reverse.takeWhile (· != mark)).reverse
  if tail.length = cs.length then (none, cs) else (some (cs.take (cs.length - tail.length - 1)), tail)

/-- A function on characters applied to a text. -/
def onChars (f : List Char → List Char) (s : String) : String := String.ofList (f s.toList)

@[simp] theorem splitOn_ne_nil (mark : Char) (cs : List Char) : splitOn mark cs ≠ [] := by
  cases cs with
  | nil => simp [splitOn]
  | cons c cs =>
    simp only [splitOn]
    split
    · simp
    · split <;> simp

end ClientBindings.Text

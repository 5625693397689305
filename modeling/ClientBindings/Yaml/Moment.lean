import ClientBindings.Data.Moment

/-! Reading points in time. -/

namespace ClientBindings.Moment

def natOf (ds : List Char) : Nat := ds.foldl (fun n d => 10 * n + (d.toNat - 48)) 0

/-- A number of at least and at most so many digits. -/
def number? (least most : Nat) (cs : List Char) : Option (Nat × List Char) :=
  let digits := (cs.take most).takeWhile Char.isDigit
  if digits.length < least then none else some (natOf digits, cs.drop digits.length)

def after? (c : Char) : List Char → Option (List Char)
  | x :: cs => if x == c then some cs else none
  | [] => none

def isGap (c : Char) : Bool := c == ' ' || c == '\t'

/-- What follows the letter or the blanks between date and time. -/
def afterDate? (cs : List Char) : Option (List Char) :=
  match cs with
  | 'T' :: rest | 't' :: rest => some rest
  | c :: _ => if isGap c then some (cs.dropWhile isGap) else none
  | [] => none

/-- The millionths that the digits of a fraction spell; further digits are dropped. -/
def millionths (ds : List Char) : Nat := natOf (ds.take 6 ++ List.replicate (6 - ds.length) '0')

def fraction : List Char → Nat × List Char
  | '.' :: cs => (millionths (cs.takeWhile Char.isDigit), cs.dropWhile Char.isDigit)
  | cs => (0, cs)

/-- The minutes of an offset behind its sign. -/
def minutes? (cs : List Char) : Option Nat := do
  let (hours, cs) ← number? 1 2 cs
  if cs.isEmpty then return 60 * hours
  let (minutes, cs) ← number? 2 2 (← after? ':' cs)
  if cs.isEmpty then return 60 * hours + minutes else none

/-- The offset at the end, which may be missing. -/
def offset? (cs : List Char) : Option (Option Int) :=
  match cs.dropWhile isGap with
  | ['Z'] => some (some 0)
  | '-' :: rest => (minutes? rest).map fun n => some (-n)
  | '+' :: rest => (minutes? rest).map fun n => some n
  | _ => if cs.isEmpty then some none else none

def timeOfDay? (cs : List Char) : Option TimeOfDay := do
  let (hour, cs) ← number? 1 2 cs
  let (minute, cs) ← number? 2 2 (← after? ':' cs)
  let (second, cs) ← number? 2 2 (← after? ':' cs)
  let (fraction, cs) := fraction cs
  return { hour, minute, second, fraction, offset := ← offset? cs }

def parse? (cs : List Char) : Option Moment := do
  let (year, cs) ← number? 4 4 cs
  let (month, cs) ← number? 1 2 (← after? '-' cs)
  let (day, cs) ← number? 1 2 (← after? '-' cs)
  if cs.isEmpty then return { year, month, day, time := none }
  return { year, month, day, time := some (← timeOfDay? (← afterDate? cs)) }

/-- Whether a text that nothing marks as a moment is one: a date alone has two digits for month and
day. -/
def isEvident (cs : List Char) : Bool :=
  match parse? cs with
  | some m => m.time.isSome || cs.length == 10
  | none => false

end ClientBindings.Moment

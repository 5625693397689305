import ClientBindings.Text.Chars

/-! Points in time: a date, or a date and a time of day with or without an offset from universal time. -/

namespace ClientBindings

structure TimeOfDay where
  hour : Nat
  minute : Nat
  second : Nat
  /-- Millionths of a second. -/
  fraction : Nat
  /-- Minutes ahead of universal time. -/
  offset : Option Int
deriving DecidableEq, Repr, Inhabited

structure Moment where
  year : Nat
  month : Nat
  day : Nat
  time : Option TimeOfDay
deriving DecidableEq, Repr, Inhabited

/-- A number with zeros in front up to a width. -/
def Moment.padded (width n : Nat) : List Char :=
  let digits := Nat.toDigits 10 n
  List.replicate (width - digits.length) '0' ++ digits

/-- A call with its arguments, as program text. -/
def Moment.call (function : String) (arguments : List (List Char)) : List Char :=
  function.toList ++ '(' :: (Text.join [',', ' '] arguments ++ [')'])

namespace TimeOfDay

open Moment

/-- Whether the clock has such a time; an offset is less than a day. -/
def isValid (t : TimeOfDay) : Bool :=
  t.hour < 24 && t.minute < 60 && t.second < 60 && t.offset.all fun o => o.natAbs < 1440

def offsetChars (minutes : Int) : List Char :=
  let n := minutes.natAbs
  (if minutes < 0 then '-' else '+') :: (padded 2 (n / 60) ++ ':' :: padded 2 (n % 60))

def chars (t : TimeOfDay) : List Char :=
  Text.join [':'] [padded 2 t.hour, padded 2 t.minute, padded 2 t.second]
    ++ (if t.fraction == 0 then [] else '.' :: padded 6 t.fraction)
    ++ (t.offset.map offsetChars).getD []

/-- A difference of time in whole days and the seconds that remain, those that are zero left out. -/
def shownDifference (minutes : Int) : List Char :=
  let part (name : String) (n : Int) : List (List Char) :=
    if n == 0 then [] else [name.toList ++ '=' :: (toString n).toList]
  call "datetime.timedelta" (part "days" (minutes / 1440) ++ part "seconds" (60 * (minutes % 1440)))

def shownOffset (minutes : Int) : List Char :=
  if minutes == 0 then "datetime.timezone.utc".toList
  else call "datetime.timezone" [shownDifference minutes]

/-- The arguments that describe a time; seconds and their fraction are left out while nothing but zeros
follows. -/
def shownParts (t : TimeOfDay) : List (List Char) :=
  let seconds := if t.fraction == 0 && t.second == 0 then [] else [t.second]
  let fraction := if t.fraction == 0 then [] else [t.fraction]
  ([t.hour, t.minute] ++ seconds ++ fraction).map (Nat.toDigits 10)
    ++ (t.offset.map fun o => "tzinfo=".toList ++ shownOffset o).toList

end TimeOfDay

namespace Moment

def isLeapYear (year : Nat) : Bool := year % 4 == 0 && (year % 100 != 0 || year % 400 == 0)

def daysIn (year month : Nat) : Nat :=
  if month == 2 then (if isLeapYear year then 29 else 28)
  else if [4, 6, 9, 11].contains month then 30 else 31

/-- Whether the calendar has such a day and the clock such a time. -/
def isValid (m : Moment) : Bool :=
  1 ≤ m.year && 1 ≤ m.month && m.month ≤ 12 && 1 ≤ m.day && m.day ≤ daysIn m.year m.month
    && m.time.all TimeOfDay.isValid

/-- The moment in its standard form, with a blank between date and time. -/
def chars (m : Moment) : List Char :=
  Text.join ['-'] [padded 4 m.year, padded 2 m.month, padded 2 m.day]
    ++ (m.time.map fun t => ' ' :: t.chars).getD []

/-- The moment as program text. -/
def shownChars (m : Moment) : List Char :=
  let date := [m.year, m.month, m.day].map (Nat.toDigits 10)
  match m.time with
  | none => call "datetime.date" date
  | some t => call "datetime.datetime" (date ++ t.shownParts)

end Moment
end ClientBindings

import ClientBindings.Text.Chars
import ClientBindings.Text.Percent

/-! Addresses of hosts in numbers: four octets between points, or eight groups of hexadecimal digits
between colons, a run of zero groups of which may be left out once. -/

namespace ClientBindings.IpAddress

open Text

/-- A number up to 255 without zeros in front. -/
def isOctet (cs : List Char) : Bool :=
  !cs.isEmpty && cs.length ≤ 3 && cs.all Char.isDigit && (cs.length == 1 || cs.head? != some '0')
    && (cs.foldl (fun n d => 10 * n + (d.toNat - 48)) 0) ≤ 255

def isV4 (cs : List Char) : Bool :=
  let octets := splitOn '.' cs
  octets.length == 4 && octets.all isOctet

def isGroup (cs : List Char) : Bool :=
  !cs.isEmpty && cs.length ≤ 4 && cs.all fun c => (Percent.hexValue? c).isSome

/-- Whether groups, some of which are empty, make up an address: eight of them, or fewer around one
gap. An empty group at an end belongs to a gap beside it. -/
def areGroups (groups : List (List Char)) : Bool :=
  let inner := (groups.drop 1).dropLast
  match (inner.filter List.isEmpty).length with
  | 0 => groups.length == 8 && groups.all isGroup
  | 1 =>
    let high := groups.takeWhile (!·.isEmpty)
    let low := (groups.reverse.takeWhile (!·.isEmpty)).reverse
    let ends := (if high.isEmpty then 1 else 0) + (if low.isEmpty then 1 else 0)
    high.length + low.length + 1 + ends == groups.length && high.length + low.length ≤ 7
      && high.all isGroup && low.all isGroup
  | _ => false

/-- Eight groups, of which the last two may be written as four octets. -/
def isV6Groups (cs : List Char) : Bool :=
  let groups := splitOn ':' cs
  let last := groups.getLast?.getD []
  if groups.length < 3 then false
  else if last.contains '.' then isV4 last && areGroups (groups.dropLast ++ [['0'], ['0']])
  else areGroups groups

/-- An address of groups, with or without the name of a zone. -/
def isV6 (cs : List Char) : Bool :=
  let (address, zone) := cut '%' cs
  !cs.contains '/' && isV6Groups address
    && (!cs.contains '%' || (!zone.isEmpty && !zone.contains '%'))

end ClientBindings.IpAddress

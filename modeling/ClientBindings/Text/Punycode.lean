/-! Punycode writes a label of a host name in ASCII: the ASCII characters first, then where the others
belong, as numbers with digits of varying weight. -/

namespace ClientBindings.Punycode

def digit (d : Nat) : Char := if d < 26 then Char.ofNat (97 + d) else Char.ofNat (22 + d)

/-- The greatest value below which a digit ends its number. -/
def threshold (place bias : Nat) : Nat :=
  if place ≤ bias then 1 else if bias + 26 ≤ place then 26 else place - bias

theorem threshold_pos (place bias : Nat) : 0 < threshold place bias := by
  unfold threshold
  split
  · omega
  · split <;> omega

/-- A number from its least digit on. -/
def number (bias place n : Nat) : List Char :=
  let t := threshold place bias
  if n < t then [digit n]
  else digit (t + (n - t) % (36 - t)) :: number bias (place + 36) ((n - t) / (36 - t))
termination_by n
decreasing_by
  have h := threshold_pos place bias
  exact Nat.lt_of_le_of_lt (Nat.div_le_self _ _) (by omega)

def shrink (delta place : Nat) : Nat × Nat :=
  if 455 < delta then shrink (delta / 35) (place + 36) else (delta, place)
termination_by delta
decreasing_by exact Nat.div_lt_self (by omega) (by omega)

/-- The bias after a number has been written; the first number counts less. -/
def adapt (delta count : Nat) (isFirst : Bool) : Nat :=
  let start := if isFirst then delta / 700 else delta / 2
  let (delta, place) := shrink (start + start / count) 0
  place + 36 * delta / (delta + 38)

structure Progress where
  written : List Char
  delta : Nat := 0
  bias : Nat := 72
  /-- How many characters are accounted for. -/
  count : Nat

/-- Accounts for one character of the label in the pass for the code `next`. -/
def Progress.visit (basics next : Nat) (p : Progress) (c : Char) : Progress :=
  if c.toNat < next then { p with delta := p.delta + 1 }
  else if c.toNat = next then
    { written := p.written ++ number p.bias 36 p.delta, delta := 0
      bias := adapt p.delta (p.count + 1) (p.count == basics), count := p.count + 1 }
  else p

/-- Passes over the label, one for each code outside ASCII in growing order. -/
def passes (label : List Char) (basics : Nat) : List Nat → Nat → Progress → Progress
  | [], _, p => p
  | next :: rest, least, p =>
    let p := { p with delta := p.delta + (next - least) * (p.count + 1) }
    let p := label.foldl (Progress.visit basics next) p
    passes label basics rest (next + 1) { p with delta := p.delta + 1 }

def encode (label : List Char) : List Char :=
  let basic := label.filter fun c => c.toNat < 128
  let others := (label.filter fun c => 128 ≤ c.toNat).map Char.toNat
  let codes := (others.mergeSort fun a b => a ≤ b).eraseDups
  let done := passes label basic.length codes 128 { written := [], count := basic.length }
  basic ++ (if basic.isEmpty then [] else ['-']) ++ done.written

end ClientBindings.Punycode

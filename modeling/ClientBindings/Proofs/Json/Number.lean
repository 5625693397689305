import ClientBindings.Json.Reader
import ClientBindings.Proofs.Runs

/-! Numbers of JSON: the parts the grammar knows, the text they make and the number they denote. The
reader takes such a text off the front of any text that does not go on like a number. -/

namespace ClientBindings.Json

/-- The mark, a sign that may be missing, and digits. -/
structure Exponent where
  mark : Char
  sign : Option Bool
  digits : List Char
  isMark : isExponentMark mark = true
  nonempty : digits ≠ []
  allDigits : ∀ c ∈ digits, isDigit c = true

namespace Exponent

def signChars : Option Bool → List Char
  | none => []
  | some true => ['-']
  | some false => ['+']

def chars (e : Exponent) : List Char := e.mark :: (signChars e.sign ++ e.digits)

def value (e : Exponent) : Int := Numeral.signed (e.sign == some true) (natOfDigits e.digits)

end Exponent

/-- A zero alone, or digits that do not begin with one. -/
def IsWhole (ds : List Char) : Prop :=
  ds = ['0'] ∨ ∃ c rest, ds = c :: rest ∧ c ≠ '0' ∧ ∀ d ∈ c :: rest, isDigit d = true

/-- The parts of a number; an empty fraction stands for none. -/
structure Number where
  negative : Bool
  whole : List Char
  fraction : List Char
  exponent : Option Exponent
  isWhole : IsWhole whole
  allDigits : ∀ c ∈ fraction, isDigit c = true

namespace Number

def signChars (negative : Bool) : List Char := if negative then ['-'] else []

def fractionChars : List Char → List Char
  | [] => []
  | ds => '.' :: ds

def exponentChars (e : Option Exponent) : List Char := (e.map Exponent.chars).getD []

def unsignedChars (n : Number) : List Char := n.whole ++ (fractionChars n.fraction ++ exponentChars n.exponent)

def chars (n : Number) : List Char := signChars n.negative ++ n.unsignedChars

/-- Whether neither a fraction nor an exponent is written. -/
def isInteger (n : Number) : Bool := n.fraction.isEmpty && n.exponent.isNone

/-- Whether it is an integer of more digits than are read. -/
def isTooLong (n : Number) : Bool := n.isInteger && decide (Numeral.mostDigits < n.whole.length)

/-- The power of ten that the digits are counted in. -/
def scale (n : Number) : Int := (n.exponent.map Exponent.value).getD 0 - n.fraction.length

/-- The number denoted: an integer exactly, any other as the float nearest to it. -/
def scalar (n : Number) : Scalar :=
  if n.isInteger then .int (Numeral.signed n.negative (natOfDigits n.whole))
  else .float (Double.ofDecimal n.negative (natOfDigits (n.whole ++ n.fraction)) n.scale)

end Number

/-- The text does not go on like a number. -/
def Stops (rest : List Char) : Prop :=
  ∀ c ∈ rest.head?, isDigit c = false ∧ c ≠ '.' ∧ isExponentMark c = false

theorem stops_nil : Stops [] := by
  intro c hc
  cases hc

theorem stops_cons {c : Char} (h : isDigit c = false ∧ c ≠ '.' ∧ isExponentMark c = false) (rest : List Char) :
    Stops (c :: rest) := by
  intro d hd
  rw [Option.mem_def.mp hd |> Option.some.inj |> Eq.symm]
  exact h

/-! ## Runs of digits -/

section
variable {p : Char → Bool} {ds rest : List Char}

theorem takeWhile_append_stop (hds : ∀ c ∈ ds, p c = true) (hrest : ∀ c ∈ rest.head?, p c = false) :
    (ds ++ rest).takeWhile p = ds := by
  rw [List.takeWhile_append_of_pos hds]
  cases rest with
  | nil => exact List.append_nil ds
  | cons c rest => rw [List.takeWhile_cons_of_neg (by simp [hrest c rfl]), List.append_nil]

theorem dropWhile_append_stop (hds : ∀ c ∈ ds, p c = true) (hrest : ∀ c ∈ rest.head?, p c = false) :
    (ds ++ rest).dropWhile p = rest := by
  rw [List.dropWhile_append_of_pos hds]
  cases rest with
  | nil => rfl
  | cons c rest => exact List.dropWhile_cons_of_neg (by simp [hrest c rfl])

end

theorem natOfDigits_toDigits (n : Nat) : natOfDigits (Nat.toDigits 10 n) = n :=
  Nat.ofDigitChars_toDigits (by decide) (by decide)

/-! ## Parts of a number read -/

variable {rest : List Char}

theorem wholeDigits_append {ds : List Char} (hds : IsWhole ds) (hrest : ∀ c ∈ rest.head?, isDigit c = false) :
    wholeDigits (ds ++ rest) = some (ds, rest) := by
  rcases hds with rfl | ⟨c, ds, rfl, hzero, hdigits⟩
  · rfl
  · have htail : ∀ d ∈ ds, isDigit d = true := fun d hd => hdigits d (List.mem_cons_of_mem c hd)
    rw [List.cons_append, wholeDigits, if_pos (hdigits c List.mem_cons_self), takeWhile_append_stop htail hrest,
      dropWhile_append_stop htail hrest]
    exact fun h => hzero h

theorem fractionDigits_append {ds : List Char} (hds : ∀ c ∈ ds, isDigit c = true)
    (hrest : ∀ c ∈ rest.head?, isDigit c = false ∧ c ≠ '.') :
    fractionDigits (Number.fractionChars ds ++ rest) = (ds, rest) := by
  cases ds with
  | nil =>
    show fractionDigits rest = ([], rest)
    rw [fractionDigits]
    rintro c cs rfl
    exact (hrest '.' rfl).2 rfl
  | cons d ds =>
    have htail : ∀ c ∈ ds, isDigit c = true := fun c hc => hds c (List.mem_cons_of_mem d hc)
    have hstop : ∀ c ∈ rest.head?, isDigit c = false := fun c hc => (hrest c hc).1
    show fractionDigits ('.' :: d :: (ds ++ rest)) = (d :: ds, rest)
    rw [fractionDigits, if_pos (hds d List.mem_cons_self), takeWhile_append_stop htail hstop,
      dropWhile_append_stop htail hstop]

theorem exponentPart_cons {mark : Char} (hmark : isExponentMark mark = true) (cs : List Char) :
    exponentPart (mark :: cs) =
      if ((Numeral.cutSign cs).2.takeWhile isDigit).isEmpty then (none, mark :: cs)
      else (some (Numeral.signed (Numeral.cutSign cs).1 (natOfDigits ((Numeral.cutSign cs).2.takeWhile isDigit))),
        (Numeral.cutSign cs).2.dropWhile isDigit) := by
  have hno : ¬(!isExponentMark mark) = true := by simp [hmark]
  unfold exponentPart
  exact if_neg hno

theorem cutSign_digits {ds : List Char} (hne : ds ≠ []) (hds : ∀ c ∈ ds, isDigit c = true) (sign : Option Bool)
    (rest : List Char) :
    Numeral.cutSign (Exponent.signChars sign ++ (ds ++ rest)) = (sign == some true, ds ++ rest) := by
  match sign with
  | some true => rfl
  | some false => rfl
  | none =>
    obtain ⟨d, tail, rfl⟩ := List.exists_cons_of_ne_nil hne
    have hd := hds d List.mem_cons_self
    show Numeral.cutSign (d :: (tail ++ rest)) = (false, d :: (tail ++ rest))
    unfold Numeral.cutSign
    split
    · rename_i heq
      rw [(List.cons.inj heq).1] at hd
      cases hd
    · rename_i heq
      rw [(List.cons.inj heq).1] at hd
      cases hd
    · rfl

theorem exponentPart_append (e : Option Exponent) (hrest : Stops rest) :
    exponentPart (Number.exponentChars e ++ rest) = (e.map Exponent.value, rest) := by
  cases e with
  | none =>
    show exponentPart rest = (none, rest)
    cases rest with
    | nil => rfl
    | cons c rest => simp [exponentPart, (hrest c rfl).2.2]
  | some e =>
    have hstop : ∀ c ∈ rest.head?, isDigit c = false := fun c hc => (hrest c hc).1
    have hcut := cutSign_digits e.nonempty e.allDigits e.sign rest
    show exponentPart (e.mark :: (Exponent.signChars e.sign ++ e.digits) ++ rest) = (some e.value, rest)
    rw [List.cons_append, List.append_assoc, exponentPart_cons e.isMark, hcut]
    dsimp only
    rw [takeWhile_append_stop e.allDigits hstop, dropWhile_append_stop e.allDigits hstop,
      if_neg (by simpa using e.nonempty)]
    rfl

/-! ## The whole number -/

theorem not_digit_of_isExponentMark {c : Char} (h : isExponentMark c = true) : isDigit c = false ∧ c ≠ '.' := by
  rcases Bool.or_eq_true_iff.mp h with h | h
  · rw [eq_of_beq h]
    decide
  · rw [eq_of_beq h]
    decide

theorem head_exponentChars (e : Option Exponent) (hrest : Stops rest) :
    ∀ c ∈ (Number.exponentChars e ++ rest).head?, isDigit c = false ∧ c ≠ '.' := by
  intro c hc
  cases e with
  | none => exact ⟨(hrest c hc).1, (hrest c hc).2.1⟩
  | some e =>
    have heq : e.mark = c := Option.some.inj hc
    exact heq ▸ not_digit_of_isExponentMark e.isMark

theorem head_fractionChars (ds : List Char) (hrest : ∀ c ∈ rest.head?, isDigit c = false ∧ c ≠ '.') :
    ∀ c ∈ (Number.fractionChars ds ++ rest).head?, isDigit c = false := by
  intro c hc
  cases ds with
  | nil => exact (hrest c hc).1
  | cons d ds =>
    have heq : '.' = c := Option.some.inj hc
    rw [← heq]
    rfl

theorem unsigned_append (n : Number) (hrest : Stops rest) : unsigned n.negative (n.unsignedChars ++ rest) =
    if n.isTooLong then .error .badValue else .ok (n.scalar, rest) := by
  have hexponent := head_exponentChars n.exponent hrest
  have hwhole := wholeDigits_append n.isWhole (head_fractionChars n.fraction hexponent)
  have hnone : (n.exponent.map Exponent.value).isNone = n.exponent.isNone := Option.isNone_map
  rw [Number.unsignedChars, List.append_assoc, List.append_assoc, unsigned, hwhole]
  simp only [expect, pure_bind, fractionDigits_append n.allDigits hexponent, exponentPart_append n.exponent hrest,
    hnone]
  rw [← Number.isInteger, Number.isTooLong, Number.scalar]
  cases n.isInteger with
  | false => rfl
  | true =>
    by_cases hlong : Numeral.mostDigits < n.whole.length
    · rw [if_pos rfl, if_pos hlong, Bool.true_and, if_pos (decide_eq_true hlong)]
      rfl
    · rw [if_pos rfl, if_neg hlong, Bool.true_and, if_neg (by simpa using hlong)]
      rfl

theorem exists_digit_of_isWhole {ds : List Char} (h : IsWhole ds) : ∃ d rest, ds = d :: rest ∧ isDigit d = true := by
  rcases h with rfl | ⟨d, rest, rfl, -, hdigits⟩
  · exact ⟨'0', [], rfl, rfl⟩
  · exact ⟨d, rest, rfl, hdigits d List.mem_cons_self⟩

/-- A number begins with a digit or with the sign of a negative one. -/
theorem Number.exists_head (n : Number) : ∃ c rest, n.chars = c :: rest ∧ (c = '-' ∨ isDigit c = true) := by
  obtain ⟨d, ds, hwhole, hd⟩ := exists_digit_of_isWhole n.isWhole
  rw [Number.chars, Number.unsignedChars, hwhole]
  cases n.negative with
  | true => exact ⟨'-', _, rfl, .inl rfl⟩
  | false => exact ⟨d, _, rfl, .inr hd⟩

theorem ne_of_isDigit {c d : Char} (hc : isDigit c = true) (hd : isDigit d = false) : c ≠ d := by
  rintro rfl
  rw [hc] at hd
  cases hd

theorem word?_eq_none {cs : List Char} (h : ∀ w ∈ words, ¬ w.1.toList <+: cs) : word? cs = none := by
  rw [word?, List.findSome?_eq_none_iff]
  intro w hw
  have hno : ¬ w.1.toList.isPrefixOf cs = true := by
    rw [List.isPrefixOf_iff_prefix]
    exact h w hw
  show (after? w.1 cs).map _ = none
  rw [after?, if_neg hno, Option.map_none]

theorem not_prefix_cons {p : Char → Bool} {word cs : List Char} {d : Char} (hword : word.head?.any p = true)
    (hd : p d = false) : ¬ word <+: d :: cs := by
  cases word with
  | nil => cases hword
  | cons c word =>
    rw [List.cons_prefix_cons]
    rintro ⟨rfl, -⟩
    rw [List.head?_cons, Option.any_some, hd] at hword
    cases hword

/-- No word begins with a digit, or with a minus sign and a digit. -/
theorem word?_digit {d : Char} (h : isDigit d = true) (cs : List Char) : word? (d :: cs) = none := by
  have hwords : ∀ w ∈ words, w.1.toList.head?.any (!isDigit ·) = true := by decide
  apply word?_eq_none
  intro w hw
  exact not_prefix_cons (hwords w hw) (by rw [h]; rfl)

theorem word?_minus {d : Char} (h : isDigit d = true) (cs : List Char) : word? ('-' :: d :: cs) = none := by
  have hwords : ∀ w ∈ words, w.1.toList.head?.any (· != '-') = true ∨
      w.1.toList = '-' :: w.1.toList.tail ∧ w.1.toList.tail.head?.any (!isDigit ·) = true := by decide
  apply word?_eq_none
  intro w hw
  rcases hwords w hw with hhead | ⟨hchars, hnext⟩
  · exact not_prefix_cons hhead (by decide)
  · rw [hchars, List.cons_prefix_cons]
    exact fun hprefix => not_prefix_cons hnext (by rw [h]; rfl) hprefix.2

/-- A number in front of a text that does not go on like one is read whole. -/
theorem plain_append (n : Number) (hrest : Stops rest) : plain (n.chars ++ rest) =
    if n.isTooLong then .error .badValue else .ok (n.scalar, rest) := by
  have hread := unsigned_append n hrest
  obtain ⟨d, ds, hwhole, hd⟩ := exists_digit_of_isWhole n.isWhole
  have hchars : n.unsignedChars ++ rest =
      d :: (ds ++ (Number.fractionChars n.fraction ++ Number.exponentChars n.exponent) ++ rest) := by
    rw [Number.unsignedChars, hwhole, List.cons_append, List.cons_append]
  rw [Number.chars, List.append_assoc]
  rw [hchars] at hread ⊢
  cases hsign : n.negative with
  | true =>
    rw [hsign] at hread
    show plain ('-' :: d :: _) = _
    unfold plain
    rw [word?_minus hd]
    exact hread
  | false =>
    rw [hsign] at hread
    show plain (d :: _) = _
    unfold plain
    rw [word?_digit hd]
    split
    · rename_i heq
      cases heq
    · rename_i heq
      exact absurd (List.cons.inj heq).1 (ne_of_isDigit hd rfl)
    · exact hread

end ClientBindings.Json

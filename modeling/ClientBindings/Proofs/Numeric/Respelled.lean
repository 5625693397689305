import ClientBindings.Proofs.Numeric.DecimalText
import ClientBindings.Proofs.Text

/-! Numbers spelled anew. -/

namespace ClientBindings.NumberFormat

open Json (Number Exponent IsWhole IsSignificant)

variable (f : NumberFormat) {ds : List Char} {p : Int} {n : Number}

/-! ## Digits laid out -/

/-- Digits laid out by a format, their point being at a position counted from the first of them. -/
def laid (ds : List Char) (p : Int) : List Char :=
  if f.leastPoint ≤ p ∧ p ≤ f.greatestPoint then
    if p ≤ 0 then '0' :: '.' :: (List.replicate (-p).toNat '0' ++ ds)
    else if (ds.length : Int) ≤ p then ds ++ List.replicate (p.toNat - ds.length) '0' ++ f.fractionMark
    else ds.take p.toNat ++ '.' :: ds.drop p.toNat
  else ds.take 1 ++ (if (ds.drop 1).isEmpty then [] else '.' :: ds.drop 1) ++ f.exponentText (p - 1)

theorem positive_eq (d : Decimal) : f.positive d = f.laid d.digits d.point := rfl

/-- The parts of a number of so many digits: no exponent in the range of the format, no zero at the end of a fraction
but for the one that a format keeps, and else one digit in front of the point. -/
def Lays (n : Number) (k : Nat) (p : Int) : Prop :=
  if f.leastPoint ≤ p ∧ p ≤ f.greatestPoint then
    n.exponent = none ∧ if (k : Int) ≤ p then n.fraction = f.fraction else
      n.fraction ≠ [] ∧ n.fraction.getLast? ≠ some '0'
  else
    n.whole.length = 1 ∧ n.whole ≠ ['0'] ∧ n.fraction.getLast? ≠ some '0' ∧ n.exponent = some (f.exponentOf (p - 1))

theorem fraction_eq_replicate : f.fraction = List.replicate f.fraction.length '0' := by
  unfold fraction
  split <;> rfl

theorem value_exponentOf (e : Int) : (f.exponentOf e).value = e := by
  have hdigits : Json.natOfDigits (f.exponentOf e).digits = e.natAbs := by
    rw [exponentOf, Json.natOfDigits_append, Json.natOfDigits_zeros, Json.natOfDigits_toDigits, Nat.mul_zero, Nat.zero_add]
  rw [Exponent.value, hdigits]
  show Numeral.signed (some (!decide (0 ≤ e)) == some true) e.natAbs = e
  by_cases he : 0 ≤ e
  · rw [decide_eq_true he]
    show (e.natAbs : Int) = e
    omega
  · rw [decide_eq_false he]
    show -(e.natAbs : Int) = e
    omega

/-- A number whose text, sign apart, is the given one and that has the digits with the point at the position. -/
structure Spelled (n : Number) (negative : Bool) (cs ds : List Char) (p : Int) : Prop where
  negative_eq : n.negative = negative
  chars_eq : n.chars = sign negative ++ cs
  shows : n.Shows ds p

theorem exists_below_one (hds : IsSignificant ds) (negative : Bool) (zeros : Nat) : ∃ n : Number,
    Spelled n negative ('0' :: '.' :: (List.replicate zeros '0' ++ ds)) ds (-zeros) ∧ n.exponent = none ∧
      n.fraction = List.replicate zeros '0' ++ ds := by
  have hne : List.replicate zeros '0' ++ ds ≠ [] := fun h => hds.nonempty (List.append_eq_nil_iff.mp h).2
  refine ⟨⟨negative, ['0'], List.replicate zeros '0' ++ ds, none, .inl rfl,
    isDigit_append (isDigit_replicate_zero _) hds.allDigits⟩, ⟨rfl, ?_, zeros + 1, 0, ?_, ?_⟩, rfl, rfl⟩
  · rw [Number.chars, Number.unsignedChars, fractionChars_of_ne_nil hne, Number.exponentChars, Option.map_none,
      Option.getD_none, List.append_nil]
    rfl
  · rw [List.replicate_succ, List.replicate_zero, List.append_nil]
    rfl
  · show -(zeros : Int) = 1 + 0 - (zeros + 1 : Nat)
    omega

theorem exists_integer (hds : IsSignificant ds) (negative : Bool) (zeros : Nat) : ∃ n : Number,
    Spelled n negative (ds ++ List.replicate zeros '0' ++ f.fractionMark) ds (ds.length + zeros) ∧ n.exponent = none ∧
      n.fraction = f.fraction := by
  have hwhole : IsWhole (ds ++ List.replicate zeros '0') := by
    obtain ⟨c, rest, rfl⟩ := List.exists_cons_of_ne_nil hds.nonempty
    exact .inr ⟨c, rest ++ List.replicate zeros '0', rfl, fun hc => hds.head (congrArg some hc),
      isDigit_append hds.allDigits (isDigit_replicate_zero zeros)⟩
  refine ⟨⟨negative, _, f.fraction, none, hwhole, f.isDigit_fraction⟩, ⟨rfl, ?_, 0, zeros + f.fraction.length, ?_, ?_⟩,
    rfl, rfl⟩
  · rw [Number.chars, Number.unsignedChars, fractionChars_fraction, Number.exponentChars, Option.map_none,
      Option.getD_none, List.append_nil]
    rfl
  · show ds ++ List.replicate zeros '0' ++ f.fraction = _
    rw [List.append_assoc, List.replicate_add, ← fraction_eq_replicate]
    rfl
  · show (ds.length + zeros : Int) = (ds ++ List.replicate zeros '0').length + 0 - 0
    rw [List.length_append, List.length_replicate]
    omega

theorem exists_between (hds : IsSignificant ds) (negative : Bool) {k : Nat} (hpositive : 0 < k) (hk : k < ds.length) :
    ∃ n : Number, Spelled n negative (ds.take k ++ '.' :: ds.drop k) ds k ∧ n.exponent = none ∧ n.fraction = ds.drop k := by
  have hne : ds.drop k ≠ [] := by
    rw [Ne, List.drop_eq_nil_iff]
    omega
  refine ⟨⟨negative, ds.take k, ds.drop k, none, hds.isWhole.take hpositive,
    fun c hc => hds.allDigits c (List.mem_of_mem_drop hc)⟩, ⟨rfl, ?_, 0, 0, ?_, ?_⟩, rfl, rfl⟩
  · rw [Number.chars, Number.unsignedChars, fractionChars_of_ne_nil hne, Number.exponentChars, Option.map_none,
      Option.getD_none, List.append_nil]
    rfl
  · show ds.take k ++ ds.drop k = ds ++ []
    rw [List.take_append_drop, List.append_nil]
  · show (k : Int) = (ds.take k).length + 0 - 0
    rw [List.length_take]
    omega

theorem exists_scientific (hds : IsSignificant ds) (negative : Bool) (p : Int) : ∃ n : Number,
    Spelled n negative (ds.take 1 ++ (if (ds.drop 1).isEmpty then [] else '.' :: ds.drop 1) ++ f.exponentText (p - 1)) ds p ∧
      n.exponent = some (f.exponentOf (p - 1)) ∧ n.fraction = ds.drop 1 ∧ n.whole = ds.take 1 := by
  have hlength : 0 < ds.length := List.length_pos_iff.mpr hds.nonempty
  have hfraction : (if (ds.drop 1).isEmpty then [] else '.' :: ds.drop 1) = Number.fractionChars (ds.drop 1) := by
    cases ds.drop 1 <;> rfl
  refine ⟨⟨negative, ds.take 1, ds.drop 1, some (f.exponentOf (p - 1)), hds.isWhole.take Nat.one_pos,
    fun c hc => hds.allDigits c (List.mem_of_mem_drop hc)⟩, ⟨rfl, ?_, 0, 0, ?_, ?_⟩, rfl, rfl, rfl⟩
  · rw [hfraction, List.append_assoc, ← chars_exponentOf]
    rfl
  · show ds.take 1 ++ ds.drop 1 = ds ++ []
    rw [List.take_append_drop, List.append_nil]
  · show p = (ds.take 1).length + (f.exponentOf (p - 1)).value - 0
    rw [List.length_take, value_exponentOf]
    omega

theorem getLast?_drop (hds : IsSignificant ds) (k : Nat) : (ds.drop k).getLast? ≠ some '0' := by
  rw [List.getLast?_drop]
  split
  · simp
  · exact hds.last

/-- What a format makes of significant digits is the text of a number that has them. -/
theorem exists_laid (hds : IsSignificant ds) (negative : Bool) (p : Int) : ∃ n : Number,
    Spelled n negative (f.laid ds p) ds p ∧ f.Lays n ds.length p := by
  have hlength : 0 < ds.length := List.length_pos_iff.mpr hds.nonempty
  unfold laid Lays
  by_cases hrange : f.leastPoint ≤ p ∧ p ≤ f.greatestPoint
  · simp only [if_pos hrange]
    by_cases hsmall : p ≤ 0
    · have hlong : ¬ (ds.length : Int) ≤ p := by omega
      obtain ⟨n, hn, hexponent, hfraction⟩ := exists_below_one hds negative (-p).toNat
      have hp : -(((-p).toNat : Nat) : Int) = p := by omega
      rw [hp] at hn
      rw [if_pos hsmall]
      refine ⟨n, hn, hexponent, ?_⟩
      rw [if_neg hlong, hfraction, List.getLast?_append_of_ne_nil _ hds.nonempty]
      exact ⟨fun h => hds.nonempty (List.append_eq_nil_iff.mp h).2, hds.last⟩
    · rw [if_neg hsmall]
      by_cases hlong : (ds.length : Int) ≤ p
      · obtain ⟨n, hn, hexponent, hfraction⟩ := f.exists_integer hds negative (p.toNat - ds.length)
        have hp : (ds.length : Int) + ((p.toNat - ds.length : Nat) : Int) = p := by omega
        rw [hp] at hn
        rw [if_pos hlong]
        exact ⟨n, hn, hexponent, by rwa [if_pos hlong]⟩
      · obtain ⟨n, hn, hexponent, hfraction⟩ := exists_between hds negative (k := p.toNat) (by omega) (by omega)
        have hp : ((p.toNat : Nat) : Int) = p := by omega
        rw [hp] at hn
        rw [if_neg hlong]
        refine ⟨n, hn, hexponent, ?_⟩
        rw [if_neg hlong, hfraction]
        refine ⟨?_, getLast?_drop hds _⟩
        rw [Ne, List.drop_eq_nil_iff]
        omega
  · simp only [if_neg hrange]
    obtain ⟨n, hn, hexponent, hfraction, hwhole⟩ := f.exists_scientific hds negative p
    refine ⟨n, hn, ?_, ?_, hfraction ▸ getLast?_drop hds 1, hexponent⟩
    · rw [hwhole, List.length_take]
      omega
    · obtain ⟨c, rest, rfl⟩ := List.exists_cons_of_ne_nil hds.nonempty
      rw [hwhole]
      intro h
      exact hds.head (congrArg List.head? h)

theorem mark_of_lays {k : Nat} (h : f.Lays n k p) : ∀ e ∈ n.exponent, e.mark = 'e' := by
  intro e he
  rw [Lays] at h
  split at h
  · rw [h.1] at he
    cases he
  · rw [h.2.2.2] at he
    rw [← Option.some.inj he]
    rfl

/-! ## Texts spelled anew -/

/-- An exponent without its mark; there may be none. -/
def exponentOfText (cs : List Char) : Int :=
  if cs.isEmpty then 0 else Numeral.signed (Numeral.cutSign cs).1 (Json.natOfDigits (Numeral.cutSign cs).2)

/-- The digits of a text without the zeros around them, and the position of the point from the first of them. -/
def significantOf (cs : List Char) : List Char × Int :=
  let (mantissa, exponent) := Text.cut 'e' cs
  let (whole, fraction) := Text.cut '.' mantissa
  let digits := (whole ++ fraction).dropWhile (· == '0')
  (Text.trimEnd (· == '0') digits,
    whole.length + exponentOfText exponent - ((whole ++ fraction).length - digits.length : Nat))

/-- Digits in the layout of browsers. -/
def browserLaid (ds : List Char) (p : Int) : List Char :=
  if (ds.length : Int) ≤ p ∧ p ≤ 21 then ds ++ List.replicate (p.toNat - ds.length) '0'
  else if 0 < p ∧ p ≤ 21 then ds.take p.toNat ++ '.' :: ds.drop p.toNat
  else if -6 < p ∧ p ≤ 0 then '0' :: '.' :: (List.replicate (-p).toNat '0' ++ ds)
  else
    let head := if ds.length = 1 then ds else ds.take 1 ++ '.' :: ds.drop 1
    head ++ 'e' :: (if 0 ≤ p - 1 then '+' else '-') :: Nat.toDigits 10 (p - 1).natAbs

/-- A decimal text spelled as browsers spell the number. -/
def respelled (cs : List Char) : List Char :=
  let (negative, cs) := Numeral.cutSign cs
  let (digits, point) := significantOf cs
  sign negative ++ browserLaid digits point

theorem digits_exponentOf_wire (e : Int) : (wire.exponentOf e).digits = Nat.toDigits 10 e.natAbs := by
  have hlength : 0 < (Nat.toDigits 10 e.natAbs).length := List.length_pos_iff.mpr Nat.toDigits_ne_nil
  have hzeros : wire.exponentWidth - (Nat.toDigits 10 e.natAbs).length = 0 := Nat.sub_eq_zero_of_le hlength
  show List.replicate (wire.exponentWidth - (Nat.toDigits 10 e.natAbs).length) '0' ++ Nat.toDigits 10 e.natAbs = _
  rw [hzeros]
  rfl

theorem exponentText_wire (e : Int) :
    wire.exponentText e = 'e' :: (if 0 ≤ e then '+' else '-') :: Nat.toDigits 10 e.natAbs := by
  rw [← digits_exponentOf_wire]
  rfl

theorem browserLaid_eq (hds : ds ≠ []) (p : Int) : browserLaid ds p = wire.laid ds p := by
  have hlength : 0 < ds.length := List.length_pos_iff.mpr hds
  have hmark : wire.fractionMark = [] := rfl
  have hleast : wire.leastPoint = -5 := rfl
  have hgreatest : wire.greatestPoint = 21 := rfl
  rw [browserLaid, laid, hleast, hgreatest, hmark, List.append_nil]
  by_cases hrange : -5 ≤ p ∧ p ≤ 21
  · rw [if_pos hrange]
    by_cases hsmall : p ≤ 0
    · rw [if_pos hsmall, if_neg (by omega), if_neg (by omega), if_pos (by omega)]
    · rw [if_neg hsmall]
      by_cases hlong : (ds.length : Int) ≤ p
      · rw [if_pos hlong, if_pos ⟨hlong, hrange.2⟩]
      · rw [if_neg hlong, if_neg (by omega), if_pos (by omega)]
  · have hhead : (if ds.length = 1 then ds else ds.take 1 ++ '.' :: ds.drop 1) =
        ds.take 1 ++ if (ds.drop 1).isEmpty then [] else '.' :: ds.drop 1 := by
      match ds, hds with
      | [c], _ => rfl
      | c :: d :: rest, _ => exact if_neg (by simp)
    rw [if_neg hrange, if_neg (by omega), if_neg (by omega), if_neg (by omega), exponentText_wire, ← hhead]

theorem cut_mantissa (n : Number) : Text.cut '.' (n.whole ++ Number.fractionChars n.fraction) = (n.whole, n.fraction) := by
  have hpoint : '.' ∉ n.whole := fun h => absurd (n.isWhole.allDigits '.' h) (by decide)
  cases n.fraction with
  | nil =>
    rw [Number.fractionChars, List.append_nil]
    exact Text.cut_of_not_mem hpoint
  | cons d ds => exact Text.cut_append hpoint (d :: ds)

/-- The exponent of a number as it is read behind its mark. -/
theorem cut_unsignedChars (hmark : ∀ e ∈ n.exponent, e.mark = 'e') : ∃ text,
    Text.cut 'e' n.unsignedChars = (n.whole ++ Number.fractionChars n.fraction, text) ∧ exponentOfText text = n.shift := by
  have hmantissa : 'e' ∉ n.whole ++ Number.fractionChars n.fraction := by
    rw [List.mem_append]
    rintro (h | h)
    · exact absurd (n.isWhole.allDigits 'e' h) (by decide)
    · cases hfraction : n.fraction with
      | nil =>
        rw [hfraction] at h
        cases h
      | cons d ds =>
        rw [hfraction] at h
        rcases List.mem_cons.mp h with h | h
        · exact absurd h (by decide)
        · exact absurd (n.allDigits 'e' (hfraction ▸ h)) (by decide)
  rw [Number.unsignedChars, ← List.append_assoc, Number.shift]
  cases hexponent : n.exponent with
  | none =>
    refine ⟨[], ?_, rfl⟩
    rw [Number.exponentChars, Option.map_none, Option.getD_none, List.append_nil]
    exact Text.cut_of_not_mem hmantissa
  | some e =>
    refine ⟨Exponent.signChars e.sign ++ e.digits, ?_, ?_⟩
    · show Text.cut 'e' (_ ++ e.mark :: (Exponent.signChars e.sign ++ e.digits)) = _
      rw [hmark e hexponent, Text.cut_append hmantissa]
    · have hcut := Json.cutSign_digits e.nonempty e.allDigits e.sign []
      rw [List.append_nil] at hcut
      have hsome : ¬ (Exponent.signChars e.sign ++ e.digits).isEmpty = true := by
        simp [e.nonempty]
      rw [exponentOfText, if_neg hsome, hcut]
      rfl

theorem significantOf_chars (h : n.Shows ds p) (hds : IsSignificant ds) (hmark : ∀ e ∈ n.exponent, e.mark = 'e') :
    significantOf n.unsignedChars = (ds, p) := by
  obtain ⟨a, b, hdigits, hp⟩ := h
  obtain ⟨text, hcut, htext⟩ := cut_unsignedChars hmark
  have hleading : ((List.replicate a '0' ++ (ds ++ List.replicate b '0')).dropWhile (· == '0')) =
      ds ++ List.replicate b '0' := by
    apply Json.dropWhile_append_stop
    · intro c hc
      rw [List.eq_of_mem_replicate hc]
      rfl
    · intro c hc
      obtain ⟨d, rest, rfl⟩ := List.exists_cons_of_ne_nil hds.nonempty
      have hne : c ≠ '0' := by
        rintro rfl
        exact hds.head hc
      simpa using hne
  have htrailing : Text.trimEnd (· == '0') (ds ++ List.replicate b '0') = ds := by
    rw [Text.trimEnd_append, Text.trimEnd_eq_self]
    · intro c hc
      have hne : c ≠ '0' := by
        rintro rfl
        exact hds.last hc
      simpa using hne
    · intro c hc
      rw [List.eq_of_mem_replicate hc]
      rfl
  rw [significantOf, hcut]
  dsimp only
  rw [cut_mantissa]
  dsimp only
  rw [hdigits, hleading, htrailing, htext, hp, List.length_append, List.length_replicate, Nat.add_sub_cancel]

/-- The text of a number with significant digits, spelled anew, is their layout on the wire. -/
theorem respelled_chars (h : n.Shows ds p) (hds : IsSignificant ds) (hmark : ∀ e ∈ n.exponent, e.mark = 'e') :
    respelled n.chars = sign n.negative ++ wire.laid ds p := by
  rw [respelled, n.cutSign_chars]
  show sign n.negative ++ browserLaid (significantOf n.unsignedChars).1 (significantOf n.unsignedChars).2 = _
  rw [significantOf_chars h hds hmark, browserLaid_eq hds.nonempty]

end ClientBindings.NumberFormat

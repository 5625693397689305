import ClientBindings.Proofs.Json.Spelling
import ClientBindings.Proofs.Text
import Mathlib.Algebra.Order.Field.Power
import Mathlib.Algebra.Order.Field.Rat
import Mathlib.Tactic.Positivity
import Mathlib.Tactic.Ring

/-! The rational that a decimal text denotes. Zeros around the other digits do not count, but for the place of the
point; so the digits between them and that place say all. -/

namespace ClientBindings.Json

variable {ds : List Char} {p : Int} {a b : Nat}

/-- The rational that a text denotes, if it is a number of the grammar. -/
def rational? (cs : List Char) : Option ℚ :=
  let (negative, cs) := Numeral.cutSign cs
  (wholeDigits cs).bind fun (whole, cs) =>
    let (fraction, cs) := fractionDigits cs
    let (exponent, cs) := exponentPart cs
    if cs.isEmpty then
      some ((if negative then -1 else 1) * natOfDigits (whole ++ fraction) * 10 ^ (exponent.getD 0 - fraction.length))
    else none

/-- Digits with no zero at either end. -/
structure IsSignificant (ds : List Char) : Prop where
  nonempty : ds ≠ []
  allDigits : ∀ c ∈ ds, isDigit c = true
  head : ds.head? ≠ some '0'
  last : ds.getLast? ≠ some '0'

/-- The digits behind a point that is then moved. -/
def pointed (ds : List Char) (p : Int) : ℚ := natOfDigits ds * 10 ^ (p - ds.length)

/-! ## Zeros around digits -/

theorem natOfDigits_append (xs ys : List Char) :
    natOfDigits (xs ++ ys) = 10 ^ ys.length * natOfDigits xs + natOfDigits ys :=
  (Nat.ofDigitChars_append 0).trans Nat.ofDigitChars_eq_ofDigitChars_zero

theorem natOfDigits_zeros (a : Nat) : natOfDigits (List.replicate a '0') = 0 := Nat.ofDigitChars_replicate_zero

theorem natOfDigits_between (a b : Nat) (ds : List Char) :
    natOfDigits (List.replicate a '0' ++ (ds ++ List.replicate b '0')) = 10 ^ b * natOfDigits ds := by
  rw [natOfDigits_append, natOfDigits_append, natOfDigits_zeros, natOfDigits_zeros, List.length_replicate, Nat.mul_zero,
    Nat.zero_add, Nat.add_zero]

theorem IsSignificant.isWhole (h : IsSignificant ds) : IsWhole ds := by
  obtain ⟨c, rest, rfl⟩ := List.exists_cons_of_ne_nil h.nonempty
  exact .inr ⟨c, rest, rfl, fun hc => h.head (congrArg some hc), h.allDigits⟩

theorem toNat_of_isDigit {c : Char} (hc : isDigit c = true) (hzero : c ≠ '0') : 48 < c.toNat := by
  have hle : 48 ≤ c.toNat := by
    rw [isDigit, Char.isDigit, Bool.and_eq_true, decide_eq_true_eq] at hc
    exact hc.1
  have hne : c.toNat ≠ 48 := fun h => hzero (Char.toNat_inj.mp h)
  omega

theorem IsSignificant.natOfDigits_pos (h : IsSignificant ds) : 0 < natOfDigits ds := by
  obtain ⟨c, rest, rfl⟩ := List.exists_cons_of_ne_nil h.nonempty
  have hc := toNat_of_isDigit (h.allDigits c List.mem_cons_self) fun hc => h.head (congrArg some hc)
  have hfirst : 0 < natOfDigits [c] := by
    show 0 < 10 * 0 + (c.toNat - 48)
    omega
  rw [← List.singleton_append, natOfDigits_append]
  positivity

namespace Number

def shift (n : Number) : Int := (n.exponent.map Exponent.value).getD 0

def value (n : Number) : ℚ :=
  (if n.negative then -1 else 1) * natOfDigits (n.whole ++ n.fraction) * 10 ^ (n.shift - n.fraction.length)

/-- That a number has the digits, among zeros, and its point so many places behind the beginning of them. -/
def Shows (n : Number) (ds : List Char) (p : Int) : Prop := ∃ a b,
  n.whole ++ n.fraction = List.replicate a '0' ++ (ds ++ List.replicate b '0') ∧ p = n.whole.length + n.shift - a

variable {n : Number}

theorem Shows.value_eq (h : n.Shows ds p) : n.value = (if n.negative then -1 else 1) * pointed ds p := by
  obtain ⟨a, b, hdigits, rfl⟩ := h
  have hlength := congrArg List.length hdigits
  simp only [List.length_append, List.length_replicate] at hlength
  have hexponent : (n.whole.length + n.shift - a : Int) - ds.length = b + (n.shift - n.fraction.length) := by omega
  rw [value, pointed, hdigits, natOfDigits_between, hexponent, zpow_add₀ (by norm_num), zpow_natCast]
  push_cast
  ring

theorem Shows.abs_value (h : n.Shows ds p) : |n.value| = pointed ds p := by
  have hpositive : 0 ≤ pointed ds p := by
    unfold pointed
    positivity
  rw [h.value_eq]
  split
  · rw [neg_one_mul, abs_neg, abs_of_nonneg hpositive]
  · rw [one_mul, abs_of_nonneg hpositive]

theorem Shows.value_ne_zero (h : n.Shows ds p) (hds : IsSignificant ds) : n.value ≠ 0 := by
  have hpositive : 0 < pointed ds p := mul_pos (Nat.cast_pos.mpr hds.natOfDigits_pos) (by positivity)
  rw [← abs_pos, h.abs_value]
  exact hpositive

theorem Shows.exists_digit (h : n.Shows ds p) (hds : IsSignificant ds) : ∃ c ∈ n.whole ++ n.fraction, c ≠ '0' := by
  obtain ⟨a, b, hdigits, -⟩ := h
  obtain ⟨c, rest, rfl⟩ := List.exists_cons_of_ne_nil hds.nonempty
  refine ⟨c, ?_, fun hc => hds.head (congrArg some hc)⟩
  rw [hdigits]
  exact List.mem_append_right _ (List.mem_append_left _ List.mem_cons_self)

/-- A number with a digit other than zero has significant digits. -/
theorem exists_shows (n : Number) (h : ∃ c ∈ n.whole ++ n.fraction, c ≠ '0') : ∃ ds p, IsSignificant ds ∧ n.Shows ds p := by
  let zero : Char → Bool := (· == '0')
  have hzero : ∀ {c}, zero c = true → c = '0' := beq_iff_eq.mp
  obtain ⟨blanks, hrest, hblanks, hlast⟩ := Text.exists_trimEnd zero ((n.whole ++ n.fraction).dropWhile zero)
  generalize hds : Text.trimEnd zero ((n.whole ++ n.fraction).dropWhile zero) = ds at hrest hlast
  have hleading : (n.whole ++ n.fraction).takeWhile zero =
      List.replicate ((n.whole ++ n.fraction).takeWhile zero).length '0' :=
    List.eq_replicate_of_mem fun c hc => hzero (List.mem_takeWhile_imp hc)
  have htrailing : blanks = List.replicate blanks.length '0' :=
    List.eq_replicate_of_mem fun c hc => hzero (hblanks c hc)
  have hdigits : n.whole ++ n.fraction =
      List.replicate ((n.whole ++ n.fraction).takeWhile zero).length '0' ++ (ds ++ List.replicate blanks.length '0') := by
    rw [← hleading, ← htrailing, ← hrest, List.takeWhile_append_dropWhile]
  have hnonempty : ds ≠ [] := by
    rintro rfl
    obtain ⟨c, hc, hne⟩ := h
    rw [hdigits, List.nil_append, ← List.replicate_add] at hc
    exact hne (List.eq_of_mem_replicate hc)
  refine ⟨ds, _, ⟨hnonempty, ?_, ?_, ?_⟩, _, _, hdigits, rfl⟩
  · intro c hc
    have hmem : c ∈ n.whole ++ n.fraction := by
      rw [hdigits]
      exact List.mem_append_right _ (List.mem_append_left _ hc)
    exact (List.mem_append.mp hmem).elim (n.isWhole.allDigits c) (n.allDigits c)
  · intro hhead
    have hnot := List.head?_dropWhile_not zero (n.whole ++ n.fraction)
    rw [hrest, List.head?_append, hhead, Option.some_or] at hnot
    exact absurd hnot (by decide)
  · intro hend
    exact absurd (hlast '0' hend) (by decide)

theorem cutSign_chars (n : Number) : Numeral.cutSign n.chars = (n.negative, n.unsignedChars) := by
  obtain ⟨d, rest, hdigits, -⟩ := exists_digit_of_isWhole n.isWhole
  have hne : n.whole ≠ [] := hdigits ▸ List.cons_ne_nil d rest
  have hread := fun sign => cutSign_digits hne n.isWhole.allDigits sign
    (fractionChars n.fraction ++ exponentChars n.exponent)
  rw [chars]
  cases n.negative with
  | true => exact hread (some true)
  | false => exact hread none

/-- The text of a number denotes its value. -/
theorem rational?_chars (n : Number) : rational? n.chars = some n.value := by
  have hexponent := exponentPart_append n.exponent stops_nil
  have hfraction := fractionDigits_append n.allDigits (head_exponentChars n.exponent stops_nil)
  have hwhole := wholeDigits_append n.isWhole (head_fractionChars n.fraction (head_exponentChars n.exponent stops_nil))
  rw [List.append_nil] at hexponent hfraction hwhole
  rw [rational?, cutSign_chars]
  show (wholeDigits n.unsignedChars).bind _ = _
  rw [unsignedChars, hwhole, Option.bind_some]
  dsimp only
  rw [hfraction]
  dsimp only
  rw [hexponent]
  exact if_pos rfl

end Number
end ClientBindings.Json

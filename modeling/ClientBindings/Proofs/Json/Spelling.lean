import ClientBindings.Numeric.NumberFormat
import ClientBindings.Proofs.Json.Number

/-! The texts of floats are numbers of JSON, whatever the format. -/

namespace ClientBindings

namespace Json

theorem digitChar_ne_zero : ∀ d < 10, d ≠ 0 → Nat.digitChar d ≠ '0' := by decide

theorem isDigit_toDigits (n : Nat) : ∀ c ∈ Nat.toDigits 10 n, isDigit c = true :=
  fun _ hc => Nat.isDigit_of_mem_toDigits (by decide) (by decide) hc

/-- The digits of a number other than zero do not begin with one. -/
theorem head_toDigits {n : Nat} (hn : n ≠ 0) : ∃ c rest, Nat.toDigits 10 n = c :: rest ∧ c ≠ '0' := by
  induction n using Nat.strongRecOn with
  | ind n ih =>
    by_cases hsmall : n < 10
    · exact ⟨_, [], Nat.toDigits_of_lt_base hsmall, digitChar_ne_zero n hsmall hn⟩
    · have hle : 10 ≤ n := Nat.le_of_not_lt hsmall
      obtain ⟨c, rest, hdigits, hc⟩ := ih (n / 10) (Nat.div_lt_self (by omega) (by decide)) (by omega)
      refine ⟨c, rest ++ [(n % 10).digitChar], ?_, hc⟩
      rw [Nat.toDigits_of_base_le (by decide) hle, hdigits, List.cons_append]

theorem isWhole_toDigits (n : Nat) : IsWhole (Nat.toDigits 10 n) := by
  by_cases hn : n = 0
  · rw [hn]
    exact .inl rfl
  · obtain ⟨c, rest, hdigits, hc⟩ := head_toDigits hn
    refine .inr ⟨c, rest, hdigits, hc, ?_⟩
    rw [← hdigits]
    exact isDigit_toDigits n

namespace IsWhole
variable {ds : List Char}

theorem allDigits (h : IsWhole ds) : ∀ c ∈ ds, isDigit c = true := by
  rcases h with rfl | ⟨c, rest, rfl, -, hdigits⟩
  · exact List.forall_mem_singleton.mpr rfl
  · exact hdigits

theorem take {k : Nat} (h : IsWhole ds) (hk : 0 < k) : IsWhole (ds.take k) := by
  obtain ⟨k, rfl⟩ := Nat.exists_eq_succ_of_ne_zero (Nat.pos_iff_ne_zero.mp hk)
  rcases h with rfl | ⟨c, rest, rfl, hc, hdigits⟩
  · exact .inl (by rw [List.take_succ_cons, List.take_nil])
  · refine .inr ⟨c, rest.take k, List.take_succ_cons, hc, ?_⟩
    intro d hd
    rcases List.mem_cons.mp hd with rfl | hd
    · exact hdigits d List.mem_cons_self
    · exact hdigits d (List.mem_cons_of_mem c (List.mem_of_mem_take hd))

end IsWhole
end Json

namespace Double

theorem coefficient_strip {d : Decimal} (fuel : Nat) (h : d.coefficient ≠ 0) : (d.strip fuel).coefficient ≠ 0 := by
  induction fuel generalizing d with
  | zero => exact h
  | succ fuel ih =>
    rw [Decimal.strip]
    split
    · rename_i hten
      apply ih
      show d.coefficient / 10 ≠ 0
      omega
    · exact h

/-- A point of the grid is its floor, if that is not zero, or the next one. -/
theorem coefficient_gridPoint? {i : RoundingInterval} {q e : Int} {d : Decimal} (h : gridPoint? i q e = some d) :
    d.coefficient ≠ 0 := by
  unfold gridPoint? at h
  dsimp only at h
  split at h
  · rename_i hbelow _
    rw [Bool.and_eq_true, bne_iff_ne] at hbelow
    split at h
    · rw [← Option.some.inj h]
      exact hbelow.1
    · rw [← Option.some.inj h]
      exact Nat.succ_ne_zero _
  · rename_i hbelow _
    rw [Bool.and_eq_true, bne_iff_ne] at hbelow
    rw [← Option.some.inj h]
    exact hbelow.1
  · rw [← Option.some.inj h]
    exact Nat.succ_ne_zero _
  · cases h

/-- Some decimal is found, or zero is written. -/
theorem shortestOf_cases (m : Nat) (q : Int) : (shortestOf m q).coefficient ≠ 0 ∨ shortestOf m q = ⟨0, 0⟩ := by
  unfold shortestOf
  simp only
  cases hfound : ((List.range 17).map _).findSome? (gridPoint? (roundingInterval m q) (q - 2)) with
  | none => exact .inr rfl
  | some d =>
    obtain ⟨e, -, he⟩ := List.exists_of_findSome?_eq_some hfound
    exact .inl (coefficient_strip _ (coefficient_gridPoint? he))

end Double

namespace NumberFormat
open Json (Number Exponent IsWhole)
variable (f : NumberFormat)

theorem fractionChars_of_ne_nil {ds : List Char} (h : ds ≠ []) : Number.fractionChars ds = '.' :: ds := by
  obtain ⟨d, rest, rfl⟩ := List.exists_cons_of_ne_nil h
  rfl

def fraction : List Char := if f.keepsFraction then ['0'] else []

theorem fractionChars_fraction : Number.fractionChars f.fraction = f.fractionMark := by
  rw [fraction, fractionMark]
  split <;> rfl

theorem isDigit_fraction : ∀ c ∈ f.fraction, Json.isDigit c = true := by
  rw [fraction]
  split
  · exact List.forall_mem_singleton.mpr rfl
  · exact List.forall_mem_nil _

theorem isDigit_replicate_zero (k : Nat) : ∀ c ∈ List.replicate k '0', Json.isDigit c = true := by
  intro c hc
  rw [List.eq_of_mem_replicate hc]
  rfl

theorem isDigit_append {xs ys : List Char} (hxs : ∀ c ∈ xs, Json.isDigit c = true)
    (hys : ∀ c ∈ ys, Json.isDigit c = true) : ∀ c ∈ xs ++ ys, Json.isDigit c = true := by
  intro c hc
  exact (List.mem_append.mp hc).elim (hxs c) (hys c)

def exponentOf (e : Int) : Exponent where
  mark := 'e'
  sign := some (!decide (0 ≤ e))
  digits := List.replicate (f.exponentWidth - (Nat.toDigits 10 e.natAbs).length) '0' ++ Nat.toDigits 10 e.natAbs
  isMark := rfl
  nonempty := fun h => Nat.toDigits_ne_nil (List.append_eq_nil_iff.mp h).2
  allDigits := isDigit_append (isDigit_replicate_zero _) (Json.isDigit_toDigits _)

theorem chars_exponentOf (e : Int) : (f.exponentOf e).chars = f.exponentText e := by
  rw [exponentText, Exponent.chars, exponentOf]
  by_cases he : 0 ≤ e
  · rw [if_pos he, decide_eq_true he]
    rfl
  · rw [if_neg he, decide_eq_false he]
    rfl

/-- Zeros may follow the digits of a number that is not zero. -/
theorem isWhole_padded {n k : Nat} (h : n ≠ 0 ∨ k = 0) : IsWhole (Nat.toDigits 10 n ++ List.replicate k '0') := by
  rcases h with hn | rfl
  · obtain ⟨c, rest, hdigits, hc⟩ := Json.head_toDigits hn
    refine .inr ⟨c, rest ++ List.replicate k '0', by rw [hdigits, List.cons_append], hc, ?_⟩
    rw [← List.cons_append, ← hdigits]
    exact isDigit_append (Json.isDigit_toDigits n) (isDigit_replicate_zero k)
  · rw [List.replicate_zero, List.append_nil]
    exact Json.isWhole_toDigits n

/-- The parts of a number without its sign, of a short whole part. -/
structure Spells (cs : List Char) (whole fraction : List Char) (exponent : Option Exponent) : Prop where
  isWhole : IsWhole whole
  allDigits : ∀ c ∈ fraction, Json.isDigit c = true
  short : whole.length ≤ max 1 f.greatestPoint.toNat
  chars_eq : cs = whole ++ (Number.fractionChars fraction ++ Number.exponentChars exponent)

variable {d : Decimal}

theorem isDigit_digits (d : Decimal) : ∀ c ∈ d.digits, Json.isDigit c = true := Json.isDigit_toDigits d.coefficient

theorem spells_below_one (zeros : Nat) (d : Decimal) :
    f.Spells ('0' :: '.' :: (List.replicate zeros '0' ++ d.digits)) ['0'] (List.replicate zeros '0' ++ d.digits)
      none where
  isWhole := .inl rfl
  allDigits := isDigit_append (isDigit_replicate_zero zeros) (isDigit_digits d)
  short := Nat.le_max_left _ _
  chars_eq := by
    have hsome : List.replicate zeros '0' ++ d.digits ≠ [] := fun h =>
      Nat.toDigits_ne_nil (List.append_eq_nil_iff.mp h).2
    rw [fractionChars_of_ne_nil hsome, Number.exponentChars, Option.map_none, Option.getD_none, List.append_nil]
    rfl

theorem spells_integer (h : d.coefficient ≠ 0 ∨ d = ⟨0, 0⟩) (hlong : (d.digits.length : Int) ≤ d.point)
    (hpoint : d.point ≤ f.greatestPoint) :
    f.Spells (d.digits ++ List.replicate (d.point.toNat - d.digits.length) '0' ++ f.fractionMark)
      (d.digits ++ List.replicate (d.point.toNat - d.digits.length) '0') f.fraction none where
  isWhole := by
    apply isWhole_padded
    rcases h with h | rfl
    · exact .inl h
    · exact .inr rfl
  allDigits := f.isDigit_fraction
  short := by
    rw [List.length_append, List.length_replicate]
    omega
  chars_eq := by
    rw [fractionChars_fraction, Number.exponentChars, Option.map_none, Option.getD_none, List.append_nil]

theorem spells_between (hpositive : 0 < d.point) (hlong : d.point < d.digits.length)
    (hpoint : d.point ≤ f.greatestPoint) :
    f.Spells (d.digits.take d.point.toNat ++ '.' :: d.digits.drop d.point.toNat) (d.digits.take d.point.toNat)
      (d.digits.drop d.point.toNat) none where
  isWhole := (Json.isWhole_toDigits d.coefficient).take (by omega)
  allDigits c hc := isDigit_digits d c (List.mem_of_mem_drop hc)
  short := by
    rw [List.length_take]
    omega
  chars_eq := by
    have hrest : d.digits.drop d.point.toNat ≠ [] := by
      rw [Ne, List.drop_eq_nil_iff]
      omega
    rw [fractionChars_of_ne_nil hrest, Number.exponentChars, Option.map_none, Option.getD_none, List.append_nil]

theorem spells_scientific (d : Decimal) : f.Spells (d.digits.take 1 ++ (if (d.digits.drop 1).isEmpty then [] else
    '.' :: d.digits.drop 1) ++ f.exponentText (d.point - 1)) (d.digits.take 1) (d.digits.drop 1)
      (some (f.exponentOf (d.point - 1))) where
  isWhole := (Json.isWhole_toDigits d.coefficient).take Nat.one_pos
  allDigits c hc := isDigit_digits d c (List.mem_of_mem_drop hc)
  short := by
    rw [List.length_take]
    omega
  chars_eq := by
    have hfraction : (if (d.digits.drop 1).isEmpty then [] else '.' :: d.digits.drop 1) =
        Number.fractionChars (d.digits.drop 1) := by
      cases d.digits.drop 1 <;> rfl
    rw [hfraction, Number.exponentChars, Option.map_some, Option.getD_some, chars_exponentOf, List.append_assoc]

theorem exists_spells (h : d.coefficient ≠ 0 ∨ d = ⟨0, 0⟩) : ∃ whole fraction exponent,
    f.Spells (f.positive d) whole fraction exponent := by
  unfold positive
  dsimp only
  by_cases hrange : f.leastPoint ≤ d.point ∧ d.point ≤ f.greatestPoint
  · rw [if_pos hrange]
    by_cases hsmall : d.point ≤ 0
    · rw [if_pos hsmall]
      exact ⟨_, _, _, f.spells_below_one _ d⟩
    · rw [if_neg hsmall]
      by_cases hlong : (d.digits.length : Int) ≤ d.point
      · rw [if_pos hlong]
        exact ⟨_, _, _, f.spells_integer h hlong hrange.2⟩
      · rw [if_neg hlong]
        exact ⟨_, _, _, f.spells_between (Int.not_le.mp hsmall) (Int.not_le.mp hlong) hrange.2⟩
  · rw [if_neg hrange]
    exact ⟨_, _, _, f.spells_scientific d⟩

/-- A finite number is spelled as the grammar has it; as far as it has a whole part alone, it is short. -/
theorem exists_number (negative : Bool) (m : Nat) (q : Int) : ∃ n : Number,
    n.chars = f.chars (.finite negative m q) ∧ n.whole.length ≤ max 1 f.greatestPoint.toNat := by
  rw [chars]
  by_cases hm : m = 0
  · refine ⟨⟨negative && f.signedZero, ['0'], f.fraction, none, .inl rfl, f.isDigit_fraction⟩, ?_, Nat.le_max_left _ _⟩
    rw [if_pos hm, Number.chars, Number.unsignedChars, fractionChars_fraction, Number.exponentChars, Option.map_none,
      Option.getD_none, List.append_nil]
    rfl
  · obtain ⟨whole, fraction, exponent, hspells⟩ := f.exists_spells (Double.shortestOf_cases m q)
    refine ⟨⟨negative, whole, fraction, exponent, hspells.isWhole, hspells.allDigits⟩, ?_, hspells.short⟩
    rw [if_neg hm]
    exact congrArg (sign negative ++ ·) hspells.chars_eq.symm

end NumberFormat
end ClientBindings

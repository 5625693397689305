import ClientBindings.Proofs.Numeric.Respelled
import ClientBindings.Proofs.Numeric.Shortest
import ClientBindings.Wire.Text

/-! Floats on the wire. Program text and wire text are two layouts of the same digits: the one denotes the rational
that the other denotes, and is had from its text alone. -/

namespace ClientBindings

open Json (Number Exponent IsSignificant pointed rational?)
open NumberFormat (respelled)

namespace Json

/-- The shape that browsers give to a number of so many significant digits, with its point at the position. Up to 21
places in front of the point there is no exponent; a fraction does not end with a zero, and there is none if the digits
end in front of the point. Else there is one digit in front of the point, and the exponent has its sign. -/
def Number.IsBrowserShaped (n : Number) (k : Nat) (p : Int) : Prop :=
  if (k : Int) ≤ p ∧ p ≤ 21 then n.fraction = [] ∧ n.exponent = none
  else if -6 < p ∧ p ≤ 21 then n.exponent = none ∧ n.fraction ≠ [] ∧ n.fraction.getLast? ≠ some '0'
  else n.whole.length = 1 ∧ n.whole ≠ ['0'] ∧ n.fraction.getLast? ≠ some '0' ∧ ∃ e, n.exponent = some e ∧
    e.mark = 'e' ∧ e.sign = some (decide (p - 1 < 0)) ∧ e.digits = Nat.toDigits 10 (p - 1).natAbs

theorem isSignificant_toDigits {n : Nat} (hn : n ≠ 0) (hten : n % 10 ≠ 0) : IsSignificant (Nat.toDigits 10 n) where
  nonempty := Nat.toDigits_ne_nil
  allDigits := isDigit_toDigits n
  head := by
    obtain ⟨c, rest, hdigits, hc⟩ := head_toDigits hn
    rw [hdigits]
    exact fun h => hc (Option.some.inj h)
  last := by
    have hlast : (Nat.toDigits 10 n).getLast? = some (n % 10).digitChar := by
      by_cases hsmall : n < 10
      · rw [Nat.toDigits_of_lt_base hsmall, Nat.mod_eq_of_lt hsmall]
        rfl
      · rw [Nat.toDigits_of_base_le (by decide) (Nat.le_of_not_lt hsmall), List.getLast?_concat]
    rw [hlast]
    exact fun h => digitChar_ne_zero _ (Nat.mod_lt n (by decide)) hten (Option.some.inj h)

end Json

namespace NumberFormat

variable {n : Number} {ds : List Char} {p : Int}

theorem isBrowserShaped_of_lays {k : Nat} (hk : 0 < k) (h : wire.Lays n k p) : n.IsBrowserShaped k p := by
  have hleast : wire.leastPoint = -5 := rfl
  have hgreatest : wire.greatestPoint = 21 := rfl
  unfold Lays at h
  unfold Number.IsBrowserShaped
  rw [hleast, hgreatest] at h
  by_cases hrange : -5 ≤ p ∧ p ≤ 21
  · rw [if_pos hrange] at h
    obtain ⟨hexponent, h⟩ := h
    by_cases hlong : (k : Int) ≤ p
    · rw [if_pos hlong] at h
      rw [if_pos ⟨hlong, hrange.2⟩]
      exact ⟨h, hexponent⟩
    · rw [if_neg hlong] at h
      rw [if_neg (by omega), if_pos (by omega)]
      exact ⟨hexponent, h⟩
  · rw [if_neg hrange] at h
    obtain ⟨hwhole, hzero, hfraction, hexponent⟩ := h
    rw [if_neg (by omega), if_neg (by omega)]
    refine ⟨hwhole, hzero, hfraction, _, hexponent, rfl, ?_, ?_⟩
    · show some (!decide (0 ≤ p - 1)) = some (decide (p - 1 < 0))
      by_cases he : 0 ≤ p - 1
      · rw [decide_eq_true he, decide_eq_false (not_lt.mpr he)]
        rfl
      · rw [decide_eq_false he, decide_eq_true (not_le.mp he)]
        rfl
    · exact digits_exponentOf_wire (p - 1)

/-- Any decimal text with a digit other than zero is spelled anew without a change of what it denotes. -/
theorem respelled_denotes (n : Number) (hmark : ∀ e ∈ n.exponent, e.mark = 'e')
    (hdigit : ∃ c ∈ n.whole ++ n.fraction, c ≠ '0') : ∃ (n' : Number) (ds : List Char) (p : Int),
    n'.chars = respelled n.chars ∧ n'.value = n.value ∧ IsSignificant ds ∧ |n.value| = pointed ds p ∧
      n'.IsBrowserShaped ds.length p := by
  obtain ⟨ds, p, hds, hshows⟩ := n.exists_shows hdigit
  obtain ⟨n', hn', hlays⟩ := wire.exists_laid hds n.negative p
  refine ⟨n', ds, p, ?_, ?_, hds, hshows.abs_value, ?_⟩
  · rw [hn'.chars_eq, respelled_chars hshows hds hmark]
  · rw [hn'.shows.value_eq, hshows.value_eq, hn'.negative_eq]
  · exact isBrowserShaped_of_lays (List.length_pos_iff.mpr hds.nonempty) hlays

end NumberFormat

namespace Wire

/-- A float is written with the digits of its program text: the same rational, in the shape of browsers, and nothing but
that text decides on it. -/
theorem stringify_float (negative : Bool) {m : Nat} {q : Int} (h : Double.InFormat m q) :
    ∃ (text : String) (n : Number) (ds : List Char) (p : Int),
      stringify (.float (.finite negative m q)) = .ok text ∧
      rational? (NumberFormat.source.chars (.finite negative m q)) = some n.value ∧
      rational? text.toList = some n.value ∧ n.value ≠ 0 ∧ text.toList = n.chars ∧
      n.chars = respelled (NumberFormat.source.chars (.finite negative m q)) ∧
      IsSignificant ds ∧ |n.value| = pointed ds p ∧ n.IsBrowserShaped ds.length p := by
  obtain ⟨hcoefficient, hten⟩ := Double.coefficient_shortestOf h
  generalize hd : Double.shortestOf m q = d at hcoefficient hten
  have hds : IsSignificant d.digits := Json.isSignificant_toDigits hcoefficient hten
  have hchars : ∀ f : NumberFormat, f.chars (.finite negative m q) =
      NumberFormat.sign negative ++ f.laid d.digits d.point := by
    intro f
    rw [NumberFormat.chars, if_neg h.pos.ne', hd, f.positive_eq]
  -- The digits of the program text are had back from it, whatever they are.
  obtain ⟨printed, hprinted, hlays⟩ := NumberFormat.source.exists_laid hds negative d.point
  have hmark := NumberFormat.mark_of_lays NumberFormat.source hlays
  have hsource : NumberFormat.source.chars (.finite negative m q) = printed.chars := by
    rw [hchars, hprinted.chars_eq]
  obtain ⟨n, ds, p, hrespelled, hvalue, hsignificant, habs, hshape⟩ :=
    NumberFormat.respelled_denotes printed hmark (hprinted.shows.exists_digit hds)
  have hwire : (spelling (.float (.finite negative m q))).toList = n.chars := by
    rw [hrespelled, NumberFormat.respelled_chars hprinted.shows hds hmark, hprinted.negative_eq, ← hchars]
    exact String.toList_ofList
  refine ⟨spelling (.float (.finite negative m q)), n, ds, p, rfl, ?_, ?_, ?_, hwire, ?_, hsignificant, ?_, hshape⟩
  · rw [hsource, printed.rational?_chars, hvalue]
  · rw [hwire, n.rational?_chars]
  · rw [hvalue]
    exact hprinted.shows.value_ne_zero hds
  · rw [hsource, hrespelled]
  · rw [hvalue, habs]

theorem stringify_float_respelled : Double.InFormat 5829761423102577 (-72) ∧
    ∃ (n : Number) (ds : List Char) (p : Int),
      stringify (.float (.finite true 5829761423102577 (-72))) = .ok "-0.0000012345" ∧
      rational? "-1.2345e-06".toList = some n.value ∧ rational? "-0.0000012345".toList = some n.value ∧
      n.value ≠ 0 ∧ "-0.0000012345".toList = n.chars ∧ n.chars = respelled "-1.2345e-06".toList ∧
      IsSignificant ds ∧ |n.value| = pointed ds p ∧ n.IsBrowserShaped ds.length p := by
  have hformat : Double.InFormat 5829761423102577 (-72) := ⟨by decide, by decide, by decide, by decide⟩
  have hsource : NumberFormat.source.chars (.finite true 5829761423102577 (-72)) = "-1.2345e-06".toList := by
    decide +kernel
  have hwire : spelling (.float (.finite true 5829761423102577 (-72))) = "-0.0000012345" := by
    decide +kernel
  obtain ⟨text, n, ds, p, htext, hspelled⟩ := stringify_float true hformat
  obtain rfl : text = "-0.0000012345" := (Except.ok.inj htext).symm.trans hwire
  rw [hsource] at hspelled
  exact ⟨hformat, n, ds, p, htext, hspelled⟩

end Wire

end ClientBindings

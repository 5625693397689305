import ClientBindings.Numeric.Shortest
import ClientBindings.Proofs.Json.Spelling
import Mathlib.Algebra.Order.Field.Power
import Mathlib.Algebra.Order.Field.Rat
import Mathlib.Tactic.Linarith
import Mathlib.Tactic.Positivity
import Mathlib.Tactic.Ring

/-! Seventeen digits suffice. The units of the last grid are less than the interval that rounds to a number is wide,
so one of the neighbours on it lies in the interval. That needs a power of ten no greater than the number, which the
search finds in its four steps down from the estimate. -/

namespace ClientBindings.Double

variable {a n m fuel : Nat} {e q k : Int}

/-! ## Numbers of the format -/

/-- The mantissas and exponents of finite numbers other than zero. -/
structure InFormat (m : Nat) (q : Int) : Prop where
  pos : 0 < m
  mantissa : m < 2 * fullMantissa
  least : leastExponent ≤ q
  greatest : q ≤ 971

theorem rescale_lt {num den bits : Nat} (hden : den ≠ 0)
    (hbits : (num.log2 : Int) + 1 ≤ bits + den.log2 + q) : (rescale num den q).1 < 2 ^ bits * (rescale num den q).2 := by
  have hhigh : num < 2 ^ (num.log2 + 1) := Nat.lt_log2_self
  have hlow : 2 ^ den.log2 ≤ den := Nat.log2_self_le hden
  rw [rescale]
  split
  · calc num < 2 ^ (num.log2 + 1) := hhigh
      _ ≤ 2 ^ (bits + den.log2 + q.toNat) := Nat.pow_le_pow_right (by decide) (by omega)
      _ = 2 ^ bits * (2 ^ den.log2 * 2 ^ q.toNat) := by rw [Nat.pow_add, Nat.pow_add, Nat.mul_assoc]
      _ ≤ 2 ^ bits * (den * 2 ^ q.toNat) := Nat.mul_le_mul_left _ (Nat.mul_le_mul_right _ hlow)
  · calc num * 2 ^ (-q).toNat < 2 ^ (num.log2 + 1) * 2 ^ (-q).toNat := Nat.mul_lt_mul_of_pos_right hhigh (Nat.two_pow_pos _)
      _ = 2 ^ (num.log2 + 1 + (-q).toNat) := (Nat.pow_add ..).symm
      _ ≤ 2 ^ (bits + den.log2) := Nat.pow_le_pow_right (by decide) (by omega)
      _ = 2 ^ bits * 2 ^ den.log2 := Nat.pow_add ..
      _ ≤ 2 ^ bits * den := Nat.mul_le_mul_left _ hlow

theorem rescale_pos {num den : Nat} (hden : den ≠ 0) : 0 < (rescale num den q).2 := by
  have hpos : 0 < den := Nat.pos_of_ne_zero hden
  rw [rescale]
  split
  · exact Nat.mul_pos hpos (Nat.two_pow_pos _)
  · exact hpos

theorem roundQuotient_le {num den bound : Nat} (h : num < bound * den) : roundQuotient num den ≤ bound := by
  have hquotient : num / den < bound := Nat.div_lt_of_lt_mul (Nat.mul_comm bound den ▸ h)
  rw [roundQuotient]
  split <;> omega

/-- What is rounded is a number of the format. -/
theorem inFormat_ofRatio {negative s : Bool} {num den : Nat} (h : ofRatio negative num den = .finite s m q) (hm : m ≠ 0) :
    InFormat m q := by
  have hbits : 2 * fullMantissa = 2 ^ 53 := rfl
  unfold ofRatio at h
  dsimp only at h
  split at h
  · rw [zero, Double.finite.injEq] at h
    exact absurd h.2.1.symm hm
  rename_i hne
  obtain ⟨hnum, hden⟩ := not_or.mp hne
  generalize hlow : max ((num.log2 : Int) - den.log2 - 53) leastExponent = low at h
  generalize hq : (if (rescale num den low).1 / (rescale num den low).2 < 2 * fullMantissa then low else low + 1) = q' at h
  have hleast : leastExponent ≤ q' := by
    split at hq <;> omega
  have hround : roundQuotient (rescale num den q').1 (rescale num den q').2 ≤ 2 * fullMantissa := by
    apply roundQuotient_le
    split at hq
    · rename_i hnarrow
      rw [← hq, ← Nat.div_lt_iff_lt_mul (rescale_pos hden)]
      exact hnarrow
    · rw [hbits]
      exact rescale_lt hden (by omega)
  generalize roundQuotient (rescale num den q').1 (rescale num den q').2 = rounded at h hround
  have hsettled : ∀ {m' : Nat} {e' : Int}, (if m' = 0 then zero negative else if 971 < e' then .infinite negative
      else .finite negative m' e') = .finite s m q → m' = m ∧ e' = q ∧ e' ≤ 971 := by
    intro m' e' heq
    split at heq
    · rw [zero, Double.finite.injEq] at heq
      exact absurd heq.2.1.symm hm
    split at heq
    · cases heq
    · rename_i hgreatest
      rw [Double.finite.injEq] at heq
      exact ⟨heq.2.1, heq.2.2, not_lt.mp hgreatest⟩
  split at h
  · obtain ⟨rfl, rfl, hgreatest⟩ := hsettled h
    have hfull : 0 < fullMantissa ∧ fullMantissa < 2 * fullMantissa := by decide
    exact ⟨hfull.1, hfull.2, by omega, hgreatest⟩
  · rename_i hfull
    obtain ⟨rfl, rfl, hgreatest⟩ := hsettled h
    exact ⟨Nat.pos_of_ne_zero hm, by omega, hleast, hgreatest⟩

/-! ## Comparisons across bases -/

theorem zpow_mul_pow_toNat {b : ℚ} (hb : b ≠ 0) (e : Int) : b ^ e * b ^ (-e).toNat = b ^ e.toNat := by
  rw [← zpow_natCast b (-e).toNat, ← zpow_natCast b e.toNat, ← zpow_add₀ hb]
  congr 1
  omega

/-- Both sides are multiplied by one positive number. -/
theorem exists_crossScale (a : Nat) (e : Int) (n : Nat) (q : Int) : ∃ s : ℚ, 0 < s ∧
    ((crossScale a e n q).1 : ℚ) = a * 10 ^ e * s ∧ ((crossScale a e n q).2 : ℚ) = n * 2 ^ q * s := by
  refine ⟨10 ^ (-e).toNat * 2 ^ (-q).toNat, by positivity, ?_, ?_⟩
  · show ((a * Nat.pow 10 e.toNat * Nat.pow 2 (-q).toNat : Nat) : ℚ) = _
    have hten := zpow_mul_pow_toNat (b := 10) (by norm_num) e
    simp only [Nat.pow_eq, Nat.cast_mul, Nat.cast_pow, Nat.cast_ofNat]
    rw [← hten]
    ring
  · show ((n * Nat.pow 2 q.toNat * Nat.pow 10 (-e).toNat : Nat) : ℚ) = _
    have htwo := zpow_mul_pow_toNat (b := 2) (by norm_num) q
    simp only [Nat.pow_eq, Nat.cast_mul, Nat.cast_pow, Nat.cast_ofNat]
    rw [← htwo]
    ring

theorem crossScale_le_iff : (crossScale a e n q).1 ≤ (crossScale a e n q).2 ↔ (a : ℚ) * 10 ^ e ≤ n * 2 ^ q := by
  obtain ⟨s, hs, hleft, hright⟩ := exists_crossScale a e n q
  rw [← @Nat.cast_le ℚ, hleft, hright, mul_le_mul_iff_of_pos_right hs]

theorem crossScale_lt_iff : (crossScale a e n q).1 < (crossScale a e n q).2 ↔ (a : ℚ) * 10 ^ e < n * 2 ^ q := by
  obtain ⟨s, hs, hleft, hright⟩ := exists_crossScale a e n q
  rw [← @Nat.cast_lt ℚ, hleft, hright, mul_lt_mul_iff_of_pos_right hs]

/-! ## A power of ten below a number -/

theorem floorLog10_le (h : (10 : ℚ) ^ (k - fuel) ≤ n * 2 ^ q) : (10 : ℚ) ^ floorLog10 n q fuel k ≤ n * 2 ^ q := by
  induction fuel generalizing k with
  | zero => simpa [floorLog10] using h
  | succ fuel ih =>
    rw [floorLog10]
    show (10 : ℚ) ^ (if (crossScale 1 k n q).1 ≤ (crossScale 1 k n q).2 then k else _) ≤ _
    split
    case isTrue hle => simpa using crossScale_le_iff.mp hle
    case isFalse =>
      apply ih
      have hexponent : k - 1 - (fuel : Int) = k - ((fuel + 1 : Nat) : Int) := by
        push_cast
        ring
      rwa [hexponent]

/-- Where the search begins, for a number that is at least the power of two. -/
def estimate (exponent : Int) : Int := (exponent + 1) * 30103 / 100000 + 1

/-- A power of ten against the least power of two that has it four steps below the estimate. -/
theorem ten_pow_le (hlow : -350 ≤ k) (hhigh : k < 350) : (10 : ℚ) ^ k ≤ 2 ^ ((k + 3) * 100000 / 30103 - 1) := by
  have hall : ∀ j : Nat, j < 700 →
      (crossScale 1 (j - 350) 1 (((j : Int) - 350 + 3) * 100000 / 30103 - 1)).1 ≤
        (crossScale 1 (j - 350) 1 (((j : Int) - 350 + 3) * 100000 / 30103 - 1)).2 := by
    decide +kernel
  have hk : (((k + 350).toNat : Nat) : Int) - 350 = k := by omega
  have hle := crossScale_le_iff.mp (hall (k + 350).toNat (by omega))
  rw [hk] at hle
  simpa using hle

theorem estimate_le (hlow : -1100 ≤ e) (hhigh : e < 1100) : (10 : ℚ) ^ (estimate e - 4) ≤ 2 ^ e := by
  have hle : (estimate e - 4 + 3) * 100000 / 30103 - 1 ≤ e := by
    unfold estimate
    omega
  calc (10 : ℚ) ^ (estimate e - 4) ≤ 2 ^ ((estimate e - 4 + 3) * 100000 / 30103 - 1) := by
        apply ten_pow_le
        all_goals
          unfold estimate
          omega
    _ ≤ 2 ^ e := zpow_le_zpow_right₀ (by norm_num) hle

/-! ## A grid that is fine enough -/

variable {i : RoundingInterval}

theorem contains_of_lt {d : Decimal} (hlow : (i.low : ℚ) * 2 ^ q < d.coefficient * 10 ^ d.exponent)
    (hhigh : (d.coefficient : ℚ) * 10 ^ d.exponent < i.high * 2 ^ q) : i.contains q d = true := by
  have hbelow : (crossScale d.coefficient d.exponent i.low q).2 < (crossScale d.coefficient d.exponent i.low q).1 := by
    rw [← not_le, crossScale_le_iff, not_le]
    exact hlow
  have habove := crossScale_lt_iff.mpr hhigh
  unfold RoundingInterval.contains
  dsimp only
  split
  · simp [hbelow.le, habove.le]
  · simp [hbelow, habove]

/-- The neighbours of a number on a grid. -/
theorem floor_bounds (e : Int) (n : Nat) (q : Int) :
    (((crossScale 1 e n q).2 / (crossScale 1 e n q).1 : Nat) : ℚ) * 10 ^ e ≤ n * 2 ^ q ∧
      (n : ℚ) * 2 ^ q < (((crossScale 1 e n q).2 / (crossScale 1 e n q).1 + 1 : Nat) : ℚ) * 10 ^ e := by
  obtain ⟨s, hs, hunit, hvalue⟩ := exists_crossScale 1 e n q
  rw [Nat.cast_one, one_mul] at hunit
  generalize crossScale 1 e n q = scaled at hunit hvalue ⊢
  have hpositive : 0 < scaled.1 := by
    rw [← @Nat.cast_pos ℚ, hunit]
    positivity
  have hbelow : ((scaled.2 / scaled.1 * scaled.1 : Nat) : ℚ) ≤ scaled.2 := Nat.cast_le.mpr (Nat.div_mul_le_self _ _)
  have habove : (scaled.2 : ℚ) < ((scaled.2 / scaled.1 + 1) * scaled.1 : Nat) := by
    apply Nat.cast_lt.mpr
    rw [Nat.add_mul, Nat.one_mul]
    exact Nat.lt_div_mul_add hpositive
  rw [Nat.cast_mul, hunit, hvalue, ← mul_assoc] at hbelow habove
  exact ⟨le_of_mul_le_mul_right hbelow hs, lt_of_mul_lt_mul_right habove hs.le⟩

theorem of_gridPoint?_eq_none (h : gridPoint? i q e = none) :
    ((crossScale 1 e i.value q).2 / (crossScale 1 e i.value q).1 = 0 ∨
      i.contains q ⟨(crossScale 1 e i.value q).2 / (crossScale 1 e i.value q).1, e⟩ = false) ∧
    i.contains q ⟨(crossScale 1 e i.value q).2 / (crossScale 1 e i.value q).1 + 1, e⟩ = false := by
  unfold gridPoint? at h
  dsimp only at h
  split at h
  · split at h <;> cases h
  · cases h
  · cases h
  · rename_i hbelow habove
    rw [Bool.and_eq_false_iff, bne_eq_false_iff_eq] at hbelow
    exact ⟨hbelow, habove⟩

/-- If the units of a grid are less than the interval is wide, a neighbour of the value lies in the interval. -/
theorem gridPoint?_ne_none (hlow : i.low < i.value) (hhigh : i.value < i.high)
    (hunit : (10 : ℚ) ^ e < ((i.high : ℚ) - i.low) * 2 ^ q) : gridPoint? i q e ≠ none := by
  intro hnone
  obtain ⟨hbelow, habove⟩ := of_gridPoint?_eq_none hnone
  obtain ⟨hfloor, hnext⟩ := floor_bounds e i.value q
  generalize (crossScale 1 e i.value q).2 / (crossScale 1 e i.value q).1 = floor at hbelow habove hfloor hnext
  have hunits : (0 : ℚ) < 2 ^ q := by positivity
  have hlow' : (i.low : ℚ) * 2 ^ q < i.value * 2 ^ q := mul_lt_mul_of_pos_right (Nat.cast_lt.mpr hlow) hunits
  have hhigh' : (i.value : ℚ) * 2 ^ q < i.high * 2 ^ q := mul_lt_mul_of_pos_right (Nat.cast_lt.mpr hhigh) hunits
  have hfirst : (floor : ℚ) * 10 ^ e ≤ i.low * 2 ^ q := by
    rcases hbelow with rfl | hbelow
    · rw [Nat.cast_zero, zero_mul]
      positivity
    · by_contra hinside
      have hcontains : i.contains q ⟨floor, e⟩ = true := contains_of_lt (not_le.mp hinside) (hfloor.trans_lt hhigh')
      rw [hcontains] at hbelow
      cases hbelow
  have hlast : (i.high : ℚ) * 2 ^ q ≤ (floor + 1 : Nat) * 10 ^ e := by
    by_contra hinside
    have hcontains : i.contains q ⟨floor + 1, e⟩ = true := contains_of_lt (hlow'.trans hnext) (not_le.mp hinside)
    rw [hcontains] at habove
    cases habove
  push_cast at hlast
  linarith

/-! ## Seventeen digits -/

theorem strip_mod (d : Decimal) (h : d.coefficient ≠ 0) (hfuel : d.coefficient < 2 ^ (fuel + 1)) :
    (d.strip fuel).coefficient % 10 ≠ 0 := by
  induction fuel generalizing d with
  | zero =>
    rw [Decimal.strip]
    omega
  | succ fuel ih =>
    rw [Decimal.strip]
    split
    · rename_i hten
      apply ih
      · show d.coefficient / 10 ≠ 0
        omega
      · show d.coefficient / 10 < 2 ^ (fuel + 1)
        rw [Nat.pow_succ] at hfuel
        omega
    · rename_i hten
      exact fun hmod => hten ⟨h, hmod⟩

theorem coefficient_normalize (d : Decimal) (h : d.coefficient ≠ 0) :
    d.normalize.coefficient ≠ 0 ∧ d.normalize.coefficient % 10 ≠ 0 :=
  ⟨coefficient_strip _ h, strip_mod d h Nat.lt_log2_self⟩

theorem low_lt_value (hm : 0 < m) (e : Int) : (roundingInterval m e).low < (roundingInterval m e).value := by
  unfold roundingInterval
  dsimp only
  split <;> omega

theorem value_lt_high (m : Nat) (e : Int) : (roundingInterval m e).value < (roundingInterval m e).high :=
  Nat.lt_add_of_pos_right (by decide)

/-- The units of the last grid, for a power of ten that is no greater than the number. -/
theorem unit_lt (hm : 0 < m) (hfull : m < 2 * fullMantissa) (hk : (10 : ℚ) ^ k ≤ (roundingInterval m e).value * 2 ^ q) :
    (10 : ℚ) ^ (k - 16) < (((roundingInterval m e).high : ℚ) - (roundingInterval m e).low) * 2 ^ q := by
  have hunits : (0 : ℚ) < 2 ^ q := by positivity
  have hwide : (roundingInterval m e).value + 10 ^ 16 * (roundingInterval m e).low <
      10 ^ 16 * (roundingInterval m e).high := by
    have hfullMantissa : fullMantissa = 4503599627370496 := rfl
    unfold roundingInterval
    dsimp only
    split <;> omega
  have hwide' : ((roundingInterval m e).value : ℚ) < 10 ^ 16 * (((roundingInterval m e).high : ℚ) - (roundingInterval m e).low) := by
    have hcast : (((roundingInterval m e).value + 10 ^ 16 * (roundingInterval m e).low : Nat) : ℚ) <
        (10 ^ 16 * (roundingInterval m e).high : Nat) := Nat.cast_lt.mpr hwide
    push_cast at hcast
    linarith
  have hsplit : (10 : ℚ) ^ (k - 16) = 10 ^ k / 10 ^ 16 := zpow_sub₀ (by norm_num) k 16
  rw [hsplit, div_lt_iff₀ (by positivity)]
  calc (10 : ℚ) ^ k ≤ (roundingInterval m e).value * 2 ^ q := hk
    _ < 10 ^ 16 * (((roundingInterval m e).high : ℚ) - (roundingInterval m e).low) * 2 ^ q :=
      mul_lt_mul_of_pos_right hwide' hunits
    _ = ((roundingInterval m e).high - (roundingInterval m e).low) * 2 ^ q * 10 ^ 16 := by ring

/-- The shortest decimal of a number other than zero has a digit and does not end with a zero. -/
theorem coefficient_shortestOf (h : InFormat m e) :
    (shortestOf m e).coefficient ≠ 0 ∧ (shortestOf m e).coefficient % 10 ≠ 0 := by
  obtain ⟨hm, hfull, hlow, hhigh⟩ := h
  let i := roundingInterval m e
  let top := floorLog10 i.value (e - 2) 4 (estimate ((i.value.log2 : Int) + (e - 2)))
  have hvalue : i.value = 4 * m := rfl
  -- The search begins less than four steps above the power of two that the logarithm gives.
  have hpower : (10 : ℚ) ^ top ≤ i.value * 2 ^ (e - 2) := by
    have hne : i.value ≠ 0 := by omega
    have hlog : i.value.log2 < 55 := by
      rw [Nat.log2_lt hne]
      have hfullMantissa : fullMantissa = 4503599627370496 := rfl
      omega
    have hleast : leastExponent = -1074 := rfl
    have htwo : ((2 ^ i.value.log2 : Nat) : ℚ) ≤ i.value := Nat.cast_le.mpr (Nat.log2_self_le hne)
    apply floorLog10_le
    calc (10 : ℚ) ^ (estimate ((i.value.log2 : Int) + (e - 2)) - 4)
      _ ≤ 2 ^ ((i.value.log2 : Int) + (e - 2)) := estimate_le (by omega) (by omega)
      _ = (2 ^ i.value.log2 : Nat) * 2 ^ (e - 2) := by
        rw [zpow_add₀ (by norm_num), zpow_natCast]
        push_cast
        rfl
      _ ≤ i.value * 2 ^ (e - 2) := mul_le_mul_of_nonneg_right htwo (by positivity)
  -- On coarser grids nothing may be found, but the last one is fine enough.
  have hfound : ((List.range 17).map fun (n : Nat) => top - (n : Int)).findSome? (gridPoint? i (e - 2)) ≠ none := by
    rw [Ne, List.findSome?_eq_none_iff]
    intro hnone
    have hlast : top - 16 ∈ (List.range 17).map fun (n : Nat) => top - (n : Int) :=
      List.mem_map.mpr ⟨16, List.mem_range.mpr (by decide), rfl⟩
    exact gridPoint?_ne_none (low_lt_value hm e) (value_lt_high m e) (unit_lt hm hfull hpower) (hnone _ hlast)
  obtain ⟨d, hd⟩ := Option.ne_none_iff_exists'.mp hfound
  obtain ⟨grid, -, hgrid⟩ := List.exists_of_findSome?_eq_some hd
  have hshortest : shortestOf m e = d.normalize :=
    congrArg (fun found => (found.getD ⟨0, 0⟩).normalize) hd
  rw [hshortest]
  exact coefficient_normalize d (coefficient_gridPoint? hgrid)

end ClientBindings.Double

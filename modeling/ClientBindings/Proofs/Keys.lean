import ClientBindings.Proofs.Entries

/-! Values that can be keys. Comparing them is symmetric and transitive, so a key is found under whatever is the
same; only numbers that are none are not the same as themselves. -/

namespace ClientBindings.Value

variable {a b c k : Value}

theorem same_scalar_iff {s t : Scalar} :
    same (.scalar s) (.scalar t) = true ↔ s.same t = true ∧ isNaN (.scalar s) = false := by
  rw [same, Bool.and_eq_true, Bool.not_eq_true']

theorem isNaN_of_same {s t : Scalar} (h : s.same t = true) : isNaN (.scalar s) = isNaN (.scalar t) := by
  rcases Scalar.same_iff.mp h with rfl | ⟨n, hs, ht⟩
  · rfl
  · have hwhole : ∀ r : Scalar, r.whole? = some n → isNaN (.scalar r) = false := by
      intro r hr
      unfold isNaN
      split
      case h_1 heq =>
        obtain rfl := Value.scalar.inj heq
        cases hr
      case h_2 => rfl
    rw [hwhole s hs, hwhole t ht]

mutual
theorem same_symm : ∀ {a b : Value}, a.isKey = true → a.same b = true → b.same a = true
  | .scalar s, b, _, h => by
    cases b with
    | scalar t =>
      obtain ⟨hst, hnumber⟩ := same_scalar_iff.mp h
      exact same_scalar_iff.mpr ⟨Scalar.same_equivalence.symm hst, isNaN_of_same hst ▸ hnumber⟩
    | _ => exact nomatch h
  | .tuple xs, b, ha, h => by
    cases b with
    | tuple ys =>
      rw [same] at h ⊢
      exact sameItems_symm ha h
    | _ => exact nomatch h
  | .source _ _, _, _, h | .signal _, _, _, h => nomatch h
theorem sameItems_symm : ∀ {xs ys : List Value}, areKeys xs = true → sameItems xs ys = true → sameItems ys xs = true
  | [], [], _, _ => rfl
  | x :: xs, y :: ys, hkeys, h => by
    rw [areKeys, Bool.and_eq_true] at hkeys
    rw [sameItems, Bool.and_eq_true] at h ⊢
    exact ⟨same_symm hkeys.1 h.1, sameItems_symm hkeys.2 h.2⟩
end

mutual
theorem same_trans : ∀ {a b c : Value}, a.isKey = true → a.same b = true → b.same c = true → a.same c = true
  | .scalar s, b, c, _, hab, hbc => by
    cases b with
    | scalar t =>
      cases c with
      | scalar r =>
        obtain ⟨hst, hnumber⟩ := same_scalar_iff.mp hab
        exact same_scalar_iff.mpr ⟨Scalar.same_equivalence.trans hst (same_scalar_iff.mp hbc).1, hnumber⟩
      | _ => exact nomatch hbc
    | _ => exact nomatch hab
  | .tuple xs, b, c, ha, hab, hbc => by
    cases b with
    | tuple ys =>
      cases c with
      | tuple zs =>
        rw [same] at hab hbc ⊢
        exact sameItems_trans ha hab hbc
      | _ => exact nomatch hbc
    | _ => exact nomatch hab
  | .source _ _, _, _, _, h, _ | .signal _, _, _, _, h, _ => nomatch h
theorem sameItems_trans : ∀ {xs ys zs : List Value}, areKeys xs = true → sameItems xs ys = true →
    sameItems ys zs = true → sameItems xs zs = true
  | [], [], [], _, _, _ => rfl
  | x :: xs, y :: ys, z :: zs, hkeys, hxy, hyz => by
    rw [areKeys, Bool.and_eq_true] at hkeys
    rw [sameItems, Bool.and_eq_true] at hxy hyz ⊢
    exact ⟨same_trans hkeys.1 hxy.1 hyz.1, sameItems_trans hkeys.2 hxy.2 hyz.2⟩
end

mutual
theorem isKey_of_same : ∀ {a b : Value}, b.isKey = true → a.same b = true → a.isKey = true
  | a, .scalar t, _, h => by
    cases a with
    | scalar s => rfl
    | _ => exact nomatch h
  | a, .tuple ys, hb, h => by
    cases a with
    | tuple xs =>
      rw [same] at h
      exact areKeys_of_same hb h
    | _ => exact nomatch h
  | a, .source _ _, _, h | a, .signal _, _, h => by cases a <;> exact nomatch h
theorem areKeys_of_same : ∀ {xs ys : List Value}, areKeys ys = true → sameItems xs ys = true → areKeys xs = true
  | [], [], _, _ => rfl
  | x :: xs, y :: ys, hkeys, h => by
    rw [areKeys, Bool.and_eq_true] at hkeys ⊢
    rw [sameItems, Bool.and_eq_true] at h
    exact ⟨isKey_of_same hkeys.1 h.1, areKeys_of_same hkeys.2 h.2⟩
end

theorem separates_of_isKey (hk : k.isKey = true) : Entries.Separates Value.same k where
  congr := by
    intro a b hab
    rw [Bool.eq_iff_iff]
    constructor
    · intro hak
      have ha := isKey_of_same hk hak
      exact same_trans (isKey_of_same ha (same_symm ha hab)) (same_symm ha hab) hak
    · intro hbk
      exact same_trans (isKey_of_same (isKey_of_same hk hbk) hab) hab hbk
  join := by
    intro a b hak hbk
    exact same_trans (isKey_of_same hk hak) hak (same_symm (isKey_of_same hk hbk) hbk)

end ClientBindings.Value

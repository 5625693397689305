import Mathlib.Data.List.Induction
import Mathlib.Data.List.Nodup

/-! Lists without later repetitions, what occurs standing where it does so first. -/

namespace ClientBindings

variable {α β : Type} [BEq α] [LawfulBEq α] [BEq β] [LawfulBEq β]

theorem eraseDups_concat (xs : List α) (x : α) :
    (xs ++ [x]).eraseDups = if xs.contains x then xs.eraseDups else xs.eraseDups ++ [x] := by
  rw [List.eraseDups_append, List.removeAll, List.filter_singleton, List.elem_eq_contains]
  cases xs.contains x with
  | true => exact List.append_nil _
  | false => rfl

theorem nodup_eraseDups (xs : List α) : xs.eraseDups.Nodup := by
  induction xs using List.reverseRecOn with
  | nil => exact List.nodup_nil
  | append_singleton xs x ih =>
    rw [eraseDups_concat]
    split
    case isTrue => exact ih
    case isFalse hnew =>
      refine List.nodup_append.mpr ⟨ih, List.nodup_singleton x, ?_⟩
      rintro y hy _ hx rfl
      rw [List.mem_singleton.mp hx] at hy
      exact hnew (List.contains_iff_mem.mpr (List.mem_eraseDups.mp hy))

/-- What is told apart after a change is what was told apart before. -/
theorem eraseDups_map {f : α → β} {xs : List α} (h : ∀ x ∈ xs, ∀ y ∈ xs, f x = f y → x = y) :
    (xs.map f).eraseDups = xs.eraseDups.map f := by
  induction xs using List.reverseRecOn with
  | nil => rfl
  | append_singleton xs x ih =>
    have hmem : ∀ {y}, y ∈ xs → y ∈ xs ++ [x] := List.mem_append_left [x]
    have hcontains : (xs.map f).contains (f x) = xs.contains x := by
      rw [Bool.eq_iff_iff, List.contains_iff_mem, List.contains_iff_mem, List.mem_map]
      constructor
      · rintro ⟨y, hy, heq⟩
        rwa [← h y (hmem hy) x (by simp) heq]
      · exact fun hx => ⟨x, hx, rfl⟩
    rw [List.map_append, List.map_singleton, eraseDups_concat, eraseDups_concat, hcontains,
      ih fun y hy z hz => h y (hmem hy) z (hmem hz)]
    split
    · rfl
    · rw [List.map_append, List.map_singleton]

end ClientBindings

import ClientBindings.Text.FreshName
import Mathlib.Data.List.Perm.Subperm
import Mathlib.Data.List.Nodup
import Mathlib.Data.Nat.Digits.Defs

/-! A fresh name is new, and it is the wanted name with at most the least number behind it that makes it
so. Names that are claimed one after another differ from each other therefore. -/

namespace ClientBindings

theorem numbered_injective (name : String) : Function.Injective (numbered name) := by
  intro m n h
  have hdigits : Nat.toDigits 10 (m + 2) = Nat.toDigits 10 (n + 2) := by
    simpa [numbered, toString] using congrArg String.toList h
  have hvalue := congrArg (Nat.ofDigitChars 10 · 0) hdigits
  simp only [Nat.ofDigitChars_ten_toDigits] at hvalue
  omega

/-- One of more numbered names than there are taken ones is free. -/
theorem exists_numbered_free (taken : List String) (name : String) :
    ∃ n < taken.length + 1, numbered name n ∉ taken := by
  by_contra hall
  simp only [not_exists, not_and, not_not] at hall
  have hsub : (List.range (taken.length + 1)).map (numbered name) ⊆ taken := by
    intro c hc
    obtain ⟨n, hn, rfl⟩ := List.mem_map.mp hc
    exact hall n (List.mem_range.mp hn)
  have hnodup := (List.nodup_range (n := taken.length + 1)).map (numbered_injective name)
  have hlen := (hnodup.subperm hsub).length_le
  simp at hlen

theorem freshName_of_not_mem {taken : List String} {name : String} (h : name ∉ taken) : freshName taken name = name := by
  simp [freshName, h]

theorem freshName_of_mem {taken : List String} {name : String} (h : name ∈ taken) : ∃ n,
    freshName taken name = numbered name n ∧ numbered name n ∉ taken ∧ ∀ m < n, numbered name m ∈ taken := by
  obtain ⟨k, hk, hfree⟩ := exists_numbered_free taken name
  rw [freshName, if_neg (by simpa using h), List.find?_map]
  cases hfind : (List.range (taken.length + 1)).find? ((fun c => !taken.contains c) ∘ numbered name) with
  | none =>
    have hnone := List.find?_eq_none.mp hfind k (List.mem_range.mpr hk)
    simp [hfree] at hnone
  | some n =>
    obtain ⟨hn, _, hfirst⟩ := List.find?_range_eq_some.mp hfind
    exact ⟨n, rfl, by simpa using hn, fun m hm => by simpa using hfirst m hm⟩

/-- The wanted name where it is free, else a numbered one that is. -/
theorem freshName_cases (taken : List String) (name : String) :
    (name ∉ taken ∧ freshName taken name = name) ∨
    (name ∈ taken ∧ ∃ n, freshName taken name = numbered name n ∧ numbered name n ∉ taken) := by
  by_cases hmem : name ∈ taken
  · obtain ⟨n, heq, hfree, _⟩ := freshName_of_mem hmem
    exact .inr ⟨hmem, n, heq, hfree⟩
  · exact .inl ⟨hmem, freshName_of_not_mem hmem⟩

theorem freshName_not_mem (taken : List String) (name : String) : freshName taken name ∉ taken := by
  rcases freshName_cases taken name with ⟨hfree, heq⟩ | ⟨_, n, heq, hfree⟩
  · rw [heq]; exact hfree
  · rw [heq]; exact hfree

/-! ## The search for a free name -/

/-- A candidate that is taken gives way to the name with the next number, and the first one that is free
is the result. Nothing bounds the search but that it ends. -/
inductive Search (taken : List String) (name : String) : String → Nat → String → Prop
  | free {candidate : String} {next : Nat} : candidate ∉ taken → Search taken name candidate next candidate
  | step {candidate result : String} {next : Nat} : candidate ∈ taken →
      Search taken name (name ++ toString next) (next + 1) result → Search taken name candidate next result

theorem search_numbered {taken : List String} {name : String} {n : Nat} (hfree : numbered name n ∉ taken)
    (htaken : ∀ m < n, numbered name m ∈ taken) : Search taken name (numbered name 0) 3 (numbered name n) := by
  suffices hfrom : ∀ rest k, k + rest = n → Search taken name (numbered name k) (k + 3) (numbered name n) from
    hfrom n 0 (Nat.zero_add n)
  intro rest
  induction rest with
  | zero =>
    rintro k rfl
    exact .free hfree
  | succ rest ih =>
    intro k hk
    exact .step (htaken k (by omega)) (ih (k + 1) (by omega))

theorem search_freshName (taken : List String) (name : String) : Search taken name name 2 (freshName taken name) := by
  by_cases hmem : name ∈ taken
  · obtain ⟨n, heq, hfree, htaken⟩ := freshName_of_mem hmem
    rw [heq]
    exact .step hmem (search_numbered hfree htaken)
  · rw [freshName_of_not_mem hmem]
    exact .free hmem

/-! ## Names claimed one after another -/

/-- How a name is answered when some are taken. -/
structure IsFresh (taken : List String) (name fresh : String) : Prop where
  found : Search taken name name 2 fresh
  free : fresh ∉ taken
  wanted : name ∉ taken → fresh = name
  least : name ∈ taken → ∃ n, 2 ≤ n ∧ fresh = name ++ toString n ∧
    ∀ m, 2 ≤ m → m < n → name ++ toString m ∈ taken

theorem isFresh_freshName (taken : List String) (name : String) : IsFresh taken name (freshName taken name) where
  found := search_freshName taken name
  free := freshName_not_mem taken name
  wanted := freshName_of_not_mem
  least hmem := by
    obtain ⟨n, heq, _, htaken⟩ := freshName_of_mem hmem
    refine ⟨n + 2, by omega, heq, fun m hm hlt => ?_⟩
    obtain ⟨k, rfl⟩ := Nat.exists_eq_add_of_le' hm
    exact htaken k (by omega)

/-- The answers to a sequence of names; an answer is taken from then on. -/
inductive Claimed : List String → List String → List String → Prop
  | nil {taken : List String} : Claimed taken [] []
  | cons {taken names answers : List String} {name fresh : String} : IsFresh taken name fresh →
      Claimed (fresh :: taken) names answers → Claimed taken (name :: names) (fresh :: answers)

namespace Claimed
variable {taken names answers : List String}

theorem length_eq (h : Claimed taken names answers) : answers.length = names.length := by
  induction h with
  | nil => rfl
  | cons _ _ ih => rw [List.length_cons, List.length_cons, ih]

theorem not_mem (h : Claimed taken names answers) : ∀ n ∈ answers, n ∉ taken := by
  induction h with
  | nil => exact fun n hn => absurd hn List.not_mem_nil
  | cons hfresh _ ih =>
    intro n hn
    rcases List.mem_cons.mp hn with rfl | hn
    · exact hfresh.free
    · exact fun hmem => ih n hn (List.mem_cons_of_mem _ hmem)

theorem nodup (h : Claimed taken names answers) : answers.Nodup := by
  induction h with
  | nil => exact List.nodup_nil
  | cons _ hrest ih => exact List.nodup_cons.mpr ⟨fun hmem => hrest.not_mem _ hmem List.mem_cons_self, ih⟩

end Claimed

end ClientBindings

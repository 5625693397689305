import ClientBindings.Document.Reference
import ClientBindings.Proofs.Runs

/-! Following references. A node leads to a value in as many steps as there are references on the way,
and resolving takes one step at most. So what a node leads to is what it resolves to as long as no
reference designates another one; at the second one resolving stops. -/

namespace ClientBindings.Reference
variable {document node next v : Data} {ref : String} {n : Nat}

theorem isReference_of_find? {d : Data} (h : node.find? "$ref" = some d) : node.isReference = true := by
  cases node with
  | map entries =>
    simp only [Data.find?, Entries.find?, Option.map_eq_some_iff] at h
    obtain ⟨e, he, -⟩ := h
    simp only [Data.isReference, Entries.contains, List.any_eq_true]
    exact ⟨e, List.mem_of_find?_eq_some he, by simpa using List.find?_some he⟩
  | _ => simp [Data.find?] at h

theorem resolve_of_find? (h : node.find? "$ref" = some (.str ref)) :
    resolve document node = lookup document ref := by
  simp [resolve, isReference_of_find? h, h]

theorem resolve_of_not_isReference (h : node.isReference = false) : resolve document node = .ok node := by
  unfold resolve
  rw [h]
  rfl

/-- What designates something has a name. -/
theorem exists_name (h : lookup document ref = .ok v) : ∃ base, name ref = .ok base := by
  obtain ⟨path, hpath, -⟩ := Result.bind_eq_ok_iff.mp h
  simp only [name]
  split
  · split
    · exact ⟨_, Result.bind_eq_ok_iff.mpr ⟨path, hpath, rfl⟩⟩
    · exact ⟨_, rfl⟩
  · exact ⟨_, rfl⟩

/-- References lead from a node to a value that is none, in so many steps. -/
inductive Leads (document : Data) : Nat → Data → Data → Prop where
  | arrived {v : Data} : v.isReference = false → Leads document 0 v v
  | follow {n : Nat} {node next v : Data} {ref : String} : node.find? "$ref" = some (.str ref) →
      lookup document ref = .ok next → Leads document n next v → Leads document (n + 1) node v

namespace Leads

theorem isReference_eq_false (h : Leads document n node v) : v.isReference = false := by
  induction h with
  | arrived hv => exact hv
  | follow _ _ _ ih => exact ih

theorem eq_of_zero (h : Leads document 0 node v) : node = v := by
  cases h with
  | arrived => rfl

theorem isReference_of_succ (h : Leads document (n + 1) node v) : node.isReference = true := by
  cases h with
  | follow href _ _ => exact isReference_of_find? href

/-- Resolving stops at the second reference. -/
theorem resolve_eq_ok_iff (h : Leads document n node v) : resolve document node = .ok v ↔ n ≤ 1 := by
  cases h with
  | arrived hv => exact iff_of_true (resolve_of_not_isReference hv) (Nat.zero_le 1)
  | @follow n node next v ref href hnext h =>
    rw [resolve_of_find? href, hnext]
    cases n with
    | zero => exact iff_of_true (congrArg Except.ok h.eq_of_zero) (Nat.le_refl 1)
    | succ n =>
      have hne : next ≠ v := by
        rintro rfl
        have hnext := h.isReference_of_succ
        rw [h.isReference_eq_false] at hnext
        cases hnext
      exact iff_of_false (fun heq => hne (Except.ok.inj heq)) (by omega)

end Leads

end ClientBindings.Reference

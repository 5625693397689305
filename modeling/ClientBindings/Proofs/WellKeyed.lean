import ClientBindings.Proofs.Entries
import ClientBindings.Proofs.Pointer

/-! Values without repeated keys, such as readers yield them. They are the same as themselves; a mapping that repeats
a key need not be, since only the first value of the key is found. -/

namespace ClientBindings

namespace Data

/-- Whether no mapping in a value repeats a key. -/
inductive WellKeyed : Data → Prop
  | scalar (s : Scalar) : WellKeyed (.scalar s)
  | list {items : List Data} (h : ∀ x ∈ items, WellKeyed x) : WellKeyed (.list items)
  | tuple {items : List Data} (h : ∀ x ∈ items, WellKeyed x) : WellKeyed (.tuple items)
  | map {es : Fields} (hkeys : Entries.Distinct Scalar.same es) (h : ∀ e ∈ es, WellKeyed e.2) : WellKeyed (.map es)

theorem wellKeyed_object_iff {fields : List (String × Data)} :
    (Data.object fields).WellKeyed ↔ (fields.map Prod.fst).Nodup ∧ ∀ field ∈ fields, field.2.WellKeyed := by
  have hsame : ∀ f g : String × Data, (Scalar.str f.1).same (.str g.1) = true ↔ f.1 = g.1 := by
    intro f g
    rw [Scalar.same_str_left, Scalar.str.injEq, eq_comm]
  have hkeys : Entries.Distinct Scalar.same (fields.map fun f => (Scalar.str f.1, f.2)) ↔
      (fields.map Prod.fst).Nodup := by
    rw [Entries.Distinct, List.pairwise_map, List.Nodup, List.pairwise_map]
    simp only [hsame, ne_eq]
  rw [← hkeys]
  constructor
  · rintro (_ | _ | _ | ⟨hdistinct, hvalues⟩)
    exact ⟨hdistinct, fun field hfield => hvalues _ (List.mem_map_of_mem hfield)⟩
  · rintro ⟨hdistinct, hvalues⟩
    refine .map hdistinct fun e he => ?_
    obtain ⟨field, hfield, rfl⟩ := List.mem_map.mp he
    exact hvalues field hfield

theorem sameItems_self {items : List Data} (h : ∀ x ∈ items, x.same x = true) : sameItems items items = true := by
  induction items with
  | nil => rfl
  | cons x items ih =>
    obtain ⟨hx, hitems⟩ := List.forall_mem_cons.mp h
    rw [sameItems, hx, ih hitems]
    rfl

theorem sameEntries_of_find? {es fs : Fields}
    (h : ∀ e ∈ es, ∃ w, Entries.find? Scalar.same fs e.1 = some w ∧ e.2.same w = true) : sameEntries es fs = true := by
  induction es with
  | nil => rfl
  | cons e es ih =>
    obtain ⟨⟨w, hw, hsame⟩, hes⟩ := List.forall_mem_cons.mp h
    rw [sameEntries, hw, ih hes, Bool.and_true]
    exact hsame

theorem WellKeyed.same_self {d : Data} (h : d.WellKeyed) : d.same d = true := by
  induction h with
  | scalar s =>
    rw [same]
    exact Scalar.same_refl s
  | list _ ih =>
    rw [same]
    exact sameItems_self ih
  | tuple _ ih =>
    rw [same]
    exact sameItems_self ih
  | map hkeys _ ih =>
    rw [same, Bool.and_eq_true]
    refine ⟨beq_self_eq_true _, sameEntries_of_find? fun e he => ⟨e.2, ?_, ih e he⟩⟩
    exact Entries.find?_of_mem Scalar.same_equivalence hkeys he

namespace WellKeyed
variable {d v x : Data} {key : String} {xs : List Data} {es : Fields}

theorem entry (h : (Data.map es).WellKeyed) {e : Scalar × Data} (he : e ∈ es) : e.2.WellKeyed := by
  cases h with
  | map _ h => exact h e he

theorem under (h : (Data.map es).WellKeyed) (key : Scalar) :
    ((Entries.find? Scalar.same es key).getD .null).WellKeyed := by
  cases hfind : Entries.find? Scalar.same es key with
  | none => exact .scalar .null
  | some v =>
    obtain ⟨_, hmem, _⟩ := Entries.mem_of_find? hfind
    exact h.entry hmem

theorem put (h : (Data.map es).WellKeyed) (key : Scalar) (hv : v.WellKeyed) :
    (Data.map (Entries.put Scalar.same es key v)).WellKeyed := by
  cases h with
  | map hkeys hvalues =>
    refine .map hkeys.put fun e he => ?_
    rcases Entries.mem_put he with he | ⟨hvalue, -⟩
    · exact hvalues e he
    · rwa [hvalue]

theorem merge {fs : Fields} (h : (Data.map es).WellKeyed) (hfs : (Data.map fs).WellKeyed) :
    (Data.map (Entries.merge Scalar.same es fs)).WellKeyed := by
  cases h with
  | map hkeys hvalues =>
    refine .map hkeys.merge fun e he => ?_
    obtain ⟨f, hf, heq⟩ := List.mem_map.mp (Entries.snd_mem_of_mem_merge he)
    rw [← heq]
    rcases List.mem_append.mp hf with hf | hf
    · exact hvalues f hf
    · exact hfs.entry hf

theorem said (h : d.WellKeyed) (key : String) : ((d.find? key).getD .null).WellKeyed := by
  cases d with
  | map es => exact h.under (.str key)
  | scalar | list | tuple => exact .scalar .null

theorem find? (h : d.WellKeyed) (hfind : d.find? key = some v) : v.WellKeyed := by
  have hsaid := h.said key
  rwa [hfind] at hsaid

theorem get (h : d.WellKeyed) (hget : d.get key = .ok v) : v.WellKeyed := by
  cases d with
  | map es =>
    obtain rfl := Except.ok.inj hget
    exact h.said key
  | scalar | list | tuple => cases hget

theorem orElse (h : d.WellKeyed) : (d.orElse (.map [])).WellKeyed := by
  unfold Data.orElse
  split
  · exact h
  · exact .map .nil (by simp)

theorem elements (h : d.WellKeyed) (helements : d.elements = .ok xs) (hx : x ∈ xs) : x.WellKeyed := by
  unfold Data.elements at helements
  split at helements
  case h_6 => exact absurd helements Result.throw_ne_ok
  all_goals obtain rfl := Result.pure_eq_ok_iff.mp helements
  case h_1 =>
    cases h with
    | list h => exact h x hx
  case h_2 =>
    cases h with
    | tuple h => exact h x hx
  all_goals
    obtain ⟨_, _, rfl⟩ := List.mem_map.mp hx
    exact .scalar _

theorem item {key : Data} (h : d.WellKeyed) (hitem : d.item key = .ok v) : v.WellKeyed := by
  cases h with
  | scalar s => cases s <;> cases hitem
  | map hkeys h =>
    obtain ⟨k, -, hitem⟩ := Result.bind_eq_ok_iff.mp hitem
    split at hitem
    · rename_i hfind
      obtain rfl := Result.pure_eq_ok_iff.mp hitem
      have hunder := under (.map hkeys h) k
      rwa [hfind] at hunder
    · exact absurd hitem Result.throw_ne_ok
  | list h | tuple h =>
    unfold Data.item at hitem
    dsimp -zeta only at hitem
    split at hitem
    · extract_lets place at hitem
      split at hitem
      · exact absurd hitem Result.throw_ne_ok
      split at hitem
      · rename_i hv
        obtain rfl := Result.pure_eq_ok_iff.mp hitem
        exact h _ (List.mem_of_getElem? hv)
      · exact absurd hitem Result.throw_ne_ok
    · exact absurd hitem Result.throw_ne_ok

theorem walk? {segments : List String} (h : d.WellKeyed) (hwalk : Pointer.walk? d segments = .ok (some v)) :
    v.WellKeyed := by
  refine Pointer.walk?_induct (R := fun v d => d.WellKeyed → v.WellKeyed) (fun _ h => h)
    (fun hab hbc h => hab (hbc h)) ?_ ?_ hwalk h
  · rintro items x hx (_ | h)
    exact h x hx
  · exact fun hmem h => h.entry hmem

theorem lookup {document : Data} {pointer : String} (h : document.WellKeyed)
    (hlookup : Reference.lookup document pointer = .ok v) : v.WellKeyed := by
  obtain ⟨segments, _, hwalk⟩ := Reference.lookup_eq_ok_iff.mp hlookup
  exact h.walk? hwalk

theorem resolve {document : Data} (h : document.WellKeyed) (hd : d.WellKeyed)
    (hresolve : Reference.resolve document d = .ok v) : v.WellKeyed := by
  unfold Reference.resolve at hresolve
  split at hresolve
  · exact h.lookup hresolve
  · exact absurd hresolve Result.throw_ne_ok
  · obtain rfl := Result.pure_eq_ok_iff.mp hresolve
    exact hd

end WellKeyed
end Data
end ClientBindings

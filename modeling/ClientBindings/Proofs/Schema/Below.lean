import ClientBindings.Proofs.Pointer
import ClientBindings.Proofs.Schema.Plan

/-! What stands below a schema. A schema asks for the types of the schemas in it, which are smaller, and a
reference for that of its target, which may be any part of the document. Along either way no pointer comes
up that the schema and the document do not hold. -/

namespace ClientBindings

namespace Data

def pointerOf : Option Data → List String
  | some (.str pointer) => [pointer]
  | _ => []

mutual
/-- The pointers of all references that stand in a value. -/
def pointers : Data → List String
  | .scalar _ => []
  | .list items | .tuple items => pointersOfItems items
  | .map entries => pointerOf (Entries.find? Scalar.same entries (.str "$ref")) ++ pointersOfEntries entries
def pointersOfItems : List Data → List String
  | [] => []
  | x :: xs => pointers x ++ pointersOfItems xs
def pointersOfEntries : List (Scalar × Data) → List String
  | [] => []
  | (_, v) :: es => pointers v ++ pointersOfEntries es
end

theorem length_pointerOf_le (d : Option Data) : (pointerOf d).length ≤ 1 := by
  unfold pointerOf
  split
  · exact Nat.le_refl 1
  · exact Nat.zero_le 1

mutual
theorem length_pointers_le : ∀ d : Data, d.pointers.length ≤ d.size
  | .scalar _ => Nat.zero_le _
  | .list items | .tuple items => by
    have hitems := length_pointersOfItems_le items
    simp only [pointers, size]
    omega
  | .map entries => by
    have hown := length_pointerOf_le (Entries.find? Scalar.same entries (.str "$ref"))
    have hentries := length_pointersOfEntries_le entries
    simp only [pointers, size, List.length_append]
    omega
theorem length_pointersOfItems_le : ∀ items : List Data, (pointersOfItems items).length ≤ sizeItems items
  | [] => Nat.le_refl 0
  | x :: xs => by
    have hx := length_pointers_le x
    have hxs := length_pointersOfItems_le xs
    simp only [pointersOfItems, sizeItems, List.length_append]
    omega
theorem length_pointersOfEntries_le : ∀ es : List (Scalar × Data), (pointersOfEntries es).length ≤ sizeEntries es
  | [] => Nat.le_refl 0
  | (_, v) :: es => by
    have hv := length_pointers_le v
    have hes := length_pointersOfEntries_le es
    simp only [pointersOfEntries, sizeEntries, List.length_append]
    omega
end

theorem one_le_size (d : Data) : 1 ≤ d.size := by
  cases d <;> simp [size]

/-- A value that is no larger than another one and holds no pointers beyond its. -/
structure Within (part whole : Data) : Prop where
  size : part.size ≤ whole.size
  pointers : part.pointers ⊆ whole.pointers

theorem Within.refl (d : Data) : Within d d := ⟨Nat.le_refl _, List.Subset.refl _⟩

theorem Within.trans {a b c : Data} (hab : Within a b) (hbc : Within b c) : Within a c :=
  ⟨Nat.le_trans hab.size hbc.size, List.Subset.trans hab.pointers hbc.pointers⟩

theorem within_scalar (s : Scalar) (d : Data) : Within (.scalar s) d :=
  ⟨one_le_size d, List.nil_subset _⟩

theorem item_le {items : List Data} {x : Data} (h : x ∈ items) :
    x.size ≤ sizeItems items ∧ x.pointers ⊆ pointersOfItems items := by
  induction items with
  | nil => exact absurd h List.not_mem_nil
  | cons y items ih =>
    rcases List.mem_cons.mp h with rfl | h
    · exact ⟨Nat.le_add_right _ _, List.subset_append_left _ _⟩
    · obtain ⟨hsize, hpointers⟩ := ih h
      exact ⟨Nat.le_trans hsize (Nat.le_add_left _ _), List.Subset.trans hpointers (List.subset_append_right _ _)⟩

theorem entry_le {es : Fields} {key : Scalar} {v : Data} (h : (key, v) ∈ es) :
    v.size ≤ sizeEntries es ∧ v.pointers ⊆ pointersOfEntries es := by
  induction es with
  | nil => exact absurd h List.not_mem_nil
  | cons e es ih =>
    rcases List.mem_cons.mp h with rfl | h
    · exact ⟨Nat.le_add_right _ _, List.subset_append_left _ _⟩
    · obtain ⟨hsize, hpointers⟩ := ih h
      exact ⟨Nat.le_trans hsize (Nat.le_add_left _ _), List.Subset.trans hpointers (List.subset_append_right _ _)⟩

theorem within_item {items : List Data} {x : Data} (h : x ∈ items) :
    x.size < (list items).size ∧ Within x (.list items) := by
  obtain ⟨hsize, hpointers⟩ := item_le h
  simp only [size]
  exact ⟨by omega, ⟨by simp only [size]; omega, hpointers⟩⟩

theorem within_place {items : List Data} {x : Data} (h : x ∈ items) : Within x (.tuple items) := by
  obtain ⟨hsize, hpointers⟩ := item_le h
  exact ⟨by simp only [size]; omega, hpointers⟩

theorem within_entry {es : Fields} {key : Scalar} {v : Data} (h : (key, v) ∈ es) :
    v.size < (map es).size ∧ Within v (.map es) := by
  obtain ⟨hsize, hpointers⟩ := entry_le h
  simp only [size]
  exact ⟨by omega, ⟨by simp only [size]; omega, List.Subset.trans hpointers (List.subset_append_right _ _)⟩⟩

/-- What stands under a key is smaller. -/
theorem within_find? {d v : Data} {key : String} (h : d.find? key = some v) : v.size < d.size ∧ Within v d := by
  cases d with
  | map es =>
    obtain ⟨k, hmem, _⟩ := Entries.mem_of_find? h
    exact within_entry hmem
  | scalar | list | tuple => cases h

theorem find?_of_require {d v : Data} {key : String} (h : d.require key = .ok v) : d.find? key = some v := by
  cases d with
  | map es =>
    simp only [require] at h
    split at h
    · rename_i w hfind
      obtain rfl := Result.pure_eq_ok_iff.mp h
      exact hfind
    · exact absurd h Result.throw_ne_ok
  | scalar | list | tuple => exact absurd h Result.throw_ne_ok

theorem eq_map_of_entries {d : Data} {es : Fields} (h : d.entries = .ok es) : d = .map es := by
  cases d with
  | map => exact congrArg Data.map (Except.ok.inj h)
  | scalar | list | tuple => cases h

theorem within_elements {d x : Data} {xs : List Data} (h : d.elements = .ok xs) (hx : x ∈ xs) : Within x d := by
  unfold elements at h
  split at h
  · obtain rfl := Result.pure_eq_ok_iff.mp h
    exact (within_item hx).2
  · obtain rfl := Result.pure_eq_ok_iff.mp h
    exact within_place hx
  · obtain rfl := Result.pure_eq_ok_iff.mp h
    obtain ⟨e, _, rfl⟩ := List.mem_map.mp hx
    exact within_scalar _ _
  · obtain rfl := Result.pure_eq_ok_iff.mp h
    obtain ⟨c, _, rfl⟩ := List.mem_map.mp hx
    exact within_scalar _ _
  · obtain rfl := Result.pure_eq_ok_iff.mp h
    obtain ⟨b, _, rfl⟩ := List.mem_map.mp hx
    exact within_scalar _ _
  · exact absurd h Result.throw_ne_ok

theorem within_lookup {document target : Data} {pointer : String} (h : Reference.lookup document pointer = .ok target) :
    Within target document := by
  obtain ⟨segments, _, hwalk⟩ := Reference.lookup_eq_ok_iff.mp h
  exact Pointer.walk?_induct Within.refl Within.trans (fun hx => (within_item hx).2) (fun hv => (within_entry hv).2) hwalk

theorem mem_pointers_of_find? {d : Data} {pointer : String} (h : d.find? "$ref" = some (.str pointer)) :
    pointer ∈ d.pointers := by
  cases d with
  | map es =>
    have hown : Entries.find? Scalar.same es (.str "$ref") = some (.str pointer) := h
    rw [pointers, hown]
    exact List.mem_append_left _ (List.mem_singleton_self pointer)
  | scalar | list | tuple => cases h

end Data

namespace Schema

/-! ## The schemas in a schema -/

/-- A schema asks for the type of another one that stands in it: a member, the items, a property, or what
further keys hold. -/
inductive Asks (schema : Data) : Data → Prop
  | member {key : String} {value part : Data} {parts : List Data} : key ∈ ["oneOf", "anyOf", "allOf"] →
      schema.find? key = some value → value.elements = .ok parts → part ∈ parts → Asks schema part
  | items {part : Data} : schema.find? "items" = some part → Asks schema part
  | property {entries : Data.Fields} {name : Scalar} {part : Data} :
      schema.find? "properties" = some (.map entries) → (name, part) ∈ entries → Asks schema part
  | further {part : Data} : schema.find? "additionalProperties" = some part → Asks schema part

theorem asks_property {schema : Data} {entries : Data.Fields} {e : Scalar × Data}
    (h : ((schema.find? "properties").getD .null).orElse (.map []) = .map entries) (he : e ∈ entries) :
    Asks schema e.2 := by
  unfold Data.orElse at h
  split at h
  · cases hfind : schema.find? "properties" with
    | none =>
      rw [hfind] at h
      cases h
    | some properties =>
      rw [hfind] at h
      exact .property (hfind.trans (congrArg some h)) he
  · obtain rfl := (Data.map.inj h).symm
    exact absurd he List.not_mem_nil

theorem asks_further {schema : Data} (h : counts ((schema.find? "additionalProperties").getD .null) = true) :
    Asks schema ((schema.find? "additionalProperties").getD .null) := by
  cases hfind : schema.find? "additionalProperties" with
  | none =>
    rw [hfind] at h
    cases h
  | some additional => exact .further hfind

theorem Asks.within {schema part : Data} (h : Asks schema part) : part.size < schema.size ∧ part.Within schema := by
  cases h with
  | member _ hvalue hparts hpart =>
    obtain ⟨hless, hvalue⟩ := Data.within_find? hvalue
    have hpart := Data.within_elements hparts hpart
    exact ⟨Nat.lt_of_le_of_lt hpart.size hless, hpart.trans hvalue⟩
  | items hfind | further hfind => exact Data.within_find? hfind
  | property hfind hmem =>
    obtain ⟨_, hproperties⟩ := Data.within_find? hfind
    obtain ⟨hless, hpart⟩ := Data.within_entry hmem
    exact ⟨Nat.lt_of_lt_of_le hless hproperties.size, hpart.trans hproperties⟩

/-- The target of a reference as it is synthesized: what is no mapping says nothing. -/
def targetOf (d : Data) : Data := if d.isMap then d else .map []

theorem within_targetOf (d : Data) : (targetOf d).Within d := by
  unfold targetOf
  split
  · exact .refl d
  · exact ⟨Data.one_le_size d, List.nil_subset _⟩

/-- The way from a schema down to another one, with the pointers of the references on it, outermost first. -/
inductive Leads (document : Data) : Data → List String → Data → Prop
  | here {schema : Data} : Leads document schema [] schema
  | part {schema part place : Data} {pointers : List String} : Asks schema part → Leads document part pointers place →
      Leads document schema pointers place
  | enter {schema target place : Data} {pointer : String} {pointers : List String} :
      schema.find? "$ref" = some (.str pointer) → Reference.lookup document pointer = .ok target →
      Leads document (targetOf target) pointers place → Leads document schema (pointer :: pointers) place

end Schema
end ClientBindings

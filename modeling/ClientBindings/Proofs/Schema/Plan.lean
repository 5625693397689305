import ClientBindings.Proofs.Runs
import ClientBindings.Proofs.TypeTree
import ClientBindings.Schema.Synthesis

/-! What a schema asks for, apart from any state: the schemas below it and how their types make up its
own. The type made from the types of the parts has no references beyond theirs, and its anonymous form
depends on their anonymous forms alone. -/

namespace ClientBindings.Schema

/-- The schemas that a schema has below it, and its type once theirs are known. -/
structure Plan where
  parts : List Data := []
  build : List TypeNode → TypeNode

namespace Plan

def leaf (t : TypeNode) : Plan := { build := fun _ => t }

/-- Everything about the field of a property but its type. -/
def fieldShape (required : Data) (property : Scalar × Data) : Result (TypeNode → Field) := do
  let (name, schema) := property
  let own := if schema.isMap && !schema.isReference then schema else .map []
  let isRequired ← required.has (.scalar name)
  let comment ← remark own
  let deprecated ← own.get "deprecated"
  return fun type => { name := .scalar name, type, required := isRequired, comment, deprecated := deprecated.truthy }

/-- The schema that tells the types of further keys, if there is one. -/
def furtherParts (additional : Data) : List Data :=
  if !counts additional then [] else if isTrue additional then [] else [additional]

def furtherType (additional : Data) (ts : List TypeNode) : Option TypeNode :=
  if !counts additional then none else if isTrue additional then some .any else ts.head?

def recordType (shapes : List (TypeNode → Field)) (additional : Data) (ts : List TypeNode) : TypeNode :=
  .object (List.zipWith (fun shape t => shape t) shapes ts) (furtherType additional (ts.drop shapes.length))

def record (properties required additional : Data) : Result Plan := do
  let entries ← properties.entries
  let shapes ← entries.mapM (fieldShape (required.orElse (.list [])))
  return { parts := entries.map Prod.snd ++ furtherParts additional
           build := recordType shapes additional }

def members (schema : Data) (key : String) (build : List TypeNode → TypeNode) : Result Plan := do
  return { parts := ← (← schema.require key).elements, build }

def array : Option Data → Plan
  | some items => { parts := [items], build := fun ts => .array (ts.headD .any) }
  | none => leaf (.array .any)

def text : Option Data → Plan
  | some (.str "binary") => leaf .binary
  | _ => leaf .string

/-- The plan of a schema whose own `type` is given. -/
def typed (schema : Data) : Data → Result Plan
  | .str "array" => return array (schema.find? "items")
  | .str "integer" | .str "number" => return leaf .number
  | .str "boolean" => return leaf .boolean
  | .str "string" => return text (schema.find? "format")
  | .str "object" =>
    record (((schema.find? "properties").getD .null).orElse (.map []))
      ((schema.find? "required").getD .null) ((schema.find? "additionalProperties").getD .null)
  | _ => return leaf .any

def named (schema : Data) : Result Plan := do typed schema (← schema.get "type")

/-- The plan of a schema that is no reference, apart from `nullable`. -/
def base (schema : Data) : Result Plan := do
  if schema.isNull then return leaf .any
  if ← schema.has (.str "oneOf") then members schema "oneOf" .unionOf
  else if ← schema.has (.str "anyOf") then members schema "anyOf" .unionOf
  else if ← schema.has (.str "allOf") then members schema "allOf" .intersection
  else if ← schema.has (.str "enum") then
    let values ← (← schema.require "enum").elements
    return leaf (.unionOf (values.map literalOf))
  else named schema

/-- The plan of a schema that is no reference. -/
def of (schema : Data) : Result Plan := do
  let plan ← base schema
  return { plan with build := fun ts => withNull schema (plan.build ts) }

/-! ## What a plan makes of the types of its parts -/

/-- A leaf that refers to nothing. -/
def IsPlainLeaf : TypeNode → Prop
  | .any | .never | .primitive _ => True
  | .literal v => v.isPlain = true
  | _ => False

structure Regular (plan : Plan) : Prop where
  leaves : ∀ ts, ∀ leaf ∈ (plan.build ts).leaves, IsPlainLeaf leaf ∨ ∃ t ∈ ts, leaf ∈ t.leaves
  anonymous : ∀ ts us : List TypeNode, ts.map TypeNode.anonymous = us.map TypeNode.anonymous →
    (plan.build ts).anonymous = (plan.build us).anonymous

theorem regular_leaf {t : TypeNode} (h : ∀ leaf ∈ t.leaves, IsPlainLeaf leaf) : Regular (leaf t) where
  leaves _ l hl := .inl (h l hl)
  anonymous _ _ _ := rfl

theorem isPlainLeaf_literalOf (d : Data) : ∀ leaf ∈ (literalOf d).leaves, IsPlainLeaf leaf := by
  intro leaf hleaf
  unfold literalOf at hleaf
  split at hleaf
  · split at hleaf
    · rename_i hplain
      obtain rfl : leaf = _ := by simpa [TypeNode.leaves] using hleaf
      exact hplain
    · obtain rfl : leaf = _ := by simpa [TypeNode.leaves, TypeNode.null] using hleaf
      exact rfl
  · obtain rfl : leaf = _ := by simpa [TypeNode.leaves, TypeNode.null] using hleaf
    exact rfl

theorem regular_literals (values : List Data) : Regular (leaf (.unionOf (values.map literalOf))) := by
  apply regular_leaf
  intro leaf hleaf
  rcases TypeNode.mem_leaves_unionOf hleaf with rfl | ⟨t, ht, hleaf⟩
  · trivial
  · obtain ⟨d, _, rfl⟩ := List.mem_map.mp ht
    exact isPlainLeaf_literalOf d leaf hleaf

/-- Shapes that only say what stands around the type. -/
def Shapes (shapes : List (TypeNode → Field)) : Prop :=
  ∀ shape ∈ shapes, ∀ t, (shape t).type = t ∧ TypeNode.anonymousField (shape t) = shape t.anonymous

theorem fieldShape_type {required : Data} {property : Scalar × Data} {shape : TypeNode → Field}
    (h : fieldShape required property = .ok shape) (t : TypeNode) :
    (shape t).type = t ∧ TypeNode.anonymousField (shape t) = shape t.anonymous := by
  simp only [fieldShape, Result.bind_eq_ok_iff, Result.pure_eq_ok_iff] at h
  obtain ⟨_, _, _, _, _, _, rfl⟩ := h
  exact ⟨rfl, rfl⟩

theorem fieldShapes_type {required : Data} {entries : Data.Fields} {shapes : List (TypeNode → Field)}
    (h : entries.mapM (fieldShape required) = .ok shapes) :
    Shapes shapes := by
  induction entries generalizing shapes with
  | nil => simp [Shapes, Result.mapM_nil_eq_ok_iff.mp h]
  | cons e es ih =>
    obtain ⟨shape, rest, hshape, hrest, rfl⟩ := Result.mapM_cons_eq_ok_iff.mp h
    intro other hmem
    rcases List.mem_cons.mp hmem with rfl | hmem
    · exact fieldShape_type hshape
    · exact ih hrest other hmem

theorem mem_zipWith_shapes {shapes : List (TypeNode → Field)} (h : Shapes shapes) {ts : List TypeNode}
    {f : Field} (hf : f ∈ List.zipWith (fun shape t => shape t) shapes ts) : f.type ∈ ts := by
  induction shapes generalizing ts with
  | nil => simp at hf
  | cons shape shapes ih =>
    cases ts with
    | nil => simp at hf
    | cons t ts =>
      rcases List.mem_cons.mp (by simpa using hf) with rfl | hf
      · rw [(h shape List.mem_cons_self t).1]
        exact List.mem_cons_self
      · exact List.mem_cons_of_mem t (ih (fun other hmem => h other (List.mem_cons_of_mem shape hmem)) hf)

theorem anonymous_zipWith_shapes {shapes : List (TypeNode → Field)} (h : Shapes shapes)
    (ts : List TypeNode) :
    (List.zipWith (fun shape t => shape t) shapes ts).map TypeNode.anonymousField =
      List.zipWith (fun shape t => shape t) shapes (ts.map TypeNode.anonymous) := by
  induction shapes generalizing ts with
  | nil => simp
  | cons shape shapes ih =>
    cases ts with
    | nil => simp
    | cons t ts =>
      simp [(h shape List.mem_cons_self t).2, ih fun other hmem => h other (List.mem_cons_of_mem shape hmem)]

theorem furtherType_map (additional : Data) (ts : List TypeNode) :
    (furtherType additional ts).map TypeNode.anonymous = furtherType additional (ts.map TypeNode.anonymous) := by
  unfold furtherType
  split
  · rfl
  split
  · rfl
  · simp

theorem anonymous_recordType {shapes : List (TypeNode → Field)} (h : Shapes shapes) (additional : Data)
    (ts : List TypeNode) :
    (recordType shapes additional ts).anonymous = recordType shapes additional (ts.map TypeNode.anonymous) := by
  simp only [recordType, TypeNode.anonymous, TypeNode.anonymousFields_eq_map,
    TypeNode.anonymousIndex_eq_map, anonymous_zipWith_shapes h, furtherType_map, List.map_drop]

theorem regular_record {properties required additional : Data} {plan : Plan}
    (h : record properties required additional = .ok plan) : Regular plan := by
  simp only [record, Result.bind_eq_ok_iff, Result.pure_eq_ok_iff] at h
  obtain ⟨entries, -, shapes, hshapes, rfl⟩ := h
  have htype := fieldShapes_type hshapes
  constructor
  · intro ts leaf hleaf
    simp only [recordType, TypeNode.leaves, List.mem_append, TypeNode.mem_leavesOfFields,
      TypeNode.mem_leavesOfIndex] at hleaf
    rcases hleaf with ⟨f, hf, hleaf⟩ | ⟨t, ht, hleaf⟩
    · exact .inr ⟨f.type, mem_zipWith_shapes htype hf, hleaf⟩
    · unfold furtherType at ht
      split at ht
      · simp at ht
      split at ht
      · obtain rfl : TypeNode.any = t := by simpa using ht
        obtain rfl : leaf = .any := by simpa [TypeNode.leaves] using hleaf
        exact .inl trivial
      · exact .inr ⟨t, List.mem_of_mem_drop (List.mem_of_mem_head? ht), hleaf⟩
  · intro ts us hsame
    rw [anonymous_recordType htype, anonymous_recordType htype, hsame]

theorem regular_members {schema : Data} {key : String} {build : List TypeNode → TypeNode} {plan : Plan}
    (h : members schema key build = .ok plan) (hregular : ∀ parts, Regular ⟨parts, build⟩) :
    Regular plan := by
  simp only [members, Result.bind_eq_ok_iff, Result.pure_eq_ok_iff] at h
  obtain ⟨_, _, parts, _, rfl⟩ := h
  exact hregular parts

theorem regular_union (parts : List Data) : Regular ⟨parts, .unionOf⟩ where
  leaves ts leaf hleaf := by
    rcases TypeNode.mem_leaves_unionOf hleaf with rfl | hmem
    · exact .inl trivial
    · exact .inr hmem
  anonymous ts us hsame := by
    show (TypeNode.unionOf ts).anonymous = (TypeNode.unionOf us).anonymous
    rw [TypeNode.anonymous_unionOf, TypeNode.anonymous_unionOf, hsame]

theorem regular_intersection (parts : List Data) : Regular ⟨parts, .intersection⟩ where
  leaves ts leaf hleaf := .inr (TypeNode.mem_leavesOfAll.mp (by simpa [TypeNode.leaves] using hleaf))
  anonymous ts us hsame := by
    simp only [TypeNode.anonymous, TypeNode.anonymousAll_eq_map, hsame]

theorem regular_array (items : Option Data) : Regular (array items) := by
  cases items with
  | none => exact regular_leaf (by simp [TypeNode.leaves, IsPlainLeaf])
  | some items =>
    constructor
    · intro ts leaf hleaf
      cases ts with
      | nil => exact .inl (by simp_all [array, TypeNode.leaves, IsPlainLeaf])
      | cons t ts => exact .inr ⟨t, List.mem_cons_self, hleaf⟩
    · intro ts us hsame
      cases ts <;> cases us <;> simp_all [array, TypeNode.anonymous]

theorem regular_text (format : Option Data) : Regular (text format) := by
  unfold text
  split <;> exact regular_leaf (by simp [TypeNode.leaves, IsPlainLeaf, TypeNode.binary, TypeNode.string])

theorem regular_named {schema : Data} {plan : Plan} (h : named schema = .ok plan) : Regular plan := by
  simp only [named, Result.bind_eq_ok_iff] at h
  obtain ⟨type, -, h⟩ := h
  unfold typed at h
  split at h
  case h_6 => exact regular_record h
  all_goals obtain rfl := Result.pure_eq_ok_iff.mp h
  case h_1 => exact regular_array _
  case h_5 => exact regular_text _
  all_goals exact regular_leaf (by simp [TypeNode.leaves, IsPlainLeaf, TypeNode.number, TypeNode.boolean])

theorem regular_base {schema : Data} {plan : Plan} (h : base schema = .ok plan) : Regular plan := by
  unfold base at h
  split at h
  · obtain rfl := Result.pure_eq_ok_iff.mp h
    exact regular_leaf (by simp [TypeNode.leaves, IsPlainLeaf])
  obtain ⟨isOneOf, -, h⟩ := Result.bind_eq_ok_iff.mp h
  split at h
  · exact regular_members h regular_union
  obtain ⟨isAnyOf, -, h⟩ := Result.bind_eq_ok_iff.mp h
  split at h
  · exact regular_members h regular_union
  obtain ⟨isAllOf, -, h⟩ := Result.bind_eq_ok_iff.mp h
  split at h
  · exact regular_members h regular_intersection
  obtain ⟨isEnum, -, h⟩ := Result.bind_eq_ok_iff.mp h
  split at h
  · simp only [Result.bind_eq_ok_iff, Result.pure_eq_ok_iff] at h
    obtain ⟨_, _, values, _, rfl⟩ := h
    exact regular_literals values
  · exact regular_named h

theorem regular_of {schema : Data} {plan : Plan} (h : of schema = .ok plan) : Regular plan := by
  simp only [of, Result.bind_eq_ok_iff, Result.pure_eq_ok_iff] at h
  obtain ⟨inner, hinner, rfl⟩ := h
  have hbase := regular_base hinner
  constructor
  · intro ts leaf hleaf
    simp only [withNull] at hleaf
    split at hleaf
    · rcases TypeNode.mem_leaves_unionOf hleaf with rfl | ⟨t, ht, hleaf⟩
      · exact .inl trivial
      · rcases List.mem_cons.mp ht with rfl | ht
        · exact hbase.leaves ts leaf hleaf
        · obtain rfl : t = .null := by simpa using ht
          obtain rfl : leaf = .null := by simpa [TypeNode.leaves, TypeNode.null] using hleaf
          exact .inl rfl
    · exact hbase.leaves ts leaf hleaf
  · intro ts us hsame
    have hinner := hbase.anonymous ts us hsame
    simp only [withNull]
    split
    · simp [TypeNode.anonymous_unionOf, hinner]
    · exact hinner

end Plan
end ClientBindings.Schema

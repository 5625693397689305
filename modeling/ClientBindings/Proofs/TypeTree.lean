import ClientBindings.Schema.TypeTree
import Mathlib.Data.List.Basic

/-! Two views of a type. Its leaves are the parts that hold no further types, references among them.
Its anonymous form forgets the names of aliases and keeps the pointers that they stand for. -/

namespace ClientBindings.TypeNode

mutual
def leaves : TypeNode → List TypeNode
  | .array items => leaves items
  | .object fields index => leavesOfFields fields ++ leavesOfIndex index
  | .union ts => leavesOfAll ts
  | .intersection ts => leavesOfAll ts
  | .any => [.any]
  | .never => [.never]
  | .primitive p => [.primitive p]
  | .literal v => [.literal v]
  | .reference name pointer => [.reference name pointer]
  | .supplied name => [.supplied name]
def leavesOfIndex : Option TypeNode → List TypeNode
  | none => []
  | some t => leaves t
def leavesOfAll : List TypeNode → List TypeNode
  | [] => []
  | t :: ts => leaves t ++ leavesOfAll ts
def leavesOfFields : List (FieldOf TypeNode) → List TypeNode
  | [] => []
  | ⟨_, t, _, _, _⟩ :: fs => leaves t ++ leavesOfFields fs
end

mutual
def anonymous : TypeNode → TypeNode
  | .array items => .array (anonymous items)
  | .object fields index => .object (anonymousFields fields) (anonymousIndex index)
  | .union ts => .union (anonymousAll ts)
  | .intersection ts => .intersection (anonymousAll ts)
  | .any => .any
  | .never => .never
  | .primitive p => .primitive p
  | .literal v => .literal v
  | .reference _ pointer => .reference "" pointer
  | .supplied name => .supplied name
def anonymousIndex : Option TypeNode → Option TypeNode
  | none => none
  | some t => some (anonymous t)
def anonymousAll : List TypeNode → List TypeNode
  | [] => []
  | t :: ts => anonymous t :: anonymousAll ts
def anonymousFields : List (FieldOf TypeNode) → List (FieldOf TypeNode)
  | [] => []
  | ⟨name, t, required, comment, deprecated⟩ :: fs =>
    ⟨name, anonymous t, required, comment, deprecated⟩ :: anonymousFields fs
end

/-! ## Leaves of lists of types -/

theorem mem_leavesOfAll {leaf : TypeNode} {ts : List TypeNode} :
    leaf ∈ leavesOfAll ts ↔ ∃ t ∈ ts, leaf ∈ t.leaves := by
  induction ts with
  | nil => simp [leavesOfAll]
  | cons t ts ih => simp [leavesOfAll, ih]

theorem mem_leavesOfFields {leaf : TypeNode} {fs : List Field} :
    leaf ∈ leavesOfFields fs ↔ ∃ f ∈ fs, leaf ∈ f.type.leaves := by
  induction fs with
  | nil => simp [leavesOfFields]
  | cons f fs ih => cases f; simp [leavesOfFields, ih]

theorem mem_leavesOfIndex {leaf : TypeNode} {index : Option TypeNode} :
    leaf ∈ leavesOfIndex index ↔ ∃ t, index = some t ∧ leaf ∈ t.leaves := by
  cases index <;> simp [leavesOfIndex]

theorem mem_leaves_unionOf {leaf : TypeNode} {ts : List TypeNode} (h : leaf ∈ (unionOf ts).leaves) :
    leaf = .never ∨ ∃ t ∈ ts, leaf ∈ t.leaves := by
  match ts with
  | [] => exact .inl (by simpa [unionOf, leaves] using h)
  | [t] => exact .inr ⟨t, by simp, h⟩
  | t :: u :: rest =>
    right
    exact mem_leavesOfAll.mp (by simpa [unionOf, leaves] using h)

theorem mem_of_mem_dedup {t : TypeNode} {ts : List TypeNode} (h : t ∈ dedup ts) : t ∈ ts := by
  have hfold : ∀ (us kept : List TypeNode),
      t ∈ us.foldl (fun kept t => if kept.any fun k => k.same t then kept else kept ++ [t]) kept →
      t ∈ kept ∨ t ∈ us := by
    intro us
    induction us with
    | nil => exact fun kept ht => Or.inl ht
    | cons u us ih =>
      intro kept ht
      rcases ih _ ht with ht | ht
      · dsimp only at ht
        split at ht
        · exact Or.inl ht
        · rcases List.mem_append.mp ht with ht | ht
          · exact Or.inl ht
          · exact Or.inr (List.mem_singleton.mp ht ▸ List.mem_cons_self)
      · exact Or.inr (List.mem_cons_of_mem u ht)
  exact (hfold ts [] h).resolve_left List.not_mem_nil

/-! ## Anonymous forms of lists of types -/

theorem anonymousAll_eq_map (ts : List TypeNode) : anonymousAll ts = ts.map anonymous := by
  induction ts with
  | nil => rfl
  | cons t ts ih => simp [anonymousAll, ih]

/-- The field with the name of every alias in its type forgotten. -/
def anonymousField (f : Field) : Field := { f with type := f.type.anonymous }

theorem anonymousFields_eq_map (fs : List Field) : anonymousFields fs = fs.map anonymousField := by
  induction fs with
  | nil => rfl
  | cons f fs ih => cases f; simp [anonymousFields, anonymousField, ih]

theorem anonymousIndex_eq_map (index : Option TypeNode) : anonymousIndex index = index.map anonymous := by
  cases index <;> rfl

theorem anonymous_unionOf (ts : List TypeNode) : (unionOf ts).anonymous = unionOf (ts.map anonymous) := by
  match ts with
  | [] => rfl
  | [t] => rfl
  | t :: u :: rest => simp [unionOf, anonymous, anonymousAll_eq_map]

end ClientBindings.TypeNode

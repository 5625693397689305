import ClientBindings.Proofs.Firsts
import ClientBindings.Proofs.Identifier
import ClientBindings.Proofs.Runs
import ClientBindings.Proofs.Source.Alternatives
import ClientBindings.Proofs.Source.Opening
import ClientBindings.Proofs.TypeTree

/-! The annotation of a union. Its alternatives are those of its leaves, each named once where it occurs first, the
literals together and null last; how unions stand in each other does not matter. -/

namespace ClientBindings

open TypeText TypeWriter Text

variable {textOf : TypeNode → String} {leaves : List TypeNode} {mark : String}

/-! ## Leaves and their texts -/

namespace TypeNode

/-- The text of a literal other than null. -/
def literal? : TypeNode → Option String
  | .literal .null => none
  | .literal v => some (Literal.spelling v)
  | _ => none

def isNull : TypeNode → Bool
  | .literal .null => true
  | _ => false

/-- A leaf that is no literal. -/
def IsOpen : TypeNode → Prop
  | .literal _ => False
  | _ => True

/-- The part of a union that a leaf other than null has, all literals being given by one text. -/
def part? (textOf : TypeNode → String) (mark : String) : TypeNode → Option String
  | .literal .null => none
  | .literal _ => some mark
  | leaf => some (textOf leaf)

theorem leaf_cases (leaf : TypeNode) : leaf = null ∨
    (∃ v, leaf.literal? = some (Literal.spelling v) ∧ ∀ textOf mark, leaf.part? textOf mark = some mark) ∨
      leaf.IsOpen ∧ leaf.literal? = none ∧ ∀ textOf mark, leaf.part? textOf mark = some (textOf leaf) := by
  cases leaf with
  | literal v =>
    cases v with
    | null => exact .inl rfl
    | _ => exact .inr (.inl ⟨_, rfl, fun _ _ => rfl⟩)
  | _ => exact .inr (.inr ⟨trivial, rfl, fun _ _ => rfl⟩)

theorem eq_or_exists_of_part? {leaf : TypeNode} {part : String} (h : leaf.part? textOf mark = some part) :
    part = mark ∨ leaf.IsOpen ∧ part = textOf leaf := by
  rcases leaf.leaf_cases with rfl | ⟨v, -, hpart⟩ | ⟨hopen, -, hpart⟩
  · cases h
  · rw [hpart] at h
    exact .inl (Option.some.inj h).symm
  · rw [hpart] at h
    exact .inr ⟨hopen, (Option.some.inj h).symm⟩

theorem exists_of_literal? {leaf : TypeNode} {text : String} (h : leaf.literal? = some text) :
    ∃ v, text = Literal.spelling v := by
  rcases leaf.leaf_cases with rfl | ⟨v, hliteral, -⟩ | ⟨-, hliteral, -⟩
  · cases h
  · exact ⟨v, Option.some.inj (h.symm.trans hliteral)⟩
  · rw [hliteral] at h
    cases h

end TypeNode

open TypeNode

/-- What a union of leaves names: their texts without repetitions, all literals in the place of the first, then
null. -/
def alternativesOf (textOf : TypeNode → String) (leaves : List TypeNode) : List String :=
  let literals := TypeText.literals (leaves.filterMap literal?).eraseDups
  (leaves.filterMap (part? textOf literals)).eraseDups ++ if leaves.any isNull then ["None"] else []

namespace TypeText.Union

/-- A union with one more leaf. -/
def gather (textOf : TypeNode → String) (u : Union) : TypeNode → Union
  | .literal v => u.withLiteral v
  | leaf => u.addPart (textOf leaf)

def gathered (textOf : TypeNode → String) (leaves : List TypeNode) : Union := leaves.foldl (gather textOf) {}

theorem gather_eq (textOf : TypeNode → String) (u : Union) (leaf : TypeNode) : gather textOf u leaf =
    { literals := leaf.literal?.elim u.literals (insert u.literals)
      parts := (leaf.part? textOf literalMark).elim u.parts (insert u.parts)
      nullable := u.nullable || leaf.isNull } := by
  cases leaf with
  | literal v =>
    cases v with
    | null => simp [gather, withLiteral, literal?, part?, isNull]
    | _ => simp [gather, withLiteral, literal?, part?, isNull]
  | _ => simp [gather, addPart, literal?, part?, isNull]

theorem eraseDups_filterMap_concat {α : Type} (f : α → Option String) (xs : List α) (x : α) :
    ((xs ++ [x]).filterMap f).eraseDups =
      (f x).elim (xs.filterMap f).eraseDups (insert (xs.filterMap f).eraseDups) := by
  rw [List.filterMap_append]
  cases hx : f x with
  | none => rw [List.filterMap_cons_none hx, List.filterMap_nil, List.append_nil, Option.elim_none]
  | some text =>
    have hcontains : (xs.filterMap f).eraseDups.contains text = (xs.filterMap f).contains text := by
      rw [Bool.eq_iff_iff, List.contains_iff_mem, List.contains_iff_mem, List.mem_eraseDups]
    rw [List.filterMap_cons_some hx, List.filterMap_nil, Option.elim_some, insert, eraseDups_concat, hcontains]

/-- What is known of a union while its leaves are read. -/
theorem gathered_eq (textOf : TypeNode → String) (leaves : List TypeNode) : gathered textOf leaves =
    { literals := (leaves.filterMap literal?).eraseDups
      parts := (leaves.filterMap (part? textOf literalMark)).eraseDups
      nullable := leaves.any isNull } := by
  induction leaves using List.reverseRecOn with
  | nil => rfl
  | append_singleton leaves leaf ih =>
    rw [gathered, List.foldl_concat]
    show gather textOf (gathered textOf leaves) leaf = _
    rw [gather_eq, ih, eraseDups_filterMap_concat, eraseDups_filterMap_concat, List.any_append, List.any_cons,
      List.any_nil, Bool.or_false]

/-- The mark may be replaced once all literals are known, as no other part is like it or like what replaces it. -/
theorem map_parts {literals : String}
    (h : ∀ leaf ∈ leaves, leaf.IsOpen → textOf leaf ≠ literalMark ∧ textOf leaf ≠ literals) :
    (leaves.filterMap (part? textOf literalMark)).eraseDups.map (fun p => if p == literalMark then literals else p) =
      (leaves.filterMap (part? textOf literals)).eraseDups := by
  have hpart : ∀ p ∈ leaves.filterMap (part? textOf literalMark), p = literalMark ∨ p ≠ literalMark ∧ p ≠ literals := by
    intro p hp
    obtain ⟨leaf, hleaf, hpart⟩ := List.mem_filterMap.mp hp
    rcases eq_or_exists_of_part? hpart with rfl | ⟨hopen, rfl⟩
    · exact .inl rfl
    · exact .inr (h leaf hleaf hopen)
  rw [← eraseDups_map, List.map_filterMap]
  · congr 1
    apply List.filterMap_congr
    intro leaf hleaf
    rcases leaf.leaf_cases with rfl | ⟨v, -, hpart⟩ | ⟨hopen, -, hpart⟩
    · rfl
    · rw [hpart, hpart, Option.map_some, if_pos (beq_self_eq_true _)]
    · rw [hpart, hpart, Option.map_some, if_neg fun heq => (h leaf hleaf hopen).1 (eq_of_beq heq)]
  · intro x hx y hy heq
    rcases hpart x hx with rfl | ⟨hxmark, hxliterals⟩ <;> rcases hpart y hy with rfl | ⟨hymark, hyliterals⟩
    · rfl
    · rw [if_pos (beq_self_eq_true _), if_neg fun h => hymark (eq_of_beq h)] at heq
      exact absurd heq.symm hyliterals
    · rw [if_pos (beq_self_eq_true _), if_neg fun h => hxmark (eq_of_beq h)] at heq
      exact absurd heq hxliterals
    · rwa [if_neg fun h => hxmark (eq_of_beq h), if_neg fun h => hymark (eq_of_beq h)] at heq

end TypeText.Union

theorem mem_alternativesOf {text : String} (h : text ∈ alternativesOf textOf leaves) :
    (∃ leaf ∈ leaves, leaf.IsOpen ∧ text = textOf leaf) ∨
      text = TypeText.literals (leaves.filterMap literal?).eraseDups ∨ text = "None" := by
  rcases List.mem_append.mp h with h | h
  · obtain ⟨leaf, hleaf, hpart⟩ := List.mem_filterMap.mp (List.mem_eraseDups.mp h)
    rcases eq_or_exists_of_part? hpart with htext | ⟨hopen, htext⟩
    · exact .inr (.inl htext)
    · exact .inl ⟨leaf, hleaf, hopen, htext⟩
  · split at h
    · exact .inr (.inr (List.mem_singleton.mp h))
    · exact absurd h List.not_mem_nil

theorem alternativesOf_ne_nil (textOf : TypeNode → String) (h : leaves ≠ []) : alternativesOf textOf leaves ≠ [] := by
  obtain ⟨leaf, rest, rfl⟩ := List.exists_cons_of_ne_nil h
  rw [alternativesOf]
  have hsome : ∀ {mark text}, leaf.part? textOf mark = some text →
      ((leaf :: rest).filterMap (part? textOf mark)).eraseDups ≠ [] := by
    intro mark text hpart
    rw [List.filterMap_cons_some hpart, List.eraseDups_cons]
    exact List.cons_ne_nil _ _
  rcases leaf.leaf_cases with rfl | ⟨v, -, hpart⟩ | ⟨-, -, hpart⟩
  · exact List.append_ne_nil_of_right_ne_nil _ (List.cons_ne_nil "None" [])
  · exact List.append_ne_nil_of_left_ne_nil (hsome (hpart _ _)) _
  · exact List.append_ne_nil_of_left_ne_nil (hsome (hpart _ _)) _

/-! ## Texts of one piece -/

/-- What stands in front of the first bracket. -/
def headWord (text : String) : List Char := text.toList.takeWhile (· != '[')

/-- An alternative that is neither null nor literals. -/
structure IsPart (text : String) : Prop where
  solid : Alternatives.Solid text.toList
  ne_mark : headWord text ≠ "Literal".toList
  ne_null : headWord text ≠ "None".toList

/-- An identifier that means neither literals nor null. -/
structure IsOtherName (name : String) : Prop where
  hasShape : Identifier.hasShape name.toList = true
  ne_mark : name ≠ "Literal"
  ne_null : name ≠ "None"

theorem isSolid_of_isIdentifierPart {c : Char} (h : Unicode.isIdentifierPart c = true) :
    Alternatives.isSolid c = true := by
  refine Bool.and_eq_true_iff.mpr ⟨Alternatives.isInner_of (by decide +kernel) h, bne_iff_ne.mpr ?_⟩
  rintro rfl
  exact absurd h (by decide +kernel)

section
variable {name arguments : String} (h : IsOtherName name)
include h

theorem IsOtherName.isSolid : ∀ c ∈ name.toList, Alternatives.isSolid c = true :=
  fun c hc => isSolid_of_isIdentifierPart
    (List.all_eq_true.mp (Identifier.all_isPart_of_hasShape h.hasShape) c hc)

theorem IsOtherName.solid : Alternatives.Solid name.toList :=
  Alternatives.solid_of_all (List.all_eq_true.mpr h.isSolid)

theorem IsOtherName.forall_ne_bracket : ∀ c ∈ name.toList, (c != '[') = true := by
  intro c hc
  rw [bne_iff_ne]
  rintro rfl
  exact absurd (h.isSolid '[' hc) (by decide)

theorem IsOtherName.isPart_of_headWord {text : String} (hsolid : Alternatives.Solid text.toList)
    (hhead : headWord text = name.toList) : IsPart text := by
  refine ⟨hsolid, ?_, ?_⟩
  · rw [hhead]
    exact fun heq => h.ne_mark (String.toList_injective heq)
  · rw [hhead]
    exact fun heq => h.ne_null (String.toList_injective heq)

theorem IsOtherName.isPart : IsPart name :=
  h.isPart_of_headWord h.solid (List.takeWhile_eq_self_iff.mpr h.forall_ne_bracket)

theorem IsOtherName.apply (harguments : Alternatives.Balanced arguments.toList) :
    IsPart (name ++ "[" ++ arguments ++ "]") := by
  have hchars : (name ++ "[" ++ arguments ++ "]").toList = name.toList ++ '[' :: (arguments.toList ++ [']']) := by
    simp
  apply h.isPart_of_headWord
  · rw [hchars]
    exact h.solid.brackets harguments
  · rw [headWord, hchars, List.takeWhile_append_of_pos h.forall_ne_bracket]
    exact List.append_nil _

end

theorem headWord_literals (texts : List String) : headWord (TypeText.literals texts) = "Literal".toList := by
  rw [headWord, TypeText.literals, String.toList_append, String.toList_append]
  rfl

namespace IsPart

variable {text values : String}

theorem ne_literalMark (h : IsPart text) : text ≠ literalMark := by
  rintro rfl
  exact h.ne_mark (by decide)

theorem ne_literals (h : IsPart text) (texts : List String) : text ≠ TypeText.literals texts := by
  rintro rfl
  exact h.ne_mark (headWord_literals texts)

theorem ne_none (h : IsPart text) : text ≠ "None" := by
  rintro rfl
  exact h.ne_null (by decide)

theorem any : IsPart "Any" := IsOtherName.isPart ⟨by decide +kernel, by decide, by decide⟩

theorem never : IsPart "NoReturn" := IsOtherName.isPart ⟨by decide +kernel, by decide, by decide⟩

theorem primitive (p : Primitive) : IsPart (TypeText.primitive p) := by
  apply IsOtherName.isPart
  cases p <;> exact ⟨by decide +kernel, by decide, by decide⟩

theorem listOf (h : Alternatives.Balanced values.toList) : IsPart (TypeText.listOf values) := by
  have hname : IsOtherName "list" := ⟨by decide +kernel, by decide, by decide⟩
  exact hname.apply h

theorem mappingTo (h : Alternatives.Balanced values.toList) : IsPart (TypeText.mappingTo values) := by
  have harguments : Alternatives.Balanced ("str, " ++ values).toList := by
    rw [String.toList_append]
    exact (Alternatives.balanced_of_all (by decide)).append h
  have htext : "dict" ++ "[" ++ ("str, " ++ values) ++ "]" = TypeText.mappingTo values := by
    rw [TypeText.mappingTo, ← String.append_assoc]
    rfl
  rw [← htext]
  exact IsOtherName.apply ⟨by decide +kernel, by decide, by decide⟩ harguments

theorem mapping : IsPart TypeText.mapping := by
  have htext : TypeText.mapping = TypeText.mappingTo "Any" := by decide
  rw [htext]
  exact mappingTo any.solid.balanced

end IsPart

theorem solid_literals {texts : List String} (h : ∀ text ∈ texts, Alternatives.Balanced text.toList) :
    Alternatives.Solid (TypeText.literals texts).toList := by
  have hchars : (TypeText.literals texts).toList =
      "Literal".toList ++ '[' :: ((", ".intercalate texts).toList ++ [']']) := by
    simp [TypeText.literals]
  rw [hchars, String.toList_intercalate]
  refine (Alternatives.solid_of_all (by decide)).brackets (Alternatives.Balanced.join ?_ (List.forall_mem_map.mpr h))
  exact Alternatives.balanced_of_all (by decide)

theorem solid_literal (v : Scalar) : Alternatives.Solid (TypeText.literal v).toList := by
  cases v with
  | null => exact Alternatives.solid_of_all (by decide)
  | _ => exact solid_literals (List.forall_mem_singleton.mpr (Alternatives.balanced_spelling _))

/-! ## Unions of solid alternatives -/

/-- Texts that leaves can have in a union. -/
def AreParts (textOf : TypeNode → String) (leaves : List TypeNode) : Prop :=
  ∀ leaf ∈ leaves, leaf.IsOpen → IsPart (textOf leaf)

theorem solid_of_mem_alternativesOf (h : AreParts textOf leaves) {text : String}
    (htext : text ∈ alternativesOf textOf leaves) : Alternatives.Solid text.toList := by
  rcases mem_alternativesOf htext with ⟨leaf, hleaf, hopen, rfl⟩ | rfl | rfl
  · exact (h leaf hleaf hopen).solid
  · apply solid_literals
    intro text htext
    obtain ⟨leaf, -, hliteral⟩ := List.mem_filterMap.mp (List.mem_eraseDups.mp htext)
    obtain ⟨v, rfl⟩ := exists_of_literal? hliteral
    exact Alternatives.balanced_spelling v
  · exact Alternatives.solid_of_all (by decide)

theorem nodup_alternativesOf (h : AreParts textOf leaves) : (alternativesOf textOf leaves).Nodup := by
  rw [alternativesOf, List.nodup_append]
  refine ⟨nodup_eraseDups _, ?_, ?_⟩
  · split
    · exact List.nodup_singleton _
    · exact List.nodup_nil
  · intro text htext other hother
    split at hother
    · obtain rfl := List.mem_singleton.mp hother
      obtain ⟨leaf, hleaf, hpart⟩ := List.mem_filterMap.mp (List.mem_eraseDups.mp htext)
      rcases eq_or_exists_of_part? hpart with rfl | ⟨hopen, rfl⟩
      · intro heq
        have hhead := headWord_literals (leaves.filterMap literal?).eraseDups
        rw [heq] at hhead
        exact absurd hhead (by decide)
      · exact (h leaf hleaf hopen).ne_none
    · exact absurd hother List.not_mem_nil

theorem text_gathered (h : AreParts textOf leaves) (hne : leaves ≠ []) :
    (Union.gathered textOf leaves).text = " | ".intercalate (alternativesOf textOf leaves) := by
  have hall := alternativesOf_ne_nil textOf hne
  rw [Union.gathered_eq, Union.text, Union.map_parts fun leaf hleaf hopen =>
    ⟨(h leaf hleaf hopen).ne_literalMark, (h leaf hleaf hopen).ne_literals _⟩]
  have happend : ∀ b : Bool, ∀ parts : List String,
      (if b then parts ++ ["None"] else parts) = parts ++ if b then ["None"] else [] := by
    intro b parts
    cases b with
    | true => rfl
    | false => exact (List.append_nil parts).symm
  rw [happend]
  exact if_neg fun hempty => hall (List.isEmpty_iff.mp hempty)

theorem alternatives_gathered (h : AreParts textOf leaves) (hne : leaves ≠ []) :
    alternatives (Union.gathered textOf leaves).text = alternativesOf textOf leaves := by
  rw [text_gathered h hne]
  exact alternatives_intercalate (alternativesOf_ne_nil textOf hne) fun _ => solid_of_mem_alternativesOf h

theorem balanced_gathered (h : AreParts textOf leaves) :
    Alternatives.Balanced (Union.gathered textOf leaves).text.toList := by
  by_cases hne : leaves = []
  · rw [hne]
    exact IsPart.never.solid.balanced
  · rw [text_gathered h hne, String.toList_intercalate]
    refine Alternatives.Balanced.join (Alternatives.balanced_of_all (by decide)) (List.forall_mem_map.mpr ?_)
    exact fun _ htext => (solid_of_mem_alternativesOf h htext).balanced

/-! ## Annotations without a hint -/

namespace TypeNode

mutual
/-- How deep types stand in the annotation of a type that has no hint. -/
def nesting : TypeNode → Nat
  | .array items => nesting items + 1
  | .object _ index => nestingOfIndex index + 1
  | .union ts => nestingOfAll ts + 1
  | _ => 1
def nestingOfIndex : Option TypeNode → Nat
  | none => 0
  | some t => nesting t
def nestingOfAll : List TypeNode → Nat
  | [] => 0
  | t :: ts => max (nesting t) (nestingOfAll ts)
end

theorem nesting_pos (t : TypeNode) : 0 < t.nesting := by
  cases t <;> exact Nat.succ_pos _

theorem nesting_le_of_mem {t : TypeNode} {ts : List TypeNode} (h : t ∈ ts) : t.nesting ≤ nestingOfAll ts := by
  induction ts with
  | nil => exact absurd h List.not_mem_nil
  | cons u ts ih =>
    rw [nestingOfAll]
    rcases List.mem_cons.mp h with rfl | h
    · exact Nat.le_max_left _ _
    · exact (ih h).trans (Nat.le_max_right _ _)

theorem nesting_le_of_mem_flattenAll {t : TypeNode} {ts : List TypeNode} (h : t ∈ flattenAll ts) :
    t.nesting ≤ nestingOfAll ts := by
  refine forall_mem_flattenAll (P := fun t => t.nesting ≤ nestingOfAll ts) ?_ (fun _ => nesting_le_of_mem) h
  intro us hus u hu
  have hle := nesting_le_of_mem hu
  rw [nesting] at hus
  omega

mutual
theorem ne_union_of_mem_flatten : ∀ {t u : TypeNode}, u ∈ t.flatten → ∀ ts, u ≠ .union ts
  | .union _, _, hu => ne_union_of_mem_flattenAll (by rwa [flatten] at hu)
  | .any, _, hu | .never, _, hu | .primitive _, _, hu | .literal _, _, hu | .array _, _, hu | .object _ _, _, hu
  | .intersection _, _, hu | .reference _ _, _, hu | .supplied _, _, hu => by
    rw [List.mem_singleton.mp hu]
    exact nofun
theorem ne_union_of_mem_flattenAll : ∀ {ts : List TypeNode} {u : TypeNode}, u ∈ flattenAll ts → ∀ us, u ≠ .union us
  | [], _, hu => absurd hu List.not_mem_nil
  | t :: ts, _, hu => by
    rw [flattenAll, List.mem_append] at hu
    rcases hu with hu | hu
    · exact ne_union_of_mem_flatten hu
    · exact ne_union_of_mem_flattenAll hu
end

mutual
/-- Whether the literals that stand in the annotation of a type without a hint have texts. -/
def isSpelled : TypeNode → Bool
  | .literal v => v.isSpellable
  | .array items => isSpelled items
  | .object fields index => !fields.isEmpty || isSpelledIndex index
  | .union ts => areSpelled ts
  | _ => true
def isSpelledIndex : Option TypeNode → Bool
  | none => true
  | some t => isSpelled t
def areSpelled : List TypeNode → Bool
  | [] => true
  | t :: ts => isSpelled t && areSpelled ts
end

mutual
theorem isSpelled_eq_all_flatten : ∀ t : TypeNode, t.isSpelled = t.flatten.all isSpelled
  | .union ts => by
    rw [isSpelled, flatten]
    exact areSpelled_eq_all_flattenAll ts
  | .any | .never | .primitive _ | .literal _ | .array _ | .object _ _ | .intersection _ | .reference _ _
  | .supplied _ => (Bool.and_true _).symm
theorem areSpelled_eq_all_flattenAll : ∀ ts : List TypeNode, areSpelled ts = (flattenAll ts).all isSpelled
  | [] => rfl
  | t :: ts => by
    rw [areSpelled, flattenAll, List.all_append, isSpelled_eq_all_flatten t, areSpelled_eq_all_flattenAll ts]
end

/-- A leaf whose name, if it is one, is an identifier that means neither literals nor null. -/
def IsNamed (scope : Scope) : TypeNode → Prop
  | .reference name _ => IsOtherName (scope.nameOf name)
  | .supplied name => IsOtherName name
  | _ => True

def Named (scope : Scope) (t : TypeNode) : Prop := ∀ leaf ∈ t.leaves, leaf.IsNamed scope

/-- A text that a type has without a hint, from whatever state, nothing being declared on the way. -/
def RendersAs (scope : Scope) (t : TypeNode) (text : String) : Prop :=
  ∀ depth, t.nesting ≤ depth → ∀ s, Runs ((atDepth scope depth).render t "") s text s

/-- A text that a type has without a hint, and what it looks like. -/
structure Shows (scope : Scope) (t : TypeNode) (text : String) : Prop where
  renders : RendersAs scope t text
  balanced : Alternatives.Balanced text.toList
  isPart : (∀ ts, t ≠ .union ts) → t.IsOpen → IsPart text

variable {scope : Scope} {t : TypeNode} {text : String}

theorem rendersAs_of (h : ∀ depth, t.nesting ≤ depth + 1 →
    ∀ s, Runs ((atDepth scope depth).renderWith scope t "") s text s) : RendersAs scope t text := by
  intro depth hdepth s
  cases depth with
  | zero => exact absurd hdepth (Nat.not_le.mpr t.nesting_pos)
  | succ depth => exact h depth hdepth s

theorem shows_of_isPart (hpart : IsPart text)
    (h : ∀ depth, t.nesting ≤ depth + 1 → ∀ s, Runs ((atDepth scope depth).renderWith scope t "") s text s) :
    Shows scope t text where
  renders := rendersAs_of h
  balanced := hpart.solid.balanced
  isPart _ _ := hpart

theorem runs_union {w : TypeWriter} {members : List TypeNode} {hint : String} {s : Draft}
    (hliterals : ∀ v, .literal v ∈ flattenAll members → v.isSpellable = true)
    (h : ∀ leaf ∈ flattenAll members, leaf.IsOpen → Runs (w.render leaf hint) s (textOf leaf) s) :
    Runs (w.union members hint) s (Union.gathered textOf (flattenAll members)).text s := by
  refine Runs.bind_iff.mpr ⟨Union.gathered textOf (flattenAll members), s, ?_, Runs.pure_iff.mpr ⟨rfl, rfl⟩⟩
  rw [Union.gathered]
  generalize flattenAll members = leaves at h hliterals
  generalize ({} : Union) = u
  induction leaves generalizing u with
  | nil => exact Runs.foldlM_nil_iff.mpr ⟨rfl, rfl⟩
  | cons leaf leaves ih =>
    obtain ⟨hleaf, hleaves⟩ := List.forall_mem_cons.mp h
    have hrest := ih hleaves fun v hv => hliterals v (List.mem_cons_of_mem leaf hv)
    refine Runs.foldlM_cons_iff.mpr ⟨Union.gather textOf u leaf, s, ?_, hrest _⟩
    cases leaf with
    | literal v =>
      exact Runs.lift_iff.mpr ⟨Result.guarded_of_true (hliterals v List.mem_cons_self), rfl⟩
    | _ => exact Runs.bind_iff.mpr ⟨_, s, hleaf trivial, Runs.pure_iff.mpr ⟨rfl, rfl⟩⟩

/-- A union has the text that is gathered from the texts of its leaves. -/
theorem rendersAs_union {members : List TypeNode}
    (h : ∀ leaf ∈ flattenAll members, RendersAs scope leaf (textOf leaf)) :
    RendersAs scope (.union members) (Union.gathered textOf (flattenAll members)).text := by
  have hliterals : ∀ v, .literal v ∈ flattenAll members → v.isSpellable = true := by
    intro v hv
    have hrun := h (.literal v) hv 1 (Nat.le_refl 1) default
    exact (Result.guarded_eq_ok_iff.mp (Runs.lift_iff.mp hrun).1).1
  apply rendersAs_of
  intro depth hdepth s
  apply runs_union hliterals
  intro leaf hleaf _
  have hle := nesting_le_of_mem_flattenAll hleaf
  rw [nesting] at hdepth
  exact h leaf hleaf depth (by omega) s

theorem Named.of_mem_flattenAll {members : List TypeNode} (h : (TypeNode.union members).Named scope) {leaf : TypeNode}
    (hleaf : leaf ∈ flattenAll members) : leaf.Named scope := by
  refine forall_mem_flattenAll (P := Named scope) ?_ ?_ hleaf
  · exact fun ts hts t ht u hu => hts u (mem_leavesOfAll.mpr ⟨t, ht, hu⟩)
  · exact fun t ht u hu => h u (mem_leavesOfAll.mpr ⟨t, ht, hu⟩)

theorem isSpelled_of_mem_flattenAll {members : List TypeNode} (h : (TypeNode.union members).isSpelled = true)
    {leaf : TypeNode} (hleaf : leaf ∈ flattenAll members) : leaf.isSpelled = true := by
  rw [isSpelled, areSpelled_eq_all_flattenAll] at h
  exact List.all_eq_true.mp h leaf hleaf

theorem areParts_of_shows {members : List TypeNode} (h : ∀ leaf ∈ flattenAll members, Shows scope leaf (textOf leaf)) :
    AreParts textOf (flattenAll members) :=
  fun leaf hleaf hopen => (h leaf hleaf).isPart (ne_union_of_mem_flattenAll hleaf) hopen

theorem exists_shows (n : Nat) : ∀ t : TypeNode, t.nesting ≤ n → t.Named scope → t.isSpelled = true →
    ∃ text, Shows scope t text := by
  induction n with
  | zero => exact fun t ht => absurd ht (Nat.not_le.mpr t.nesting_pos)
  | succ n ih =>
    intro t ht hnames hspelled
    cases t with
    | any => exact ⟨_, shows_of_isPart .any fun _ _ _ => Runs.pure_iff.mpr ⟨rfl, rfl⟩⟩
    | never => exact ⟨_, shows_of_isPart .never fun _ _ _ => Runs.pure_iff.mpr ⟨rfl, rfl⟩⟩
    | primitive p => exact ⟨_, shows_of_isPart (.primitive p) fun _ _ _ => Runs.pure_iff.mpr ⟨rfl, rfl⟩⟩
    | reference name pointer =>
      have hname : IsOtherName (scope.nameOf name) := hnames (.reference name pointer) (List.mem_singleton_self _)
      exact ⟨_, shows_of_isPart hname.isPart fun _ _ _ => Runs.pure_iff.mpr ⟨rfl, rfl⟩⟩
    | supplied name =>
      have hname : IsOtherName name := hnames (.supplied name) (List.mem_singleton_self _)
      exact ⟨_, shows_of_isPart hname.isPart fun _ _ _ => Runs.pure_iff.mpr ⟨rfl, rfl⟩⟩
    | intersection ts => exact ⟨_, shows_of_isPart .mapping fun _ _ _ => Runs.pure_iff.mpr ⟨rfl, rfl⟩⟩
    | literal v =>
      have htext : ofLiteral v = .ok (TypeText.literal v) := Result.guarded_of_true hspelled
      exact ⟨_, rendersAs_of fun _ _ _ => Runs.lift_iff.mpr ⟨htext, rfl⟩, (solid_literal v).balanced,
        fun _ hopen => hopen.elim⟩
    | array items =>
      obtain ⟨values, hitems⟩ := ih items (Nat.le_of_succ_le_succ ht) hnames hspelled
      refine ⟨_, shows_of_isPart (.listOf hitems.balanced) fun depth hdepth s => ?_⟩
      exact Runs.bind_iff.mpr
        ⟨values, s, hitems.renders depth (Nat.le_of_succ_le_succ hdepth) s, Runs.pure_iff.mpr ⟨rfl, rfl⟩⟩
    | object fields index =>
      cases fields with
      | cons field fields => exact ⟨_, shows_of_isPart .mapping fun _ _ _ => Runs.pure_iff.mpr ⟨rfl, rfl⟩⟩
      | nil =>
        cases index with
        | none => exact ⟨_, shows_of_isPart .mapping fun _ _ _ => Runs.pure_iff.mpr ⟨rfl, rfl⟩⟩
        | some values =>
          obtain ⟨text, hvalues⟩ := ih values (Nat.le_of_succ_le_succ ht) hnames hspelled
          refine ⟨_, shows_of_isPart (.mappingTo hvalues.balanced) fun depth hdepth s => ?_⟩
          exact Runs.bind_iff.mpr
            ⟨text, s, hvalues.renders depth (Nat.le_of_succ_le_succ hdepth) s, Runs.pure_iff.mpr ⟨rfl, rfl⟩⟩
    | union members =>
      have hleaf : ∀ leaf ∈ flattenAll members, ∃ text, Shows scope leaf text := by
        intro leaf hleaf
        have hle := nesting_le_of_mem_flattenAll hleaf
        rw [nesting] at ht
        exact ih leaf (by omega) (hnames.of_mem_flattenAll hleaf) (isSpelled_of_mem_flattenAll hspelled hleaf)
      choose! textOf htexts using hleaf
      exact ⟨_, rendersAs_union fun leaf hleaf => (htexts leaf hleaf).renders,
        balanced_gathered (areParts_of_shows htexts), fun hunion => absurd rfl (hunion members)⟩

/-- A type whose annotation shows a literal without a text has no annotation. -/
theorem isSpelled_of_runs (depth : Nat) : ∀ {t : TypeNode} {s u : Draft} {text : String},
    Runs ((atDepth scope depth).render t "") s text u → t.isSpelled = true := by
  induction depth with
  | zero => exact fun hrun => absurd hrun Runs.throw_iff
  | succ depth ih =>
    intro t s u text hrun
    cases t with
    | literal v => exact (Result.guarded_eq_ok_iff.mp (Runs.lift_iff.mp hrun).1).1
    | array items =>
      obtain ⟨values, v, hitems, -⟩ := Runs.bind_iff.mp hrun
      have hspelled : items.isSpelled = true := ih hitems
      exact hspelled
    | object fields index =>
      rcases fields with - | ⟨field, fields⟩
      · cases index with
        | none => rfl
        | some values =>
          obtain ⟨text, v, hvalues, -⟩ := Runs.bind_iff.mp hrun
          have hspelled : values.isSpelled = true := ih hvalues
          exact hspelled
      · rfl
    | union members =>
      obtain ⟨made, v, hrounds, -⟩ := Runs.bind_iff.mp hrun
      rw [isSpelled, areSpelled_eq_all_flattenAll, List.all_eq_true]
      intro leaf hleaf
      obtain ⟨a, x, b, y, -, hround⟩ :=
        Runs.exists_round_of_foldlM (fun _ => True) (fun _ _ _ _ _ _ _ _ => trivial) trivial hrounds hleaf
      cases leaf with
      | literal v => exact (Result.guarded_eq_ok_iff.mp (Runs.lift_iff.mp hround).1).1
      | _ =>
        obtain ⟨part, z, hpart, -⟩ := Runs.bind_iff.mp hround
        exact ih hpart
    | _ => rfl

/-- A union that is written without a hint names the distinct texts of its leaves, the one text that holds each
distinct literal once among them, where they occur first, and null at the end if it is a leaf; nothing else decides
on its text. It is written unless one of its literals has no text. -/
theorem union_faithful (scope : Scope) {members : List TypeNode} (hleaves : flattenAll members ≠ [])
    (hnames : (TypeNode.union members).Named scope) :
    ((TypeNode.union members).isSpelled = true → ∃ textOf text,
      (∀ leaf ∈ flattenAll members, RendersAs scope leaf (textOf leaf)) ∧
      RendersAs scope (.union members) text ∧
      alternatives text = alternativesOf textOf (flattenAll members) ∧ (alternatives text).Nodup ∧
      ∀ others, flattenAll others = flattenAll members → RendersAs scope (.union others) text) ∧
    ((TypeNode.union members).isSpelled = false → ∀ depth s text t,
      ¬ Runs ((atDepth scope depth).render (.union members) "") s text t) := by
  refine ⟨fun hspelled => ?_, fun hlong depth _ _ _ hrun => ?_⟩
  case refine_2 => exact Bool.false_ne_true (hlong.symm.trans (isSpelled_of_runs depth hrun))
  have hleaf : ∀ leaf ∈ flattenAll members, ∃ text, Shows scope leaf text :=
    fun leaf hleaf => exists_shows leaf.nesting leaf (Nat.le_refl _) (hnames.of_mem_flattenAll hleaf)
      (isSpelled_of_mem_flattenAll hspelled hleaf)
  choose! textOf htexts using hleaf
  have hrenders : ∀ leaf ∈ flattenAll members, RendersAs scope leaf (textOf leaf) :=
    fun leaf hleaf => (htexts leaf hleaf).renders
  have halternatives := alternatives_gathered (areParts_of_shows htexts) hleaves
  refine ⟨textOf, _, hrenders, rendersAs_union hrenders, halternatives, ?_, ?_⟩
  · rw [halternatives]
    exact nodup_alternativesOf (areParts_of_shows htexts)
  · intro others hothers
    rw [← hothers] at hrenders ⊢
    exact rendersAs_union hrenders

/-- A literal and a name stand in a union of their own. -/
def mixed : List TypeNode :=
  [null, .literal (.str "a"), string, .literal (.int 1), .union [.literal (.str "a"), .reference "Pet" none]]

theorem union_faithful_mixed : flattenAll mixed ≠ [] ∧ (TypeNode.union mixed).Named default ∧
    (TypeNode.union mixed).isSpelled = true ∧ ∃ text,
    RendersAs default (.union mixed) text ∧ alternatives text = ["Literal[\"a\", 1]", "str", "Pet", "None"] := by
  have hne : flattenAll mixed ≠ [] := List.cons_ne_nil _ _
  have hname : (default : Scope).nameOf "Pet" = "Pet" := by decide +kernel
  have hnames : (TypeNode.union mixed).Named default := by
    have hpet : IsNamed default (.reference "Pet" none) := by
      show IsOtherName ((default : Scope).nameOf "Pet")
      rw [hname]
      exact ⟨by decide +kernel, by decide, by decide⟩
    show ∀ leaf ∈ [null, .literal (.str "a"), string, .literal (.int 1), .literal (.str "a"), .reference "Pet" none],
      leaf.IsNamed default
    simp only [List.forall_mem_cons]
    exact ⟨trivial, trivial, trivial, trivial, trivial, hpet, List.forall_mem_nil _⟩
  have hspelled : (TypeNode.union mixed).isSpelled = true := by decide +kernel
  obtain ⟨textOf, text, hleaves, hrenders, halternatives, -⟩ := (union_faithful default hne hnames).1 hspelled
  refine ⟨hne, hnames, hspelled, text, hrenders, ?_⟩
  have hstring : textOf string = "str" :=
    (Runs.pure_iff.mp (hleaves string (by simp [mixed, flattenAll, flatten, string]) 1 (Nat.le_refl _) default)).1
  have hpet : textOf (.reference "Pet" none) = "Pet" := by
    have hmem : TypeNode.reference "Pet" none ∈ flattenAll mixed := by simp [mixed, flattenAll, flatten]
    rw [← hname]
    exact (Runs.pure_iff.mp (hleaves _ hmem 1 (Nat.le_refl _) default)).1
  rw [halternatives]
  show (["Literal[\"a\", 1]", textOf string, "Literal[\"a\", 1]", "Literal[\"a\", 1]",
    textOf (.reference "Pet" none)] : List String).eraseDups ++ ["None"] = _
  rw [hstring, hpet]
  decide +kernel

end TypeNode
end ClientBindings

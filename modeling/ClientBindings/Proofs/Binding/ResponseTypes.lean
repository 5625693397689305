import ClientBindings.Binding.Response
import ClientBindings.Proofs.Binding.BodyType
import ClientBindings.Proofs.Schema.SameTypes

/-! The union of the types of the successful responses. Its members stand in the order of the keys, and a type is left
out exactly if it is the same as that of an earlier key. That loses a tree of its own only where numbers or truth values
in literals, names or remarks are equal without being the same value. -/

namespace ClientBindings

/-! ## The types of single responses -/

namespace Schema
variable {document : Data} {typeOf : Data → M TypeNode} {s t : State}

/-- After all parts are served each can be served again on its own, to no effect. -/
theorem Repeats.forall₂ (h : Repeats typeOf) (hgrows : Grows typeOf) {parts : List Data} {ts : List TypeNode}
    (hrun : Runs (parts.mapM typeOf) s ts t) : List.Forall₂ (fun part type => Runs (typeOf part) t type t) parts ts := by
  induction parts generalizing s ts with
  | nil =>
    rw [(Runs.mapM_nil_iff.mp hrun).1]
    exact .nil
  | cons part parts ih =>
    obtain ⟨type, u, rest, hpart, hrest, rfl⟩ := Runs.mapM_cons_iff.mp hrun
    exact .cons (h _ _ _ _ _ hpart (hgrows.parts hrest)) (ih hrest)

end Schema

namespace Response
variable {document responses : Data} {keys : List Data} {s t : Schema.State} {result : TypeNode}

theorem runs_typeOfOne_iff {response : Data} {type : TypeNode} : Runs (typeOfOne document response) s type t ↔
    ∃ node content, target document response = .ok node ∧ node.get "content" = .ok content ∧
      (content.isNull = true ∧ type = .any ∧ t = s ∨
        content.isNull = false ∧ ∃ schema, Schema.ofContent content = .ok schema ∧
          Runs (Schema.typeOf document schema) s type t) := by
  simp only [typeOfOne, Runs.bind_iff, Runs.lift_iff, Result.bind_eq_ok_iff]
  constructor
  · rintro ⟨content, _, ⟨⟨node, hnode, hcontent⟩, rfl⟩, h⟩
    refine ⟨node, content, hnode, hcontent, ?_⟩
    cases hnull : content.isNull with
    | true =>
      rw [if_pos hnull, Runs.pure_iff] at h
      exact .inl ⟨rfl, h⟩
    | false =>
      rw [if_neg (by simp [hnull])] at h
      simp only [Runs.bind_iff, Runs.lift_iff] at h
      obtain ⟨schema, _, ⟨hschema, rfl⟩, h⟩ := h
      exact .inr ⟨rfl, schema, hschema, h⟩
  · rintro ⟨node, content, hnode, hcontent, h⟩
    refine ⟨content, s, ⟨⟨node, hnode, hcontent⟩, rfl⟩, ?_⟩
    rcases h with ⟨hnull, rfl, rfl⟩ | ⟨hnull, schema, hschema, h⟩
    · rw [if_pos hnull, Runs.pure_iff]
      exact ⟨rfl, rfl⟩
    · rw [if_neg (by simp [hnull])]
      simp only [Runs.bind_iff, Runs.lift_iff]
      exact ⟨schema, s, ⟨hschema, rfl⟩, h⟩

theorem typeOfOne_grows (document : Data) : Schema.Grows (typeOfOne document) := by
  intro response s type t h
  obtain ⟨_, _, _, _, ⟨_, _, rfl⟩ | ⟨_, schema, _, htype⟩⟩ := runs_typeOfOne_iff.mp h
  · exact List.prefix_refl _
  · exact Schema.typeOfAt_grows document _ _ _ _ _ htype

theorem typeOfOne_keeps (document : Data) : Schema.Keeps (typeOfOne document) := by
  intro response s type t pending hs h
  obtain ⟨_, _, _, _, ⟨_, rfl, rfl⟩ | ⟨_, schema, _, htype⟩⟩ := runs_typeOfOne_iff.mp h
  · refine ⟨hs, fun leaf hleaf => ?_⟩
    obtain rfl := List.mem_singleton.mp hleaf
    exact Schema.anchored_of_isPlainLeaf trivial
  · exact Schema.typeOfAt_keeps document _ _ _ _ _ pending hs htype

theorem typeOfOne_repeats (document : Data) : Schema.Repeats (typeOfOne document) := by
  intro response s type t u h hseen
  obtain ⟨node, content, hnode, hcontent, ⟨hnull, rfl, rfl⟩ | ⟨hnull, schema, hschema, htype⟩⟩ :=
    runs_typeOfOne_iff.mp h
  · exact runs_typeOfOne_iff.mpr ⟨node, content, hnode, hcontent, .inl ⟨hnull, rfl, rfl⟩⟩
  · have hagain := Schema.typeOfAt_repeats document _ _ _ _ _ u htype hseen
    exact runs_typeOfOne_iff.mpr ⟨node, content, hnode, hcontent, .inr ⟨hnull, schema, hschema, hagain⟩⟩

theorem wellKeyed_defaultContent : Schema.defaultContent.WellKeyed :=
  .map (List.pairwise_singleton _ _) fun _ he => List.mem_singleton.mp he ▸ .scalar _

theorem wellKeyed_of_ofContent {content schema : Data} (h : content.WellKeyed)
    (hschema : Schema.ofContent content = .ok schema) : schema.WellKeyed := by
  obtain ⟨keys, -, hschema⟩ := Result.bind_eq_ok_iff.mp hschema
  dsimp only at hschema
  split at hschema
  · exact Result.pure_eq_ok_iff.mp hschema ▸ wellKeyed_defaultContent
  split at hschema
  · exact Result.pure_eq_ok_iff.mp hschema ▸ wellKeyed_defaultContent
  split at hschema
  · simp only [Result.bind_eq_ok_iff, Result.pure_eq_ok_iff] at hschema
    obtain ⟨key, -, _, rfl, given, hget, rfl⟩ := hschema
    split
    · exact (h.under key).orElse.get hget
    · exact wellKeyed_defaultContent
  · cases hschema

theorem typeOfOne_same_self {response : Data} {type : TypeNode} (hdocument : document.WellKeyed)
    (hresponse : response.WellKeyed) (h : Runs (typeOfOne document response) s type t) : type.same type = true := by
  obtain ⟨node, content, hnode, hcontent, ⟨_, rfl, _⟩ | ⟨_, schema, hschema, htype⟩⟩ := runs_typeOfOne_iff.mp h
  · rw [TypeNode.same]
  · simp only [target, Result.bind_eq_ok_iff, Result.pure_eq_ok_iff] at hnode
    obtain ⟨resolved, hresolved, rfl⟩ := hnode
    have hcontent := (hdocument.resolve hresponse hresolved).orElse.get hcontent
    exact Schema.typeOfAt_same_self (wellKeyed_of_ofContent hcontent hschema) htype

/-! ## All successful responses -/

theorem text_le_iff {a b : Data} : (!decide (b.text < a.text)) = true ↔ a.text ≤ b.text := by
  rw [Bool.not_eq_true', decide_eq_false_iff_not]
  exact String.not_lt

theorem successKeys_eq_ok (h : successKeys responses = .ok keys) : ∃ codes found, responses.elements = .ok codes ∧
    codes.filterM isSuccess = .ok found ∧ keys = found.mergeSort fun a b => !decide (b.text < a.text) := by
  obtain ⟨codes, hcodes, h⟩ := Result.bind_eq_ok_iff.mp h
  obtain ⟨found, hfound, h⟩ := Result.bind_eq_ok_iff.mp h
  exact ⟨codes, found, hcodes, hfound, (Result.pure_eq_ok_iff.mp h).symm⟩

theorem mem_successKeys_iff (h : successKeys responses = .ok keys) : ∃ codes, responses.elements = .ok codes ∧
    ∀ key, key ∈ keys ↔ key ∈ codes ∧ isSuccess key = .ok true := by
  obtain ⟨codes, found, hcodes, hfound, rfl⟩ := successKeys_eq_ok h
  refine ⟨codes, hcodes, fun key => ?_⟩
  rw [List.mem_mergeSort]
  exact Result.mem_filterM_iff hfound

theorem successKeys_ordered (h : successKeys responses = .ok keys) : keys.Pairwise fun a b => a.text ≤ b.text := by
  obtain ⟨codes, found, -, -, rfl⟩ := successKeys_eq_ok h
  have hsorted : (found.mergeSort fun a b => !decide (b.text < a.text)).Pairwise
      fun a b => (!decide (b.text < a.text)) = true := by
    refine List.pairwise_mergeSort (fun a b c hab hbc => ?_) (fun a b => ?_) found
    · exact text_le_iff.mpr (String.le_trans (text_le_iff.mp hab) (text_le_iff.mp hbc))
    · rw [Bool.or_eq_true, text_le_iff, text_le_iff]
      exact String.le_total a.text b.text
  exact hsorted.imp fun h => text_le_iff.mp h

/-- Codes that stand in order stay so. -/
theorem successKeys_of_ordered {codes : List Data} (hcodes : responses.elements = .ok codes)
    (hkeys : codes.filterM isSuccess = .ok keys) (hordered : keys.Pairwise fun a b => a.text ≤ b.text) :
    successKeys responses = .ok keys := by
  unfold successKeys
  rw [hcodes]
  show (codes.filterM isSuccess >>= _) = _
  rw [hkeys]
  exact congrArg Except.ok (List.mergeSort_of_pairwise (hordered.imp text_le_iff.mpr))

/-- The types of the successful responses, and those of them that are the members of the union. -/
structure Gathered (document responses : Data) (keys : List Data) (types members : List TypeNode) (t : Schema.State) :
    Prop where
  successful : ∃ codes, responses.elements = .ok codes ∧ ∀ key, key ∈ keys ↔ key ∈ codes ∧ isSuccess key = .ok true
  ordered : keys.Pairwise fun a b => a.text ≤ b.text
  typed : List.Forall₂ (fun key type => ∃ response, responses.item key = .ok response ∧
    Runs (typeOfOne document response) t type t) keys types
  kept : TypeNode.KeptOf types members
  nodup : document.WellKeyed → responses.WellKeyed → members.Nodup
  telling : ∀ type ∈ types, type.Telling → type ∈ members

theorem runs_type_iff (hkeys : successKeys responses = .ok keys) (hne : keys ≠ []) :
    Runs (type document responses) s result t ↔ ∃ found types, keys.mapM responses.item = .ok found ∧
      Runs (found.mapM (typeOfOne document)) s types t ∧ result = .unionOf (TypeNode.dedup types) := by
  have hrelevant : relevant responses = keys.mapM responses.item := by
    unfold relevant
    rw [hkeys]
    cases keys with
    | nil => exact absurd rfl hne
    | cons => rfl
  simp only [type, hrelevant, Runs.bind_iff, Runs.lift_iff, Runs.pure_iff]
  constructor
  · rintro ⟨found, _, ⟨hfound, rfl⟩, types, _, htypes, rfl, rfl⟩
    exact ⟨found, types, hfound, htypes, rfl⟩
  · rintro ⟨found, types, hfound, htypes, rfl⟩
    exact ⟨found, s, ⟨hfound, rfl⟩, types, t, htypes, rfl, rfl⟩

theorem forall₂_item {R : Data → TypeNode → Prop} {found : List Data} {types : List TypeNode}
    (hfound : keys.mapM responses.item = .ok found) (h : List.Forall₂ R found types) :
    List.Forall₂ (fun key type => ∃ response, responses.item key = .ok response ∧ R response type) keys types := by
  induction keys generalizing found types with
  | nil =>
    obtain rfl := Result.mapM_nil_eq_ok_iff.mp hfound
    cases h
    exact .nil
  | cons key keys ih =>
    obtain ⟨response, rest, hresponse, hrest, rfl⟩ := Result.mapM_cons_eq_ok_iff.mp hfound
    cases h with
    | cons hR h => exact .cons ⟨response, hresponse, hR⟩ (ih hrest h)

/-- A type is a member of the union unless it is the same as the type of an earlier key, so one that tells itself apart
is never left out. -/
theorem type_gathers {done : List (Schema.Call × TypeNode)} (hsession : Schema.Session document done s)
    (hkeys : successKeys responses = .ok keys) (hne : keys ≠ []) (h : Runs (type document responses) s result t) :
    ∃ types members, Gathered document responses keys types members t ∧ result = .unionOf members := by
  obtain ⟨found, types, hfound, htypes, rfl⟩ := (runs_type_iff hkeys hne).mp h
  obtain ⟨hsound, hsettled⟩ := (typeOfOne_keeps document).parts (typeOfOne_grows document) hsession.invariant.1 htypes
  have hagain := (typeOfOne_repeats document).forall₂ (typeOfOne_grows document) htypes
  have hkept := TypeNode.keptOf_dedup types
  refine ⟨types, _, ?_, rfl⟩
  exact {
    successful := mem_successKeys_iff hkeys
    ordered := successKeys_ordered hkeys
    typed := forall₂_item hfound hagain
    kept := hkept
    nodup := by
      intro hdocument hresponses
      refine hkept.nodup fun type htype => ?_
      obtain ⟨response, hresponse, hrun⟩ := exists_of_mem_forall₂ hagain htype
      obtain ⟨key, _, hitem⟩ := Result.exists_of_mem_mapM hfound hresponse
      exact typeOfOne_same_self hdocument (hresponses.item hitem) hrun
    telling := by
      intro type htype htelling
      rcases hkept.covered type htype with hmem | ⟨m, hm, hsame⟩
      · exact hmem
      · have hnames : (t.refs.map Prod.snd).Nodup := List.nodup_reverse.mp (hsound.names ▸ hsound.distinctNames)
        have heq := Schema.eq_of_same hnames htelling (hsettled m (hkept.ordered.subset hm)) (hsettled type htype) hsame
        exact heq ▸ hm }

/-- A response whose JSON body has a schema. -/
def answer (schema : Data) : Data := .object [("content", .object [("application/json", .object [("schema", schema)])])]

/-- Three codes that count and one that does not. -/
def created : Data := .object [
  ("200", answer (.object [("type", .str "string")])),
  ("201", answer (.object [("type", .str "array")])),
  ("404", answer (.object [("type", .str "number")])),
  ("204", .object [])]

theorem type_gathers_created : ∃ keys result t, Schema.Session (.map []) [] {} ∧ successKeys created = .ok keys ∧
    keys ≠ [] ∧ Runs (type (.map []) created) {} result t ∧
    ∃ types members, Gathered (.map []) created keys types members t ∧ result = .unionOf members := by
  have hkeys : successKeys created = .ok [.str "200", .str "201", .str "204"] :=
    successKeys_of_ordered rfl rfl (by decide)
  obtain ⟨result, t, hrun⟩ : ∃ result t, Runs (type (.map []) created) {} result t :=
    ⟨_, _, (runs_type_iff hkeys (by simp)).mpr ⟨_, _, rfl, rfl, rfl⟩⟩
  exact ⟨_, result, t, .start, hkeys, by simp, hrun, type_gathers .start hkeys (by simp) hrun⟩

/-- The number one and the truth value. -/
def oneOrTrue : Data := .object [
  ("200", answer (.object [("enum", .list [.int 1])])),
  ("201", answer (.object [("enum", .list [.bool true])]))]

/-- They are different types, but only the first one is in the union. -/
theorem exists_type_lost : ∃ first second, successKeys oneOrTrue = .ok [.str "200", .str "201"] ∧
    oneOrTrue.item (.str "200") = .ok first ∧ oneOrTrue.item (.str "201") = .ok second ∧
    Runs (typeOfOne (.map []) first) {} (.literal (.int 1)) {} ∧
    Runs (typeOfOne (.map []) second) {} (.literal (.bool true)) {} ∧
    Runs (type (.map []) oneOrTrue) {} (.literal (.int 1)) {} := by
  have hkeys : successKeys oneOrTrue = .ok [.str "200", .str "201"] :=
    successKeys_of_ordered rfl rfl (by decide)
  have hdedup : TypeNode.dedup [.literal (.int 1), .literal (.bool true)] = [.literal (.int 1)] := by
    simp [TypeNode.dedup, TypeNode.same, Scalar.same, Scalar.whole?]
  refine ⟨_, _, hkeys, rfl, rfl, rfl, rfl, (runs_type_iff hkeys (by simp)).mpr ⟨_, _, rfl, rfl, ?_⟩⟩
  exact congrArg TypeNode.unionOf hdedup.symm

end Response
end ClientBindings

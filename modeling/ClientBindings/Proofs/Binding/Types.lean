import ClientBindings.Binding.Api
import ClientBindings.Proofs.Schema.Aliases
import Mathlib.Data.List.ReduceOption

/-! The types of a compiled document. All of them come from one synthesis, which every part of the
compilation continues where the part before it stopped, so every reference in a binding stands for an
alias of the same document. -/

namespace ClientBindings

open Schema (Settled)

/-! ## Runs of a compilation -/

namespace Compilation

/-- A later state of a compilation, in which no alias is pending. -/
structure Reaches (s t : Compilation) : Prop where
  sound : Schema.Sound t.schema []
  grows : s.schema.refs <+: t.schema.refs

section
variable {α : Type} {s t u : Compilation}

theorem Reaches.refl (h : Schema.Sound s.schema []) : Reaches s s := ⟨h, List.prefix_refl _⟩

theorem Reaches.trans (h : Reaches s t) (h' : Reaches t u) : Reaches s u := ⟨h'.sound, h.grows.trans h'.grows⟩

/-- The schemas are all that matters. -/
theorem Reaches.of_schema_eq (h : Schema.Sound s.schema []) (heq : t.schema = s.schema) : Reaches s t :=
  ⟨heq ▸ h, heq ▸ List.prefix_refl _⟩

theorem runs_synthesize_iff {m : Schema.M α} {a : α} :
    Runs (synthesize m) s a t ↔ ∃ schema, Runs m s.schema a schema ∧ t = { s with schema } := by
  simp only [synthesize, Runs.bind_iff, Runs.get_iff]
  constructor
  · rintro ⟨_, before, ⟨rfl, rfl⟩, h⟩
    rcases hm : ExceptT.run m before.schema with ⟨result, schema⟩
    rw [hm] at h
    obtain ⟨_, u, hmodify, h⟩ := Runs.bind_iff.mp h
    obtain rfl := Runs.modify_iff.mp hmodify
    cases result with
    | ok a' =>
      obtain ⟨rfl, rfl⟩ := Runs.pure_iff.mp h
      exact ⟨schema, hm, rfl⟩
    | error f => exact (Runs.throw_iff h).elim
  · rintro ⟨schema, hm, rfl⟩
    have hm : ExceptT.run m s.schema = (.ok a, schema) := hm
    refine ⟨_, _, ⟨rfl, rfl⟩, ?_⟩
    rw [hm]
    rfl

theorem runs_warn_iff {d : Diagnostic} {a : Unit} :
    Runs (warn d) s a t ↔ t = { s with diagnostics := s.diagnostics ++ [d] } := Runs.modify_iff

/-- Rounds that each go on with the same synthesis. -/
theorem runs_mapM {γ : Type} {f : γ → M α} {xs : List γ} {as : List α}
    (Good : List (String × String) → α → Prop) (mono : ∀ refs more a, refs <+: more → Good refs a → Good more a)
    (step : ∀ x ∈ xs, ∀ u a v, Schema.Sound u.schema [] → Runs (f x) u a v → Reaches u v ∧ Good v.schema.refs a)
    (hs : Schema.Sound s.schema []) (h : Runs (xs.mapM f) s as t) :
    Reaches s t ∧ ∀ a ∈ as, Good t.schema.refs a := by
  obtain ⟨ht, hgrows, hgood⟩ := Runs.mapM_induct (fun u => Schema.Sound u.schema [])
    (fun u => u.schema.refs) (fun u a => Good u.schema.refs a) (fun _ _ _ huv => mono _ _ _ huv)
    (fun x hx u a v hu hrun =>
      let ⟨huv, hgood⟩ := step x hx u a v hu hrun
      ⟨huv.sound, huv.grows, hgood⟩) hs h
  exact ⟨⟨ht, hgrows⟩, hgood⟩

theorem runs_foldlM {γ : Type} {f : α → γ → M α} {xs : List γ} {a b : α}
    (Good : List (String × String) → α → Prop)
    (step : ∀ x ∈ xs, ∀ a u b v, Schema.Sound u.schema [] → Good u.schema.refs a → Runs (f a x) u b v →
      Reaches u v ∧ Good v.schema.refs b)
    (hs : Schema.Sound s.schema []) (ha : Good s.schema.refs a) (h : Runs (xs.foldlM f a) s b t) :
    Reaches s t ∧ Good t.schema.refs b := by
  obtain ⟨ht, hgrows, hgood⟩ := Runs.foldlM_induct (fun u => Schema.Sound u.schema []) (fun u => u.schema.refs)
    (fun u a => Good u.schema.refs a)
    (fun x hx a u b v hu ha hrun =>
      let ⟨huv, hgood⟩ := step x hx a u b v hu ha hrun
      ⟨huv.sound, huv.grows, hgood⟩) hs ha h
  exact ⟨⟨ht, hgrows⟩, hgood⟩

end

end Compilation

open Compilation (Reaches runs_synthesize_iff)

section
variable {document : Data} {naming : Naming} {refs more : List (String × String)} {s t : Compilation}

/-- Types that a synthesis yields refer to what it has registered. -/
theorem reaches_typeOf {schema : Data} {type : TypeNode} (hs : Schema.Sound s.schema [])
    (h : Runs (Compilation.synthesize (Schema.typeOf document schema)) s type t) :
    Reaches s t ∧ Settled t.schema.refs type.leaves := by
  obtain ⟨after, hrun, rfl⟩ := runs_synthesize_iff.mp h
  obtain ⟨hafter, hsettled⟩ := Schema.typeOfAt_keeps document _ _ _ _ _ _ hs hrun
  exact ⟨⟨hafter, Schema.typeOfAt_grows document _ _ _ _ _ hrun⟩, hsettled⟩

/-! ## Groups -/

/-- A group is named for its key; its type is synthesized, or it is the one that configures requests. -/
structure Group.Typed (naming : Naming) (refs : List (String × String)) (g : Group) : Prop where
  identifier : g.identifier = naming.identifier g.key
  type : Settled refs g.type.leaves ∨ g.type = .supplied naming.requestConfigType

theorem Group.Typed.mono {g : Group} (hmore : refs <+: more) (h : g.Typed naming refs) : g.Typed naming more where
  identifier := h.identifier
  type := h.type.imp_left fun hsettled => hsettled.mono hmore

theorem Group.typed_ofMembers {key : GroupKey} {members : List Member}
    (h : ∀ m ∈ members, Settled refs m.type.leaves) : (Group.ofMembers naming key members).Typed naming refs where
  identifier := rfl
  type := by
    left
    intro leaf hleaf
    rcases List.mem_append.mp hleaf with hleaf | hleaf
    · obtain ⟨f, hf, hleaf⟩ := TypeNode.mem_leavesOfFields.mp hleaf
      obtain ⟨m, hm, rfl⟩ := List.mem_map.mp hf
      exact h m hm leaf hleaf
    · exact absurd hleaf List.not_mem_nil

/-- Groups of which every one is typed. -/
def Grouping.Typed (naming : Naming) (refs : List (String × String)) (g : Grouping) : Prop :=
  ∀ group ∈ g.groups, group.Typed naming refs

theorem Grouping.Typed.mono {g : Grouping} (hmore : refs <+: more) (h : g.Typed naming refs) :
    g.Typed naming more :=
  fun group hgroup => (h group hgroup).mono hmore

theorem Grouping.Typed.put {g : Grouping} {group : Group} (h : g.Typed naming refs)
    (hgroup : group.Typed naming refs) : (g.put group).Typed naming refs := by
  intro other hother
  rw [Grouping.put] at hother
  split at hother
  · obtain ⟨before, hbefore, rfl⟩ := List.mem_map.mp hother
    split
    · exact hgroup
    · exact h before hbefore
  · rcases List.mem_append.mp hother with hother | hother
    · exact h other hother
    · rwa [List.mem_singleton.mp hother]

/-! ## Parameters -/

namespace Parameters

theorem reaches_parameterType {p : Data} {type : TypeNode} (hs : Schema.Sound s.schema [])
    (h : Runs (typeOf document p) s type t) : Reaches s t ∧ Settled t.schema.refs type.leaves := by
  simp only [typeOf, Runs.bind_iff, Runs.lift_iff] at h
  obtain ⟨content, s, ⟨_, rfl⟩, h⟩ := h
  split at h
  all_goals
    simp only [Runs.bind_iff, Runs.lift_iff] at h
    obtain ⟨_, _, ⟨_, rfl⟩, htype⟩ := h
    exact reaches_typeOf hs htype

theorem reaches_memberOf {key : GroupKey} {parameters : List Data} {p : Data} {m : Member}
    (hs : Schema.Sound s.schema []) (h : Runs (memberOf document key parameters p) s m t) :
    Reaches s t ∧ Settled t.schema.refs m.type.leaves := by
  simp only [memberOf, Runs.bind_iff, Runs.lift_iff, Runs.pure_iff] at h
  obtain ⟨_, _, ⟨_, rfl⟩, _, _, ⟨_, rfl⟩, type, _, htype, rfl, rfl⟩ := h
  exact reaches_parameterType hs htype

theorem reaches_groupOne {location : String} {g g' : Grouping} {placed : Scalar × List Data}
    (hs : Schema.Sound s.schema []) (hg : g.Typed naming s.schema.refs)
    (h : Runs (groupOne document naming location g placed) s g' t) :
    Reaches s t ∧ g'.Typed naming t.schema.refs := by
  unfold groupOne at h
  split at h
  · rename_i key _
    simp only [Runs.bind_iff, Runs.pure_iff] at h
    obtain ⟨members, _, hmembers, rfl, rfl⟩ := h
    obtain ⟨hst, hsettled⟩ := Compilation.runs_mapM (fun refs (m : Member) => Settled refs m.type.leaves)
      (fun _ _ _ hmore hm => hm.mono hmore) (fun p _ u m v hu hm => reaches_memberOf hu hm) hs hmembers
    exact ⟨hst, (hg.mono hst.grows).put (Group.typed_ofMembers hsettled)⟩
  · split at h
    · obtain ⟨rfl, rfl⟩ := Runs.pure_iff.mp h
      exact ⟨.refl hs, hg⟩
    · simp only [Runs.bind_iff, Runs.lift_iff, Runs.pure_iff, Compilation.runs_warn_iff] at h
      obtain ⟨_, _, ⟨_, rfl⟩, _, _, rfl, rfl, rfl⟩ := h
      exact ⟨.of_schema_eq hs rfl, hg⟩

theorem reaches_group {location : String} {parameters : List Data} {g g' : Grouping}
    (hs : Schema.Sound s.schema []) (hg : g.Typed naming s.schema.refs)
    (h : Runs (group document naming location parameters g) s g' t) :
    Reaches s t ∧ g'.Typed naming t.schema.refs := by
  simp only [group, Runs.bind_iff, Runs.lift_iff] at h
  obtain ⟨placed, s, ⟨_, rfl⟩, h⟩ := h
  exact Compilation.runs_foldlM (fun refs (g : Grouping) => g.Typed naming refs)
    (fun p _ g u g' v hu hg hstep => reaches_groupOne hu hg hstep) hs hg h

theorem reaches_bodyGroup {body : Data} {g : Group} (hs : Schema.Sound s.schema [])
    (h : Runs (bodyGroup document naming body) s g t) : Reaches s t ∧ g.Typed naming t.schema.refs := by
  simp only [bodyGroup, Runs.bind_iff, Runs.lift_iff, Runs.pure_iff] at h
  obtain ⟨_, _, ⟨_, rfl⟩, _, _, ⟨_, rfl⟩, _, _, ⟨_, rfl⟩, type, _, htype, rfl, rfl⟩ := h
  obtain ⟨hst, hsettled⟩ := reaches_typeOf hs htype
  exact ⟨hst, rfl, Or.inl hsettled⟩

theorem reaches_classify {location : String} {operation pathItem : Data} {ps : Parameters}
    (hs : Schema.Sound s.schema []) (h : Runs (classify document naming location operation pathItem) s ps t) :
    Reaches s t ∧ ps.grouping.Typed naming t.schema.refs := by
  simp only [classify, Runs.bind_iff, Runs.lift_iff] at h
  obtain ⟨_, _, ⟨_, rfl⟩, _, _, ⟨_, rfl⟩, _, _, ⟨_, rfl⟩, body, _, ⟨_, rfl⟩, _, s, ⟨_, rfl⟩, located, u, hgroup,
    h⟩ := h
  have hempty : Grouping.Typed naming s.schema.refs {} := fun _ hgroup => absurd hgroup List.not_mem_nil
  obtain ⟨hsu, hlocated⟩ := reaches_group hs hempty hgroup
  have hconfig : (configGroup naming).Typed naming t.schema.refs := ⟨rfl, Or.inr rfl⟩
  split at h
  · simp only [Runs.bind_iff, Runs.pure_iff] at h
    obtain ⟨_, _, ⟨rfl, rfl⟩, rfl, rfl⟩ := h
    exact ⟨hsu, hlocated.put hconfig⟩
  · simp only [Runs.bind_iff, Runs.map_iff, Runs.pure_iff] at h
    obtain ⟨_, _, ⟨g, hbody, rfl⟩, rfl, rfl⟩ := h
    obtain ⟨hut, hg⟩ := reaches_bodyGroup hsu.sound hbody
    exact ⟨hsu.trans hut, ((hlocated.mono hut.grows).put hg).put hconfig⟩

theorem reaches_addPath {location name : String} {ps ps' : Parameters} (hs : Schema.Sound s.schema [])
    (hps : ps.grouping.Typed naming s.schema.refs)
    (h : Runs (addPath document naming location ps name) s ps' t) :
    Reaches s t ∧ ps'.grouping.Typed naming t.schema.refs := by
  simp only [addPath, Runs.bind_iff, Runs.pure_iff] at h
  obtain ⟨grouping, _, hgroup, rfl, rfl⟩ := h
  exact reaches_group hs hps hgroup

theorem mem_of_mem_ordered {ps : Parameters} {g : Group} (h : g ∈ ps.ordered) : g ∈ ps.grouping.groups := by
  obtain ⟨key, _, hfind⟩ := List.mem_filterMap.mp h
  exact List.mem_of_find?_eq_some hfind

end Parameters

/-! ## Operations -/

theorem keeps_typeOfOne {response : Data} {type : TypeNode} {u v : Schema.State} (hu : Schema.Sound u [])
    (h : Runs (Response.typeOfOne document response) u type v) :
    Schema.Sound v [] ∧ u.refs <+: v.refs ∧ Settled v.refs type.leaves := by
  simp only [Response.typeOfOne, Runs.bind_iff, Runs.lift_iff] at h
  obtain ⟨content, u, ⟨_, rfl⟩, h⟩ := h
  split at h
  · obtain ⟨rfl, rfl⟩ := Runs.pure_iff.mp h
    exact ⟨hu, List.prefix_refl _, fun leaf hleaf => List.mem_singleton.mp hleaf ▸ trivial⟩
  · simp only [Runs.bind_iff, Runs.lift_iff] at h
    obtain ⟨schema, u, ⟨_, rfl⟩, h⟩ := h
    obtain ⟨hv, hsettled⟩ := Schema.typeOfAt_keeps document _ _ _ _ _ _ hu h
    exact ⟨hv, Schema.typeOfAt_grows document _ _ _ _ _ h, hsettled⟩

theorem reaches_responseType {responses : Data} {type : TypeNode} (hs : Schema.Sound s.schema [])
    (h : Runs (Compilation.synthesize (Response.type document responses)) s type t) :
    Reaches s t ∧ Settled t.schema.refs type.leaves := by
  obtain ⟨after, hrun, rfl⟩ := runs_synthesize_iff.mp h
  simp only [Response.type, Runs.bind_iff, Runs.lift_iff, Runs.pure_iff] at hrun
  obtain ⟨_, _, ⟨_, rfl⟩, types, _, htypes, rfl, rfl⟩ := hrun
  obtain ⟨hafter, hgrows, hsettled⟩ := Runs.mapM_induct (fun u => Schema.Sound u [])
    Schema.State.refs (fun u (type : TypeNode) => Settled u.refs type.leaves) (fun _ _ _ huv htype => htype.mono huv)
    (fun _ _ _ _ _ hu htype => keeps_typeOfOne hu htype) hs htypes
  refine ⟨⟨hafter, hgrows⟩, ?_⟩
  intro leaf hleaf
  rcases TypeNode.mem_leaves_unionOf hleaf with rfl | ⟨type, htype, hleaf⟩
  · trivial
  · exact hsettled type (TypeNode.mem_of_mem_dedup htype) leaf hleaf

/-- An operation whose groups and whose response are typed. -/
structure OperationBinding.Typed (naming : Naming) (refs : List (String × String)) (b : OperationBinding) : Prop where
  groups : ∀ g ∈ b.groups, g.Typed naming refs
  response : Settled refs b.responseType.leaves

theorem OperationBinding.Typed.mono {b : OperationBinding} (hmore : refs <+: more) (h : b.Typed naming refs) :
    b.Typed naming more where
  groups g hg := (h.groups g hg).mono hmore
  response := h.response.mono hmore

theorem settled_responseTypeFor {kind : ResponseKind} {type : TypeNode} (h : Settled refs type.leaves) :
    Settled refs (OperationBinding.responseTypeFor kind type).leaves := by
  cases kind with
  | json => exact h
  | _ =>
    intro leaf hleaf
    rw [List.mem_singleton.mp hleaf]
    trivial

theorem reaches_addPlaceholder {location name : String} {ps ps' : Parameters}
    (hs : Schema.Sound s.schema []) (hps : ps.grouping.Typed naming s.schema.refs)
    (h : Runs (OperationBinding.addPlaceholder document naming location ps name) s ps' t) :
    Reaches s t ∧ ps'.grouping.Typed naming t.schema.refs := by
  unfold OperationBinding.addPlaceholder at h
  split at h
  · obtain ⟨rfl, rfl⟩ := Runs.pure_iff.mp h
    exact ⟨.refl hs, hps⟩
  · exact Parameters.reaches_addPath hs hps h

theorem reaches_pathSpans {location : String} {ps : Parameters} {found : List (String × String)}
    {placed : Parameters × List UrlSpan} (hs : Schema.Sound s.schema []) (hps : ps.grouping.Typed naming s.schema.refs)
    (h : Runs (OperationBinding.pathSpans document naming location ps found) s placed t) :
    Reaches s t ∧ placed.1.grouping.Typed naming t.schema.refs := by
  refine Compilation.runs_foldlM
    (fun refs (placed : Parameters × List UrlSpan) => placed.1.grouping.Typed naming refs) ?_ hs hps h
  intro x _ acc u acc' v hu hacc hstep
  simp only [Runs.bind_iff, Runs.pure_iff] at hstep
  obtain ⟨ps', _, hrun, rfl, rfl⟩ := hstep
  exact reaches_addPlaceholder hu hacc hrun

theorem reaches_bind {security : List SecurityBinding} {site : OperationBinding.Site} {operation pathItem : Data}
    {b : OperationBinding} (hs : Schema.Sound s.schema [])
    (h : Runs (OperationBinding.bind document naming security site operation pathItem) s b t) :
    Reaches s t ∧ b.Typed naming t.schema.refs := by
  simp only [OperationBinding.bind, Runs.bind_iff, Runs.lift_iff, Runs.pure_iff] at h
  obtain ⟨declared, u, hclassify, _, _, ⟨_, rfl⟩, _, _, ⟨_, rfl⟩, ps, v, hplaceholders, _, _, ⟨_, rfl⟩, _, _, ⟨_, rfl⟩,
    _, _, ⟨_, rfl⟩, response, w, hresponse, _, _, ⟨_, rfl⟩, _, _, ⟨_, rfl⟩, _, _, ⟨_, rfl⟩, _, _, ⟨_, rfl⟩,
    rfl, rfl⟩ := h
  obtain ⟨hsu, hdeclared⟩ := Parameters.reaches_classify hs hclassify
  obtain ⟨huv, hps⟩ := reaches_pathSpans hsu.sound hdeclared hplaceholders
  obtain ⟨hvt, hsettled⟩ := reaches_responseType huv.sound hresponse
  refine ⟨(hsu.trans huv).trans hvt, ?_, settled_responseTypeFor hsettled⟩
  exact fun g hg => (hps g (Parameters.mem_of_mem_ordered hg)).mono hvt.grows

/-! ## Paths and security schemes -/

theorem schema_warned {α : Type} {d : Diagnostic} {a b : α}
    (h : Runs (do Compilation.warn d; return a : Compilation.M α) s b t) : t.schema = s.schema := by
  simp only [Runs.bind_iff, Runs.pure_iff, Compilation.runs_warn_iff] at h
  obtain ⟨_, _, rfl, _, rfl⟩ := h
  rfl

theorem schema_warnedOf {α : Type} {r : Result String} {d : String → Diagnostic} {a b : α}
    (h : Runs (do Compilation.warn (d (← (r : Result _))); return a : Compilation.M α) s b t) : t.schema = s.schema := by
  simp only [Runs.bind_iff, Runs.lift_iff] at h
  obtain ⟨_, _, ⟨_, rfl⟩, h⟩ := h
  exact schema_warned (Runs.bind_iff.mpr h)

theorem schema_claimId {operation : Data} {location : String} {id : Option Scalar}
    (h : Runs (Paths.claimId operation location) s id t) : t.schema = s.schema := by
  simp only [Paths.claimId, Runs.bind_iff, Runs.lift_iff] at h
  obtain ⟨given, s, ⟨_, rfl⟩, h⟩ := h
  split at h
  · exact schema_warned h
  simp only [Runs.bind_iff, Runs.lift_iff, Runs.get_iff] at h
  obtain ⟨id, s, ⟨_, rfl⟩, _, s, ⟨rfl, rfl⟩, h⟩ := h
  split at h
  · exact schema_warnedOf (d := (.duplicateOperationId · location)) h
  · simp only [Runs.bind_iff, Runs.modify_iff, Runs.pure_iff] at h
    obtain ⟨_, _, rfl, _, rfl⟩ := h
    rfl

theorem reaches_bindMethod {item : Option Item} {security : List SecurityBinding} {path : Scalar} {pathItem : Data}
    {method : String} {found : Option OperationBinding} (hs : Schema.Sound s.schema [])
    (h : Runs (Paths.bindMethod document naming item security path pathItem method) s found t) :
    Reaches s t ∧ ∀ b, found = some b → b.Typed naming t.schema.refs := by
  have hnone : ∀ {u : Compilation}, Reaches s u → Runs (pure none : Compilation.M (Option OperationBinding)) u found t →
      Reaches s t ∧ ∀ b, found = some b → b.Typed naming t.schema.refs := by
    intro u hu h
    obtain ⟨rfl, rfl⟩ := Runs.pure_iff.mp h
    exact ⟨hu, fun b hb => nomatch hb⟩
  simp only [Paths.bindMethod, Runs.bind_iff, Runs.lift_iff] at h
  obtain ⟨operation, s, ⟨_, rfl⟩, h⟩ := h
  split at h
  · exact hnone (.refl hs) h
  simp only [Runs.bind_iff, Runs.lift_iff] at h
  obtain ⟨skipped, s, ⟨_, rfl⟩, h⟩ := h
  split at h
  · exact hnone (.refl hs) h
  simp only [Runs.bind_iff, Runs.lift_iff] at h
  obtain ⟨_, s, ⟨_, rfl⟩, id, u, hclaim, h⟩ := h
  have hsu : Reaches s u := .of_schema_eq hs (schema_claimId hclaim)
  cases id with
  | none => exact hnone hsu h
  | some id =>
    obtain ⟨b, hbind, rfl⟩ := Runs.map_iff.mp h
    obtain ⟨hut, hb⟩ := reaches_bind hsu.sound hbind
    refine ⟨hsu.trans hut, ?_⟩
    rintro _ ⟨⟩
    exact hb

theorem reaches_bindPath {item : Option Item} {security : List SecurityBinding} {entry : Scalar × Data}
    {bs : List OperationBinding} (hs : Schema.Sound s.schema [])
    (h : Runs (Paths.bindPath document naming item security entry) s bs t) :
    Reaches s t ∧ ∀ b ∈ bs, b.Typed naming t.schema.refs := by
  unfold Paths.bindPath at h
  split at h
  · obtain ⟨rfl, rfl⟩ := Runs.pure_iff.mp h
    exact ⟨.refl hs, fun b hb => absurd hb List.not_mem_nil⟩
  simp only [Runs.bind_iff, Runs.lift_iff, Runs.pure_iff] at h
  obtain ⟨pathItem, s, ⟨_, rfl⟩, found, _, hfound, rfl, rfl⟩ := h
  obtain ⟨hst, hbs⟩ := Compilation.runs_mapM
    (fun refs (found : Option OperationBinding) => ∀ b, found = some b → b.Typed naming refs)
    (fun _ _ _ hmore hb b heq => (hb b heq).mono hmore)
    (fun _ _ u found v hu hrun => reaches_bindMethod hu hrun) hs hfound
  exact ⟨hst, fun b hb => hbs (some b) (List.reduceOption_mem_iff.mp hb) b rfl⟩

theorem reaches_bindAll {item : Option Item} {security : List SecurityBinding} {bs : List OperationBinding}
    (hs : Schema.Sound s.schema []) (h : Runs (Paths.bindAll document naming item security) s bs t) :
    Reaches s t ∧ ∀ b ∈ bs, b.Typed naming t.schema.refs := by
  simp only [Paths.bindAll, Runs.bind_iff, Runs.lift_iff, Runs.pure_iff] at h
  obtain ⟨entries, s, ⟨_, rfl⟩, found, _, hfound, rfl, rfl⟩ := h
  obtain ⟨hst, hbs⟩ := Compilation.runs_mapM
    (fun refs (bs : List OperationBinding) => ∀ b ∈ bs, b.Typed naming refs)
    (fun _ _ _ hmore hbs b hb => (hbs b hb).mono hmore)
    (fun _ _ u bs v hu hrun => reaches_bindPath hu hrun) hs hfound
  refine ⟨hst, ?_⟩
  intro b hb
  obtain ⟨bs, hmem, hb⟩ := List.mem_flatten.mp hb
  exact hbs bs hmem b hb

theorem schema_ofScheme {name : Scalar} {scheme : Data} {b : Option SecurityBinding}
    (h : Runs (SecurityBinding.ofScheme name scheme) s b t) : t.schema = s.schema := by
  simp only [SecurityBinding.ofScheme, Runs.bind_iff, Runs.lift_iff] at h
  obtain ⟨type, s, ⟨_, rfl⟩, name, s, ⟨_, rfl⟩, h⟩ := h
  split at h
  · simp only [SecurityBinding.ofHttp, Runs.bind_iff, Runs.lift_iff] at h
    obtain ⟨given, s, ⟨_, rfl⟩, h⟩ := h
    split at h
    case h_3 => exact schema_warnedOf (d := (.unsupportedHttpScheme · _)) h
    all_goals exact (Runs.pure_iff.mp h).2 ▸ rfl
  · unfold SecurityBinding.ofKey at h
    dsimp only at h
    split at h
    case h_3 => exact schema_warnedOf (d := (.unsupportedKeyPlace · _)) h
    all_goals exact (Runs.pure_iff.mp h).2 ▸ rfl
  · exact schema_warnedOf (d := (.unsupportedSchemeType · _)) h

theorem schema_ofDocument {bs : List SecurityBinding} (h : Runs (SecurityBinding.ofDocument document) s bs t) :
    t.schema = s.schema := by
  simp only [SecurityBinding.ofDocument, Runs.bind_iff, Runs.lift_iff, Runs.pure_iff] at h
  obtain ⟨schemes, s, ⟨_, rfl⟩, found, _, hfound, _, rfl⟩ := h
  exact Runs.mapM_keeps (fun u => u.schema = s.schema)
    (fun _ _ _ _ _ hu hrun => (schema_ofScheme hrun).trans hu) rfl hfound

end

/-! ## A whole document -/

/-- A leaf that can be written where some aliases are declared. -/
def TypeNode.FitsLeaf (aliases : List String) (naming : Naming) : TypeNode → Prop
  | .reference name _ => name ∈ aliases
  | .supplied name => name = naming.requestConfigType
  | .literal v => v.isPlain = true
  | _ => True

def TypeNode.Fits (aliases : List String) (naming : Naming) (type : TypeNode) : Prop :=
  ∀ leaf ∈ type.leaves, leaf.FitsLeaf aliases naming

/-- Aliases have names of their own, and types refer to them only. -/
structure Api.Typed (naming : Naming) (api : Api) : Prop where
  distinct : (api.aliases.map Alias.name).Nodup
  aliases : ∀ a ∈ api.aliases, ∀ leaf ∈ a.leaves, leaf.FitsLeaf (api.aliases.map Alias.name) naming
  groups : ∀ b ∈ api.operations, ∀ g ∈ b.groups,
    g.identifier = naming.identifier g.key ∧ g.type.Fits (api.aliases.map Alias.name) naming
  responses : ∀ b ∈ api.operations, b.responseType.Fits (api.aliases.map Alias.name) naming

theorem Api.compile_typed {document : Data} {item : Option Item} {naming : Naming} {api : Api}
    (h : Api.compile document item naming = .ok api) : api.Typed naming := by
  simp only [Api.compile, Result.bind_eq_ok_iff] at h
  obtain ⟨_, _, hbind⟩ := h
  obtain ⟨t, hrun⟩ : ∃ t, Runs (Api.bind document item naming) {} api t := by
    exact ⟨_, Prod.ext hbind rfl⟩
  simp only [Api.bind, Runs.bind_iff, Runs.lift_iff, Runs.get_iff, Runs.pure_iff] at hrun
  obtain ⟨_, _, ⟨_, rfl⟩, servers, _, ⟨_, rfl⟩, security, u, hsecurity, operations, v, hoperations, _, _, ⟨_, rfl⟩,
    _, _, ⟨_, rfl⟩, _, _, ⟨rfl, rfl⟩, rfl, rfl⟩ := hrun
  have hstart : Schema.Sound ({} : Compilation).schema [] := .start
  have hsu := Reaches.of_schema_eq hstart (schema_ofDocument hsecurity)
  obtain ⟨hut, hoperations⟩ := reaches_bindAll hsu.sound hoperations
  have hnames := hut.sound.aliasNames_perm
  have hfits : ∀ {leaves : List TypeNode}, Settled t.schema.refs leaves →
      ∀ leaf ∈ leaves, leaf.FitsLeaf (t.schema.aliases.map Alias.name) naming := by
    intro leaves hsettled leaf hleaf
    have hanchored := hsettled leaf hleaf
    cases leaf with
    | reference name pointer =>
      obtain ⟨p, _, hmem⟩ := hanchored
      exact hnames.mem_iff.mpr (List.mem_map_of_mem hmem)
    | literal v => exact hanchored
    | supplied name => exact hanchored.elim
    | _ => trivial
  constructor
  case distinct => exact hut.sound.aliasNames_nodup
  case aliases => exact fun a ha => hfits (hut.sound.settled a ha)
  case groups =>
    intro b hb g hg
    have htyped := (hoperations b hb).groups g hg
    refine ⟨htyped.identifier, ?_⟩
    rcases htyped.type with hsettled | hsupplied
    · exact hfits hsettled
    · rw [hsupplied]
      intro leaf hleaf
      rw [List.mem_singleton.mp hleaf]
      rfl
  case responses => exact fun b hb => hfits (hoperations b hb).response

end ClientBindings

import ClientBindings.Proofs.Bundle.Merge
import ClientBindings.Proofs.Pointer

/-! What bundling yields, for documents that refer to each other in any way. Every target away from the
root has one component of its own, which a local reference finds and which holds the rewritten copy of
what the target stands for; the entries of the root keep their places. References are left that are not
local only in tuples, which are not walked, and where a text comes to stand under the name `$ref`. -/

namespace ClientBindings

theorem Pointer.walk?_of_at? {d v : Data} {names : List String} (h : d.at? (names.map Scalar.str) = some v) :
    Pointer.walk? d names = .ok (some v) := by
  induction names generalizing d with
  | nil => exact congrArg Except.ok h
  | cons name names ih =>
    rw [List.map_cons, Data.at?_cons] at h
    obtain ⟨next, hnext, hrest⟩ := Option.bind_eq_some_iff.mp h
    cases d with
    | map es =>
      have hchild : Pointer.child? (.map es) name = .ok (some next) := congrArg Except.ok hnext
      rw [Pointer.walk?, hchild]
      exact ih hrest
    | scalar | list | tuple => cases hnext

namespace Bundle
open Data

/-- The keys that lead to a component. -/
def Place.keys (place : Place) : List Scalar := [.str "components", .str place.sectionName, .str place.name]

/-- A text that stands under the name `$ref` without having been one: the copy of a target with that
name, or what a path item with that name was replaced by. -/
inductive Misplaced (document R : Data) (targets : List (Target × Place)) : String → Prop
  | component {target : Target} {place : Place} {components : Data} {ref : String} :
      (target, place) ∈ targets → place.name = "$ref" → R.refText? = none →
      R.under? (.str "components") = some components → components.refText? = none →
      R.at? place.keys = some (.str ref) → Misplaced document R targets ref
  | pathItem {paths : Data} {ref : String} :
      R.refText? = none → document.under? (.str "paths") = some paths → paths.refText? = none →
      R.at? [.str "paths", .str "$ref"] = some (.str ref) → Misplaced document R targets ref

/-- A bundled document: how it comes from the document that was walked, and what stands behind the
references in it. -/
structure Faithful (source : Source) (document walked R : Data) (targets : List (Target × Place)) : Prop where
  rewritten : Rewritten source targets source.root [] document walked
  local_iff : (∀ tupled ref, FreeRef R tupled ref → Reference.IsLocal ref) ↔
    ∀ ref, FreeRef R true ref ∨ Misplaced document R targets ref → Reference.IsLocal ref
  targets_nodup : (targets.map Prod.fst).Nodup
  places_nodup : (targets.map Prod.snd).Nodup
  copied : ∀ target place, (target, place) ∈ targets → document.at? place.keys = none ∧
    ∃ node content, Designates source target node ∧
      Rewritten source targets target.location place.path node content ∧
      R.at? place.keys = some content ∧
      ('%' ∉ place.sectionName.toList → '%' ∉ place.name.toList →
        Reference.lookup R place.ref = .ok content)
  own : ∀ sectionName key, document.at? [.str "components", sectionName, key] ≠ none →
    walked.at? [.str "components", sectionName, key] ≠ none ∧
    R.at? [.str "components", sectionName, key] = walked.at? [.str "components", sectionName, key]
  kept : ∀ keys v, walked.at? keys = some v → v.isMap = false → R.at? keys = some v

section
variable {source : Source} {document walked R : Data} {s t : State} {names : List (Scalar × List String)}

theorem lookup_of_path {place : Place} {content : Data} (h : R.at? place.keys = some content)
    (hpath : Reference.path place.ref = .ok ["components", place.sectionName, place.name]) :
    Reference.lookup R place.ref = .ok content :=
  Reference.lookup_eq_ok_iff.mpr ⟨_, hpath, Pointer.walk?_of_at? h⟩

theorem Place.path_ref (place : Place) : Reference.path place.ref =
    .ok ["components", Text.onChars Percent.decode place.sectionName, Text.onChars Percent.decode place.name] :=
  Reference.path_component place.sectionName place.name

theorem lookup_of_at? {place : Place} {content : Data} (h : R.at? place.keys = some content)
    (hsection : '%' ∉ place.sectionName.toList) (hname : '%' ∉ place.name.toList) :
    Reference.lookup R place.ref = .ok content := by
  refine lookup_of_path h ?_
  rw [place.path_ref, (Pointer.decode_name_eq_iff _).mpr (Percent.hasEscape_of_not_mem hsection),
    (Pointer.decode_name_eq_iff _).mpr (Percent.hasEscape_of_not_mem hname)]

/-! ## Names present from the start -/

theorem mem_presentNames {es : Fields} {present : List String} {name : String} {v : Data}
    (h : presentNames (.map es) = .ok present) (hv : (Data.map es).under? (.str name) = some v) :
    name ∈ present := by
  simp only [presentNames, Data.elements, Result.bind_eq_ok_iff, Result.pure_eq_ok_iff] at h
  obtain ⟨_, rfl, h⟩ := h
  split at h
  · exact absurd h Result.throw_ne_ok
  obtain rfl := Result.pure_eq_ok_iff.mp h
  obtain ⟨key, hmem, hkey⟩ := Entries.mem_of_find? hv
  rw [Scalar.same_str_right] at hkey
  refine List.mem_filterMap.mpr ⟨.str name, List.mem_map.mpr ⟨_, hmem, ?_⟩, rfl⟩
  rw [hkey]

theorem find?_presentSections {es : Fields} {sectionName : Scalar} {d : Data}
    (h : (es.mapM fun e => do return (e.1, ← presentNames e.2) : Result _) = .ok names)
    (hd : (Data.map es).under? sectionName = some d) :
    ∃ present, Entries.find? Scalar.same names sectionName = some present ∧ presentNames d = .ok present := by
  induction es generalizing names with
  | nil => cases hd
  | cons e es ih =>
    obtain ⟨_, rest, hfirst, hrest, rfl⟩ := Result.mapM_cons_eq_ok_iff.mp h
    obtain ⟨present, hpresent, hfirst⟩ := Result.bind_eq_ok_iff.mp hfirst
    obtain rfl := Result.pure_eq_ok_iff.mp hfirst
    rw [under?, Entries.find?_cons] at hd
    rw [Entries.find?_cons]
    by_cases he : e.1.same sectionName = true
    · rw [if_pos he] at hd
      rw [if_pos he]
      obtain rfl := Option.some.inj hd
      exact ⟨present, rfl, hpresent⟩
    · rw [if_neg he] at hd
      rw [if_neg he]
      exact ih hrest hd

theorem claimed_of_present (h : presentSections document = .ok names) {place : Place}
    (hplace : document.at? place.keys ≠ none) : ({ names } : State).Claimed place := by
  obtain ⟨v, hv⟩ := Option.ne_none_iff_exists'.mp hplace
  simp only [Place.keys, at?_cons, at?_nil, Option.bind_eq_some_iff, Option.some.injEq] at hv
  obtain ⟨components, hcomponents, d, hd, _, hname, rfl⟩ := hv
  cases document with
  | scalar | list | tuple => cases hcomponents
  | map fields =>
  cases components with
  | scalar | list | tuple => cases hd
  | map es =>
  cases d with
  | scalar | list | tuple => cases hname
  | map entries =>
  have hget : (Data.map fields).get "components" = .ok (.map es) := by
    rw [Data.get, show Entries.find? Scalar.same fields (.str "components") = some (.map es) from hcomponents]
    rfl
  have htruthy : (Data.map es).truthy = true := by
    cases es with
    | nil => cases hd
    | cons => rfl
  simp only [presentSections, hget, Result.bind_eq_ok_iff, Except.ok.injEq] at h
  obtain ⟨_, rfl, h⟩ := h
  rw [htruthy] at h
  simp only [Bool.not_true, Bool.false_eq_true, if_false, Data.entries, Result.bind_eq_ok_iff,
    Result.pure_eq_ok_iff] at h
  obtain ⟨_, rfl, h⟩ := h
  obtain ⟨present, hfound, hpresent⟩ := find?_presentSections h hd
  rw [State.Claimed, State.taken, hfound]
  exact mem_presentNames hpresent hname

/-! ## The outcome of a walk -/

theorem sound_start (source : Source) (names : List (Scalar × List String)) :
    Sound source { names } where
  documents _ _ h := by cases h
  targets := List.nodup_nil
  places := List.nodup_nil
  claimed _ _ h := absurd h List.not_mem_nil
  sections := List.Pairwise.nil
  entries _ _ h := by cases h
  kept _ _ _ h := by cases h

/-- What is known of the tables before copied targets are put into their sections. -/
structure Outcome (source : Source) (document walked R : Data) (s : State) : Prop where
  sound : Sound source s
  rewritten : Rewritten source s.targets source.root [] document walked
  filled : ∀ target place, (target, place) ∈ s.targets →
    document.at? place.keys = none ∧ Filled source s target place
  merged : addComponents s.copied walked = .ok R

theorem outcome {depth : Nat} (h : Runs (bundleAt source depth document) {} R s) :
    ∃ walked, Outcome source document walked R s := by
  simp only [bundleAt, Runs.bind_iff, Runs.lift_iff, Runs.modify_iff, Runs.get_iff] at h
  obtain ⟨names, _, ⟨hnames, rfl⟩, _, _, rfl, walked, _, hwalk, _, _, ⟨rfl, rfl⟩, hmerged, rfl⟩ := h
  obtain ⟨hsound, hprogress, hrewritten⟩ :=
    walkAt_walks source depth _ _ _ _ _ _ (sound_start source names) hwalk
  refine ⟨walked, hsound, hrewritten, ?_, hmerged⟩
  intro target place hmem
  obtain ⟨hfresh, hfilled⟩ := hprogress.filled target place hmem List.not_mem_nil
  refine ⟨?_, hfilled⟩
  by_contra hpresent
  exact hfresh (claimed_of_present hnames hpresent)

namespace Outcome
variable (h : Outcome source document walked R s)
include h

theorem content_cases {sectionName key : Scalar} {content : Data}
    (hcontent : s.content? sectionName key = some content) :
    ∃ target place node, (target, place) ∈ s.targets ∧ sectionName = .str place.sectionName ∧
      key = .str place.name ∧ document.at? place.keys = none ∧
      Rewritten source s.targets target.location place.path node content := by
  obtain ⟨target, place, hmem, rfl, rfl⟩ := h.sound.kept _ _ _ hcontent
  obtain ⟨hnew, node, content', _, hcontent', hrewritten⟩ := h.filled target place hmem
  obtain rfl := Option.some.inj (hcontent'.symm.trans hcontent)
  exact ⟨target, place, node, hmem, rfl, rfl, hnew, hrewritten⟩

theorem at?_new {sectionName key : Scalar} {content : Data}
    (hcontent : s.content? sectionName key = some content) :
    walked.at? [.str "components", sectionName, key] = none := by
  obtain ⟨_, place, _, _, rfl, rfl, hnew, _⟩ := h.content_cases hcontent
  exact (h.rewritten.at?_components_eq_none_iff _).mp hnew

theorem own (sectionName key : Scalar) (hkey : document.at? [.str "components", sectionName, key] ≠ none) :
    walked.at? [.str "components", sectionName, key] ≠ none ∧
      R.at? [.str "components", sectionName, key] = walked.at? [.str "components", sectionName, key] := by
  have hwalked := mt (h.rewritten.at?_components_eq_none_iff _).mpr hkey
  refine ⟨hwalked, ?_⟩
  rw [at?_addComponents h.sound h.merged]
  cases hcontent : s.content? sectionName key with
  | none => rfl
  | some content => exact absurd (h.at?_new hcontent) hwalked

theorem copied (target : Target) (place : Place) (hmem : (target, place) ∈ s.targets) :
    document.at? place.keys = none ∧ ∃ node content, Designates source target node ∧
      Rewritten source s.targets target.location place.path node content ∧
      R.at? place.keys = some content ∧
      ('%' ∉ place.sectionName.toList → '%' ∉ place.name.toList →
        Reference.lookup R place.ref = .ok content) := by
  obtain ⟨hnew, node, content, hnode, hcontent, hrewritten⟩ := h.filled target place hmem
  have hat : R.at? place.keys = some content := by
    rw [Place.keys, at?_addComponents h.sound h.merged]
    rw [State.contentAt?] at hcontent
    rw [hcontent, Option.some_or]
  exact ⟨hnew, node, content, hnode, hrewritten, hat, lookup_of_at? hat⟩

/-- Nothing of the walked document is lost, down to the texts and lists in it. -/
theorem kept (keys : List Scalar) (v : Data) (hv : walked.at? keys = some v) (hleaf : v.isMap = false) :
    R.at? keys = some v := by
  rcases addComponents_cases h.merged with ⟨_, rfl⟩ | ⟨fields, components, result, rfl, hcomponents, hresult, rfl⟩
  · exact hv
  match keys with
  | [] =>
    obtain rfl := Option.some.inj hv
    cases hleaf
  | key :: keys =>
  by_cases hkey : key = .str "components"
  swap
  · rw [at?_cons, under?_put_components, if_neg hkey]
    exact hv
  subst hkey
  match keys with
  | [] =>
    rw [at?_singleton] at hv
    rw [hv] at hcomponents
    obtain rfl : v = .map components := hcomponents
    cases hleaf
  | [sectionName] =>
    rw [at?_cons_cons, hcomponents, at?_singleton] at hv
    rw [at?_cons, under?_put_components, if_pos rfl, Option.bind_some, at?_singleton]
    rcases addCopied_under? h.sound.sections hresult sectionName with ⟨_, heq⟩ | ⟨_, present, _, hpresent, _⟩
    · rw [heq, hv]
    · rw [hv] at hpresent
      obtain rfl : v = .map present := hpresent
      cases hleaf
  | sectionName :: key :: keys =>
    have hsplit : ∀ d : Data, d.at? (.str "components" :: sectionName :: key :: keys) =
        (d.at? [.str "components", sectionName, key]).bind (at? · keys) := by
      intro d
      simp only [at?_cons, at?_nil, Option.bind_assoc, Option.bind_some]
    rw [hsplit] at hv ⊢
    obtain ⟨d, hd, hv⟩ := Option.bind_eq_some_iff.mp hv
    rw [at?_addComponents h.sound h.merged]
    cases hcontent : s.content? sectionName key with
    | none => rw [hd, Option.none_or, Option.bind_some, hv]
    | some content => exact absurd ((h.at?_new hcontent).symm.trans hd) (by simp)

/-- A reference that is left is local, or stands in a tuple, or was misplaced. -/
theorem left {tupled : Bool} {ref : String} (hfree : FreeRef R tupled ref) :
    Reference.IsLocal ref ∨ tupled = true ∨ Misplaced document R s.targets ref := by
  have hrefText := refText?_addComponents h.merged
  rcases freeRef_addComponents h.sound (fun _ _ _ => h.at?_new) h.merged hfree with
    hold | ⟨hnone, components, hcomponents, ⟨sectionName, key, content, hcontent, hin⟩ |
      ⟨_, href, sectionName, htext⟩⟩
  · rcases h.rewritten.explained hold with hlocal | htupled | ⟨hpath, _⟩ | ⟨_, hnone, v, w, hv, hw, hold, hnew⟩
    · exact Or.inl hlocal
    · exact Or.inr (Or.inl htupled)
    · cases hpath
    · refine Or.inr (Or.inr (.pathItem (hrefText.trans hnone) hv hold ?_))
      rw [at?_cons, under?_of_ne_components h.merged (by decide), hw, Option.bind_some, at?_singleton]
      exact refText?_eq_some_iff.mp hnew
  · obtain ⟨target, place, node, _, _, _, _, hrewritten⟩ := h.content_cases hcontent
    rcases hrewritten.explained hin with hlocal | htupled | ⟨hpath, _⟩ | ⟨hpath, _⟩
    · exact Or.inl hlocal
    · exact Or.inr (Or.inl htupled)
    · exact absurd (congrArg List.length hpath) (by simp [Place.path])
    · exact absurd (congrArg List.length hpath) (by simp [Place.path])
  · obtain ⟨target, place, node, hmem, rfl, hname, _, _⟩ := h.content_cases htext
    have hname' : place.name = "$ref" := (Scalar.str.inj hname).symm
    refine Or.inr (Or.inr (.component hmem hname' hnone hcomponents href ?_))
    rw [Place.keys, hname', at?_addComponents h.sound h.merged, htext, Option.some_or]

end Outcome

theorem Misplaced.freeRef {targets : List (Target × Place)} {ref : String}
    (h : Misplaced document R targets ref) : FreeRef R false ref := by
  cases h with
  | @component _ place components _ _ hname hnone hcomponents href hat =>
    rw [Place.keys, hname, at?_cons, hcomponents, Option.bind_some, at?_cons] at hat
    obtain ⟨d, hd, htext⟩ := Option.bind_eq_some_iff.mp hat
    rw [at?_singleton] at htext
    exact .entry hnone hcomponents (.entry href hd (.here (refText?_eq_some_iff.mpr htext)))
  | pathItem hnone _ _ hat =>
    rw [at?_cons] at hat
    obtain ⟨d, hd, htext⟩ := Option.bind_eq_some_iff.mp hat
    rw [at?_singleton] at htext
    exact .entry hnone hd (.here (refText?_eq_some_iff.mpr htext))

end

theorem bundle_faithful {source : Source} {depth : Nat} {document R : Data} {s : State}
    (h : Runs (bundleAt source depth document) {} R s) :
    ∃ walked, Faithful source document walked R s.targets := by
  obtain ⟨walked, hout⟩ := outcome h
  refine ⟨walked, ?_⟩
  exact {
    rewritten := hout.rewritten
    local_iff := by
      constructor
      · rintro hlocal ref (htupled | hmisplaced)
        · exact hlocal true ref htupled
        · exact hlocal false ref hmisplaced.freeRef
      · intro hlocal tupled ref hfree
        rcases hout.left hfree with hdone | rfl | hmisplaced
        · exact hdone
        · exact hlocal ref (Or.inl hfree)
        · exact hlocal ref (Or.inr hmisplaced)
    targets_nodup := hout.sound.targets
    places_nodup := hout.sound.places
    copied := hout.copied
    own := hout.own
    kept := hout.kept }

/-- A bundled document at `/work/api.json` and files beside it. -/
def Source.ofFiles (files : List (String × Data)) : Source where
  read location :=
    match files.lookup location with
    | some document => .ok document
    | none => .error (.fileNotFound location)
  workingDirectory := "/work"
  root := "/work/api.json"

def refObject (ref : String) : Data := .object [("$ref", .str ref)]

/-- Two files that refer to each other, and to a name that the root has already. -/
def ringFiles : Source := .ofFiles
  [("/work/pet.json", .object [("owner", refObject "owner.json")]),
   ("/work/owner.json", .object [("pet", refObject "pet.json"), ("about", refObject "api.json#/info")])]

def ringRoot : Data := .object
  [("info", .object []), ("pet", refObject "pet.json"),
   ("components", .object [("schemas", .object [("pet", .object [])])])]

theorem bundle_faithful_ring : ∃ R s, Runs (bundleAt ringFiles 3 ringRoot) {} R s ∧
    s.targets = [(⟨"/work/pet.json", ""⟩, ⟨"schemas", "pet2"⟩), (⟨"/work/owner.json", ""⟩, ⟨"schemas", "owner"⟩)] ∧
    ∃ walked, Faithful ringFiles ringRoot walked R s.targets := by
  obtain ⟨R, s, h⟩ : ∃ R s, Runs (bundleAt ringFiles 3 ringRoot) {} R s :=
    Runs.exists_of_isOk (by decide +kernel)
  have htargets : (Id.run ((bundleAt ringFiles 3 ringRoot).run {})).2.targets =
      [(⟨"/work/pet.json", ""⟩, ⟨"schemas", "pet2"⟩), (⟨"/work/owner.json", ""⟩, ⟨"schemas", "owner"⟩)] := by
    decide +kernel
  rw [show Id.run ((bundleAt ringFiles 3 ringRoot).run {}) = (.ok R, s) from h] at htargets
  exact ⟨R, s, h, htargets, bundle_faithful h⟩

/-- A target that is a text and is called `$ref`. -/
def textFiles : Source := .ofFiles [("/work/o.json", refObject "z.json")]

def textRoot : Data := .object [("a", refObject "o.json#/$ref")]

theorem exists_freeRef_not_local : ∃ R s, Runs (bundle textFiles textRoot) {} R s ∧
    (∀ e ∈ s.targets, '%' ∉ e.2.sectionName.toList ∧ '%' ∉ e.2.name.toList) ∧
    FreeRef R false "z.json" ∧ ¬ Reference.IsLocal "z.json" := by
  obtain ⟨R, s, h⟩ : ∃ R s, Runs (bundle textFiles textRoot) {} R s :=
    Runs.exists_of_isOk (by decide +kernel)
  have htargets : (Id.run ((bundle textFiles textRoot).run {})).2.targets =
      [(⟨"/work/o.json", "/$ref"⟩, ⟨"schemas", "$ref"⟩)] := by
    decide +kernel
  have hfound : (Id.run ((bundle textFiles textRoot).run {})).1.toOption.map (fun R =>
      (R.refText?, (R.under? (.str "components")).map refText?,
        (R.at? [.str "components", .str "schemas"]).bind refText?)) = some (none, some none, some "z.json") := by
    decide +kernel
  have hrun : Id.run ((bundle textFiles textRoot).run {}) = (.ok R, s) := h
  rw [hrun] at htargets hfound
  simp only [Except.toOption, Option.map_some, Option.some.injEq, Prod.mk.injEq] at hfound
  obtain ⟨hnone, hcomponents, hschemas⟩ := hfound
  obtain ⟨components, hcomponents, href⟩ := Option.map_eq_some_iff.mp hcomponents
  obtain ⟨schemas, hschemas, htext⟩ := Option.bind_eq_some_iff.mp hschemas
  rw [at?_cons, hcomponents, Option.bind_some, at?_singleton] at hschemas
  refine ⟨R, s, h, ?_, .entry hnone hcomponents (.entry href hschemas (.here htext)), ?_⟩
  · rw [show s.targets = _ from htargets]
    decide
  · rintro ⟨cs, hcs⟩
    cases hcs

end Bundle
end ClientBindings

import ClientBindings.Proofs.Bundle.Faithful

/-! Reading back the references that bundling writes. Names are written without percent escapes and
read with them, by either of the two readers of pointers; so a reference leads to its component exactly
when neither of the names in it holds an escape. -/

namespace ClientBindings.Bundle

open Data Text

namespace Place
variable {place : Place}

def Unescaped (place : Place) : Prop :=
  Percent.hasEscape place.sectionName.toList = false ∧ Percent.hasEscape place.name.toList = false

theorem decoded_iff : (onChars Percent.decode place.sectionName = place.sectionName ∧
    onChars Percent.decode place.name = place.name) ↔ place.Unescaped :=
  and_congr (Pointer.decode_name_eq_iff _) (Pointer.decode_name_eq_iff _)

/-! ## The two readers -/

theorem path_ref_iff : Reference.path place.ref = .ok ["components", place.sectionName, place.name] ↔
    place.Unescaped := by
  rw [path_ref, ← decoded_iff]
  constructor
  · intro h
    simpa using Except.ok.inj h
  · rintro ⟨hsection, hname⟩
    rw [hsection, hname]

/-- The mark in front of a local reference is the first one, whatever the names hold. -/
theorem splitRef_ref : splitRef place.ref = ("", String.ofList ('/' :: ("components".toList ++ '/' ::
    ((Pointer.escape place.sectionName).toList ++ '/' :: (Pointer.escape place.name).toList)))) := by
  rw [splitRef, ref, Reference.component_toList]
  rfl

theorem escape_ne_empty {name : String} (h : name ≠ "") : Pointer.escape name ≠ "" := by
  intro hempty
  have hchars : name.toList ≠ [] := fun heq => h (String.toList_eq_nil_iff.mp heq)
  obtain ⟨c, cs, hcs⟩ := List.exists_cons_of_ne_nil hchars
  have hnil := String.toList_eq_nil_iff.mpr hempty
  rw [Pointer.escape_toList, hcs, List.flatMap_cons, Pointer.escapeChar, Pointer.escapeTilde] at hnil
  split at hnil
  · cases hnil
  · split at hnil <;> cases hnil

/-- This reader leaves out empty segments, so the names must not be empty. -/
theorem segments_ref (hsection : place.sectionName ≠ "") (hname : place.name ≠ "") :
    Pointer.segments (splitRef place.ref).2 =
      ["components", onChars Percent.decode place.sectionName, onChars Percent.decode place.name] := by
  have hcomponents : String.ofList (Pointer.unescapeChars "components".toList) = "components" := by decide
  have hdrop : ∀ cs : List Char, ('/' :: ("components".toList ++ cs)).dropWhile (· == '/') =
      "components".toList ++ cs := fun cs => rfl
  have hfilter : ["components".toList, (Pointer.escape place.sectionName).toList,
      (Pointer.escape place.name).toList].filter (!·.isEmpty) = ["components".toList,
        (Pointer.escape place.sectionName).toList, (Pointer.escape place.name).toList] := by
    apply List.filter_eq_self.mpr
    simpa using ⟨escape_ne_empty hsection, escape_ne_empty hname⟩
  rw [Pointer.segments, splitRef_ref, String.toList_ofList, hdrop, Reference.splitOn_component, hfilter]
  simp only [List.map_cons, List.map_nil, hcomponents, Pointer.unescape_escape]

theorem segments_ref_iff (hsection : place.sectionName ≠ "") (hname : place.name ≠ "") :
    Pointer.segments (splitRef place.ref).2 = ["components", place.sectionName, place.name] ↔
      place.Unescaped := by
  rw [segments_ref hsection hname, ← decoded_iff]
  simp

/-! ## Looking up -/

/-- A document whose only component stands at a place. -/
def holding (place : Place) (v : Data) : Data :=
  .object [("components", .object [(place.sectionName, .object [(place.name, v)])])]

theorem at?_holding (v : Data) : (place.holding v).at? place.keys = some v := by
  have hfind : ∀ (name : String) (d : Data), (Data.object [(name, d)]).under? (.str name) = some d := by
    intro name d
    simp [Data.object, under?, Entries.find?]
  rw [holding, keys, at?_cons, hfind, Option.bind_some, at?_cons, hfind, Option.bind_some, at?_cons, hfind,
    Option.bind_some, at?_nil]

theorem walk?_object_self (name : String) (d : Data) (names : List String) :
    Pointer.walk? (.object [(name, d)]) (name :: names) = Pointer.walk? d names := by
  have hfind : Entries.find? Scalar.same [(Scalar.str name, d)] (.str name) = some d := by
    rw [Entries.find?_cons, if_pos (Scalar.same_refl _)]
  have hchild : Pointer.child? (.object [(name, d)]) name = .ok (some d) := congrArg Except.ok hfind
  rw [Pointer.walk?, hchild]
  rfl

theorem walk?_object_of_ne {name other : String} (h : other ≠ name) (d : Data) (names : List String) :
    Pointer.walk? (.object [(name, d)]) (other :: names) = .ok none := by
  have hfind : Entries.find? Scalar.same [(Scalar.str name, d)] (.str other) = none := by
    rw [Entries.find?_eq_none_iff]
    intro e he
    rw [List.mem_singleton.mp he, Scalar.same_str_right]
    exact fun heq => h (Scalar.str.inj heq).symm
  have hchild : Pointer.child? (.object [(name, d)]) other = .ok none := congrArg Except.ok hfind
  rw [Pointer.walk?, hchild]
  rfl

theorem walk?_holding {v : Data} {sectionName name : String} :
    Pointer.walk? (place.holding v) ["components", sectionName, name] = .ok (some v) ↔
      sectionName = place.sectionName ∧ name = place.name := by
  rw [holding, walk?_object_self]
  by_cases hsection : sectionName = place.sectionName
  · subst hsection
    rw [walk?_object_self]
    by_cases hname : name = place.name
    · subst hname
      rw [walk?_object_self]
      simp [Pointer.walk?]
    · rw [walk?_object_of_ne hname]
      simp [hname]
  · rw [walk?_object_of_ne hsection]
    simp [hsection]

theorem lookup_ref_iff : (∀ document v, document.at? place.keys = some v →
    Reference.lookup document place.ref = .ok v) ↔ place.Unescaped := by
  constructor
  -- A document that holds nothing else has nothing under the names as they are decoded.
  · intro h
    have hlookup := h _ _ (place.at?_holding .null)
    obtain ⟨names, hpath, hwalk⟩ := Reference.lookup_eq_ok_iff.mp hlookup
    obtain rfl := Except.ok.inj (hpath.symm.trans place.path_ref)
    exact decoded_iff.mp (walk?_holding.mp hwalk)
  · intro h document v hat
    exact lookup_of_path hat (path_ref_iff.mpr h)

/-- Both readers find the names again, and the component is found wherever it stands, exactly when
there is no escape in a name. -/
theorem readsBack_iff (hsection : place.sectionName ≠ "") (hname : place.name ≠ "") :
    (Reference.path place.ref = .ok ["components", place.sectionName, place.name] ↔ place.Unescaped) ∧
    (Pointer.segments (splitRef place.ref).2 = ["components", place.sectionName, place.name] ↔
      place.Unescaped) ∧
    ((∀ document v, document.at? place.keys = some v → Reference.lookup document place.ref = .ok v) ↔
      place.Unescaped) :=
  ⟨path_ref_iff, segments_ref_iff hsection hname, lookup_ref_iff⟩

/-- Tildes, slashes and a percent sign that starts no escape. -/
theorem readsBack_marks :
    Reference.path (Place.mk "schemas" "~1/100%~").ref = .ok ["components", "schemas", "~1/100%~"] ∧
    Pointer.segments (splitRef (Place.mk "schemas" "~1/100%~").ref).2 =
      ["components", "schemas", "~1/100%~"] := by
  have hunescaped : (Place.mk "schemas" "~1/100%~").Unescaped := by
    constructor <;> decide
  obtain ⟨hpath, hsegments, _⟩ := @readsBack_iff ⟨"schemas", "~1/100%~"⟩ (by decide) (by decide)
  exact ⟨hpath.mpr hunescaped, hsegments.mpr hunescaped⟩

end Place

/-- A file whose only entry has a name that looks like an escape. -/
def escapedFiles : Source := .ofFiles [("/work/o.json", .object [("a%20b", .object [])])]

def escapedRoot : Data := .object [("a", refObject "o.json#/a%2520b")]

theorem exists_component_not_found : ∃ R s, Runs (bundle escapedFiles escapedRoot) {} R s ∧
    s.targets = [(⟨"/work/o.json", "/a%2520b"⟩, ⟨"schemas", "a%20b"⟩)] ∧
    R.at? (Place.mk "schemas" "a%20b").keys ≠ none ∧
    Reference.path (Place.mk "schemas" "a%20b").ref = .ok ["components", "schemas", "a b"] ∧
    Pointer.segments (splitRef (Place.mk "schemas" "a%20b").ref).2 = ["components", "schemas", "a b"] ∧
    ∀ v, Reference.lookup R (Place.mk "schemas" "a%20b").ref ≠ .ok v := by
  obtain ⟨R, s, h⟩ : ∃ R s, Runs (bundle escapedFiles escapedRoot) {} R s :=
    Runs.exists_of_isOk (by decide +kernel)
  have hrun : Id.run ((bundle escapedFiles escapedRoot).run {}) = (.ok R, s) := h
  have htargets : (Id.run ((bundle escapedFiles escapedRoot).run {})).2.targets =
      [(⟨"/work/o.json", "/a%2520b"⟩, ⟨"schemas", "a%20b"⟩)] := by
    decide +kernel
  have hfound : (Id.run ((bundle escapedFiles escapedRoot).run {})).1.toOption.map (fun R =>
      ((R.at? (Place.mk "schemas" "a%20b").keys).isSome,
        (Reference.lookup R (Place.mk "schemas" "a%20b").ref).isOk)) = some (true, false) := by
    decide +kernel
  rw [hrun] at htargets hfound
  simp only [Except.toOption, Option.map_some, Option.some.injEq, Prod.mk.injEq] at hfound
  refine ⟨R, s, h, htargets, ?_, (Place.path_ref _).trans (congrArg Except.ok (by decide +kernel)),
    by decide +kernel, ?_⟩
  · exact Option.isSome_iff_ne_none.mp hfound.1
  · intro v hv
    rw [hv] at hfound
    cases hfound.2

end ClientBindings.Bundle

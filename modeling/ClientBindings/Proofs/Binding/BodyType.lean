import ClientBindings.Proofs.Binding.LateBinding

/-! The type and the format of a request body. Both are read off the content of the body, each by a rule of its
own: the format is that of the first media type that has one, the type is that of the JSON entry or else of the
first entry. The rules meet in one entry when JSON comes before all other media types that have a format, or is
absent while the first media type has one. -/

namespace ClientBindings

theorem Data.isNull_of_get {d v : Data} {key : String} (h : d.get key = .ok v) : d.isNull = false := by
  cases d with
  | scalar s => cases h
  | _ => rfl

/-! ## Contents -/

namespace Content
variable {content : Data.Fields} {first chosen : Scalar × Data}

def hasFormat (e : Scalar × Data) : Bool := (Wire.BodyFormat.ofMediaType? e.1).isSome

/-- The entry that decides about the format of a body. -/
def formatting? (content : Data.Fields) : Option (Scalar × Data) := content.find? hasFormat

/-- The entry that decides about the type of a body. -/
def typing? (content : Data.Fields) : Option (Scalar × Data) :=
  (content.find? fun e => e.1 == .str Schema.jsonMediaType).or content.head?

/-- The schema under a media type, a text where nothing is said. -/
def schemaOf (e : Scalar × Data) : Result Data :=
  if !e.1.truthy then return Schema.defaultContent else do
    let schema ← (e.2.orElse (.map [])).get "schema"
    return if schema.isMap then schema else Schema.defaultContent

theorem ofMediaTypes_cons (mediaType : Scalar) (rest : List Data) :
    Wire.BodyFormat.ofMediaTypes (.scalar mediaType :: rest) =
      (Wire.BodyFormat.ofMediaType? mediaType).elim (Wire.BodyFormat.ofMediaTypes rest) .ok := by
  rw [Wire.BodyFormat.ofMediaTypes, Data.asKey, pure_bind]
  cases Wire.BodyFormat.ofMediaType? mediaType <;> rfl

theorem ofMediaTypes_eq (content : Data.Fields) :
    Wire.BodyFormat.ofMediaTypes (content.map fun e => .scalar e.1) =
      .ok (((formatting? content).bind fun e => Wire.BodyFormat.ofMediaType? e.1).getD .raw) := by
  induction content with
  | nil => rfl
  | cons e content ih =>
    rw [List.map_cons, ofMediaTypes_cons, formatting?, List.find?_cons, hasFormat]
    cases hformat : Wire.BodyFormat.ofMediaType? e.1 with
    | none => exact ih
    | some format => simp [hformat]

theorem orElse_map (content : Data.Fields) : (Data.map content).orElse (.map []) = .map content := by
  cases content <;> rfl

/-- What the schema of a content map is read from, once its key is known. -/
theorem ofContent_of_key {content : Data.Fields} {e : Scalar × Data}
    (hkey : (if (content.map fun e => Data.scalar e.1).any fun k => k.same (.str Schema.jsonMediaType) then
      some (.str Schema.jsonMediaType) else (content.map fun e => Data.scalar e.1).head?) = some (.scalar e.1))
    (hfind : Entries.find? Scalar.same content e.1 = some e.2) : Schema.ofContent (.map content) = schemaOf e := by
  have hkeys : (Data.map content).elements = .ok (content.map fun e => .scalar e.1) := rfl
  unfold Schema.ofContent
  rw [hkeys]
  simp only [bind, Except.bind, hkey]
  show (if !e.1.truthy then _ else _) = _
  unfold schemaOf
  split
  · rfl
  · simp only [Data.asKey, pure, Except.pure, hfind, Option.getD_some]
    rfl

theorem ofContent_eq (content : Data.Fields) :
    Schema.ofContent (.map content) = ((typing? content).map schemaOf).getD (.ok Schema.defaultContent) := by
  have hsame : (fun e : Scalar × Data => Scalar.same e.1 (.str Schema.jsonMediaType)) =
      fun e => e.1 == .str Schema.jsonMediaType := by
    funext e
    rw [Bool.eq_iff_iff, Scalar.same_str_right, beq_iff_eq]
  have hany : ((content.map fun e => Data.scalar e.1).any fun k => k.same (.str Schema.jsonMediaType)) =
      content.any fun e => e.1 == .str Schema.jsonMediaType := by
    rw [List.any_map, ← hsame]
    rfl
  cases hjson : content.find? fun e => e.1 == .str Schema.jsonMediaType with
  | some e =>
    have hkey : e.1 = .str Schema.jsonMediaType := by simpa using List.find?_some hjson
    rw [typing?, hjson]
    refine ofContent_of_key ?_ ?_
    · rw [hany, if_pos (List.any_eq_true.mpr ⟨e, List.mem_of_find?_eq_some hjson, List.find?_some hjson⟩), hkey]
    · rw [hkey, Entries.find?, hsame, hjson]
      rfl
  | none =>
    have hno : (content.any fun e => e.1 == .str Schema.jsonMediaType) = false := by
      rw [List.any_eq_false]
      exact List.find?_eq_none.mp hjson
    rw [typing?, hjson]
    cases content with
    | nil => rfl
    | cons e rest =>
      refine ofContent_of_key ?_ ?_
      · rw [hany, hno]
        rfl
      · rw [Entries.find?_cons, if_pos (Scalar.same_refl e.1)]

theorem ofBody_eq {body : Data} (hcontent : body.get "content" = .ok (.map content))
    (hfirst : formatting? content = some first) :
    Wire.BodyFormat.ofBody body = .ok (Wire.BodyFormat.ofMediaType? first.1) := by
  have hhas : hasFormat first = true := List.find?_some hfirst
  obtain ⟨format, hformat⟩ := Option.isSome_iff_exists.mp hhas
  have hkeys : (Data.map content).elements = .ok (content.map fun e => .scalar e.1) := rfl
  unfold Wire.BodyFormat.ofBody
  rw [Data.isNull_of_get hcontent, hcontent]
  simp only [Bool.false_eq_true, if_false, bind, Except.bind, orElse_map, hkeys, ofMediaTypes_eq, hfirst, Option.bind_some,
    hformat, Option.getD_some]
  rfl

theorem json_hasFormat {e : Scalar × Data} (h : e.1 = .str Schema.jsonMediaType) : hasFormat e = true := by
  rw [hasFormat, h]
  rfl

/-- When the rules meet in one entry. -/
theorem typing?_eq_formatting?_iff (hfirst : formatting? content = some first) (hchosen : typing? content = some chosen) :
    chosen = first ↔ first.1 = .str Schema.jsonMediaType ∨
      (∀ e ∈ content, e.1 ≠ .str Schema.jsonMediaType) ∧ content.head? = some first := by
  rw [typing?] at hchosen
  cases hjson : content.find? fun e => e.1 == .str Schema.jsonMediaType with
  | some e =>
    have hkey : e.1 = .str Schema.jsonMediaType := by simpa using List.find?_some hjson
    have hmem := List.mem_of_find?_eq_some hjson
    obtain rfl : e = chosen := by simpa [hjson] using hchosen
    constructor
    · rintro rfl
      exact Or.inl hkey
    · rintro (hfirstKey | ⟨hnone, _⟩)
      · -- No entry before the first one with a format is one of JSON, for that has a format.
        obtain ⟨_, before, after, hsplit, hbefore⟩ := List.find?_eq_some_iff_append.mp hfirst
        have hfind : content.find? (fun e => e.1 == .str Schema.jsonMediaType) = some first := by
          refine List.find?_eq_some_iff_append.mpr ⟨by simpa using hfirstKey, before, after, hsplit, fun e he => ?_⟩
          have hno := hbefore e he
          by_contra hkey
          rw [json_hasFormat (by simpa using hkey)] at hno
          cases hno
        exact Option.some.inj (hjson.symm.trans hfind)
      · exact absurd hkey (hnone e hmem)
  | none =>
    have hnone : ∀ e ∈ content, e.1 ≠ .str Schema.jsonMediaType := by simpa using hjson
    have hhead : content.head? = some chosen := by simpa [hjson] using hchosen
    rw [hhead]
    constructor
    · rintro rfl
      exact Or.inr ⟨hnone, rfl⟩
    · rintro (hkey | ⟨_, heq⟩)
      · exact absurd hkey (hnone first (List.mem_of_find?_eq_some hfirst))
      · exact Option.some.inj heq

theorem exists_typing? (h : content ≠ []) : ∃ chosen, typing? content = some chosen := by
  refine Option.isSome_iff_exists.mp ?_
  cases content with
  | nil => exact absurd rfl h
  | cons e rest => simp [typing?]

end Content

/-! ## Bodies -/

namespace Parameters
variable {document operation pathItem : Data} {naming : Naming} {location : String} {s t : Compilation} {ps : Parameters}

/-- The body of an operation, its format and its group are made from one content. -/
theorem classify_body (h : Runs (classify document naming location operation pathItem) s ps t)
    (hbody : ps.body.isNull = false) :
    Wire.BodyFormat.ofBody ps.body = .ok ps.bodyFormat ∧ ∃ g, ps.group? .body = some g ∧
      ∃ u, Runs (bodyGroup document naming ps.body) u g t := by
  simp only [classify, Runs.bind_iff, Runs.lift_iff] at h
  obtain ⟨shared, _, ⟨_, rfl⟩, own, _, ⟨_, rfl⟩, declared, _, ⟨_, rfl⟩, body, _, ⟨_, rfl⟩, _, s, ⟨hformat, rfl⟩, located, u,
    hgroup, h⟩ := h
  split at h
  case isTrue hnull =>
    simp only [Runs.bind_iff, Runs.pure_iff] at h
    obtain ⟨_, _, ⟨rfl, rfl⟩, rfl, rfl⟩ := h
    exact absurd (hnull.symm.trans hbody) (by simp)
  case isFalse =>
    simp only [Runs.bind_iff, Runs.map_iff, Runs.pure_iff] at h
    obtain ⟨_, _, ⟨g, hbodyRun, rfl⟩, rfl, rfl⟩ := h
    have hkey : g.key = .body := by
      simp only [bodyGroup, Runs.bind_iff, Runs.lift_iff, Runs.pure_iff] at hbodyRun
      obtain ⟨_, _, _, _, _, _, _, _, _, _, _, _, rfl, _⟩ := hbodyRun
      rfl
    refine ⟨hformat, g, ?_, _, hbodyRun⟩
    show (((located.put g).put (configGroup naming)).find? .body) = some g
    rw [Grouping.find?_put, Grouping.find?_put, if_neg (by simp [configGroup]), if_pos hkey]

/-- The format of a body is that of the first media type that has one; its type is that of the schema under JSON,
or else under the first media type. -/
theorem body_type_and_format (h : Runs (classify document naming location operation pathItem) s ps t)
    {content : Data.Fields} {first : Scalar × Data} (hcontent : ps.body.get "content" = .ok (.map content))
    (hfirst : Content.formatting? content = some first) :
    ∃ chosen schema g, Content.typing? content = some chosen ∧ Content.schemaOf chosen = .ok schema ∧
      ps.bodyFormat = Wire.BodyFormat.ofMediaType? first.1 ∧ ps.group? .body = some g ∧
      Runs (Schema.typeOf document schema) t.schema g.type t.schema ∧
      (chosen = first ↔ first.1 = .str Schema.jsonMediaType ∨
        (∀ e ∈ content, e.1 ≠ .str Schema.jsonMediaType) ∧ content.head? = some first) := by
  obtain ⟨hformat, g, hg, u, hrun⟩ := classify_body h (Data.isNull_of_get hcontent)
  obtain ⟨chosen, hchosen⟩ := Content.exists_typing? (List.ne_nil_of_mem (List.mem_of_find?_eq_some hfirst))
  simp only [bodyGroup, Runs.bind_iff, Runs.lift_iff, Runs.pure_iff, Compilation.runs_synthesize_iff] at hrun
  obtain ⟨given, _, ⟨hgiven, rfl⟩, schema, _, ⟨hschema, rfl⟩, _, _, ⟨_, rfl⟩, type, _, ⟨after, htype, rfl⟩, rfl, rfl⟩ := hrun
  obtain rfl : Data.map content = given := Except.ok.inj (hcontent.symm.trans hgiven)
  rw [Content.orElse_map, Content.ofContent_eq, hchosen] at hschema
  refine ⟨chosen, schema, _, hchosen, hschema, ?_, hg, ?_, Content.typing?_eq_formatting?_iff hfirst hchosen⟩
  · exact (Except.ok.inj ((Content.ofBody_eq hcontent hfirst).symm.trans hformat)).symm
  · exact Schema.typeOfAt_repeats document _ _ _ _ _ after htype (List.prefix_refl _)

/-- An upload that may be sent as JSON as well, and as something without a format. -/
def uploadContent : Data.Fields := [
  (.str "text/csv", .object []),
  (.str "application/json", .object [("schema", .object [("type", .str "array")])]),
  (.str "multipart/form-data", .object [("schema", .object [("type", .str "object")])])]

def bodyOf (content : Data.Fields) : Data := .object [("requestBody", .object [("content", .map content)])]

theorem body_type_and_format_upload : ∃ ps t first chosen schema g,
    Runs (classify (.map []) {} "/files.post" (bodyOf uploadContent) .null) {} ps t ∧
      ps.body.get "content" = .ok (.map uploadContent) ∧ Content.formatting? uploadContent = some first ∧
      ps.bodyFormat = some .json ∧
      (Content.typing? uploadContent = some chosen ∧ Content.schemaOf chosen = .ok schema ∧
        ps.bodyFormat = Wire.BodyFormat.ofMediaType? first.1 ∧ ps.group? .body = some g ∧
        Runs (Schema.typeOf (.map []) schema) t.schema g.type t.schema ∧
        (chosen = first ↔ first.1 = .str Schema.jsonMediaType ∨
          (∀ e ∈ uploadContent, e.1 ≠ .str Schema.jsonMediaType) ∧ uploadContent.head? = some first)) := by
  obtain ⟨ps, t, hrun, hcontent, hformat⟩ : ∃ ps t,
      Runs (classify (.map []) {} "/files.post" (bodyOf uploadContent) .null) {} ps t ∧
        ps.body.get "content" = .ok (.map uploadContent) ∧ ps.bodyFormat = some .json := ⟨_, _, rfl, rfl, rfl⟩
  obtain ⟨first, hfirst⟩ : ∃ first, Content.formatting? uploadContent = some first := ⟨_, rfl⟩
  obtain ⟨chosen, schema, g, h⟩ := body_type_and_format hrun hcontent hfirst
  exact ⟨ps, t, first, chosen, schema, g, hrun, hcontent, hfirst, hformat, h⟩

/-- A form comes first, and the type is that of JSON behind it. -/
def formContent : Data.Fields := [
  (.str "multipart/form-data", .object [("schema", .object [("type", .str "object")])]),
  (.str "application/json", .object [("schema", .object [("type", .str "string")])])]

theorem exists_body_type_apart : ∃ ps t first schema g,
    Runs (classify (.map []) {} "/files.post" (bodyOf formContent) .null) {} ps t ∧
    ps.body.get "content" = .ok (.map formContent) ∧ Content.formatting? formContent = some first ∧
    ps.bodyFormat = some .multipart ∧ Content.schemaOf first = .ok schema ∧
    Runs (Schema.typeOf (.map []) schema) t.schema (.object [] none) t.schema ∧
    ps.group? .body = some g ∧ g.type = .string ∧
    Wire.BodyFormat.multipart.apply [(.str "body", .str "text")] = .error .noMember :=
  ⟨_, _, _, _, _, rfl, rfl, rfl, rfl, rfl, rfl, rfl, rfl, rfl⟩

end Parameters
end ClientBindings

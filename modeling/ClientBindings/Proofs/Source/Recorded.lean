import ClientBindings.Proofs.Source.Written

/-! Records are declared once. The records in what is asked for are listed by a recursion over types in which every part
stands once; where no attempt at a record is given up, the records that are made are those of the list. Where there are
no intersections, the list can be read off the type alone. -/

namespace ClientBindings

open TypeText

variable {scope : Scope} {job : Job} {texts : List String} {made : List Made} {keys : List (List Data)}

/-- The keys of a record that is made. -/
def Made.keys? : Made → Option (List Data)
  | .inline d => some (d.fields.map FieldDeclaration.name)
  | _ => none

/-- The keys of the records that are made. -/
def keysMade (made : List Made) : List (List Data) := made.filterMap Made.keys?

theorem keysMade_append (made more : List Made) : keysMade (made ++ more) = keysMade made ++ keysMade more :=
  List.filterMap_append

theorem keysMade_inline (d : RecordDeclaration) :
    keysMade [.inline d] = [d.fields.map FieldDeclaration.name] := rfl

theorem keysMade_declared (key : String) (d : Declaration) : keysMade [.declared key d] = [] := rfl

/-! ## Records that are asked for -/

/-- The records in what is asked for, as the keys of each. Where there is a hint a record stands after those in its
fields. The record of an intersection has its own fields or those of all its members, one for each key, and stands after
the records of the aliases that are declared when they are asked for as bases. -/
inductive Recorded (scope : Scope) : Job → List (List Data) → Prop
  | atomic {t : TypeNode} {hint : String} : t.isAtomic = true → Recorded scope (.type t hint) []
  | unhinted {t : TypeNode} {hint : String} : t.isRecord = true → hint.isEmpty = true →
      Recorded scope (.type t hint) []
  | array {items : TypeNode} {hint : String} {keys : List (List Data)} :
      Recorded scope (.type items (extend hint "Item")) keys → Recorded scope (.type (.array items) hint) keys
  | values {values : TypeNode} {hint : String} {keys : List (List Data)} :
      Recorded scope (.type values (extend hint "Value")) keys →
      Recorded scope (.type (.object [] (some values)) hint) keys
  | union {ts : List TypeNode} {hint : String} {keys : List (List Data)} :
      Recorded scope (.members (TypeNode.flattenAll ts) hint) keys → Recorded scope (.type (.union ts) hint) keys
  | record {fields : List Field} {index : Option TypeNode} {hint name : String} {keys : List (List Data)} :
      hint.isEmpty = false → name.isEmpty = false → fields ≠ [] → Recorded scope (.fields name fields) keys →
      Recorded scope (.type (.object fields index) hint) (keys ++ [fields.map FieldOf.name])
  | intersection {ts : List TypeNode} {fields : List Field} {hint name : String} {keys : List (List Data)} :
      hint.isEmpty = false → Recorded scope (.composition name ts fields) keys →
      Recorded scope (.type (.intersection ts) hint) (keys ++ [fields.map FieldOf.name])
  | unjoined {ts : List TypeNode} {hint : String} {keys : List (List Data)} :
      hint.isEmpty = false → scope.Fieldless ts → Recorded scope (.bases ts) keys →
      Recorded scope (.type (.intersection ts) hint) keys
  | noMembers {hint : String} : Recorded scope (.members [] hint) []
  | member {t : TypeNode} {ts : List TypeNode} {hint : String} {keys more : List (List Data)} :
      Recorded scope (.type t hint) keys → Recorded scope (.members ts hint) more →
      Recorded scope (.members (t :: ts) hint) (keys ++ more)
  | noFields {owner : String} : Recorded scope (.fields owner []) []
  | field {owner part : String} {f : Field} {fs : List Field} {keys more : List (List Data)} :
      f.hintPart = .ok part → Recorded scope (.type f.type (extend owner part)) keys →
      Recorded scope (.fields owner fs) more → Recorded scope (.fields owner (f :: fs)) (keys ++ more)
  | noBases {ts : List TypeNode} : Recorded scope (.bases ts) []
  | passed {t : TypeNode} {ts : List TypeNode} {keys : List (List Data)} :
      Recorded scope (.bases ts) keys → Recorded scope (.bases (t :: ts)) keys
  | base {key : String} {pointer : Option String} {a : Alias} {ts : List TypeNode} {keys more : List (List Data)} :
      scope.aliases.lookup key = some a → Recorded scope (.declaration a) keys → Recorded scope (.bases ts) more →
      Recorded scope (.bases (.reference key pointer :: ts)) (keys ++ more)
  | attempt {name : String} {ts : List TypeNode} {keys : List (List Data)} :
      Recorded scope (.bases ts) keys → Recorded scope (.attempt name ts) keys
  | joined {name : String} {ts : List TypeNode} {keys more : List (List Data)} :
      Recorded scope (.bases ts) keys → Recorded scope (.fields name (TypeNode.ownFields ts)) more →
      Recorded scope (.composition name ts (TypeNode.ownFields ts)) (keys ++ more)
  | merged {name : String} {ts : List TypeNode} {declaring : List String} {all fields : List Field}
      {keys more : List (List Data)} : Recorded scope (.bases ts) keys →
      scope.fieldsOf declaring (.intersection ts) = some all → Field.distinct all = .ok fields →
      Recorded scope (.fields name fields) more → Recorded scope (.composition name ts fields) (keys ++ more)
  | enumeration {name given : String} {pointer : Option String} {members : List EnumMember} {comment : Data} :
      Recorded scope (.alias name (.enumeration given pointer members comment)) []
  | recordAlias {name given : String} {pointer : Option String} {fields : List Field} {index : Option TypeNode}
      {comment : Data} {keys : List (List Data)} : fields ≠ [] → Recorded scope (.fields name fields) keys →
      Recorded scope (.alias name (.synonym given pointer (.object fields index) comment)) keys
  | intersectionAlias {name given : String} {pointer : Option String} {ts : List TypeNode} {comment : Data}
      {fields : List Field} {keys : List (List Data)} : Recorded scope (.composition name ts fields) keys →
      Recorded scope (.alias name (.synonym given pointer (.intersection ts) comment)) keys
  | unjoinedAlias {name given : String} {pointer : Option String} {ts : List TypeNode} {comment : Data}
      {keys : List (List Data)} : scope.Fieldless ts → Recorded scope (.bases ts) keys →
      Recorded scope (.alias name (.synonym given pointer (.intersection ts) comment)) keys
  | synonym {name given : String} {pointer : Option String} {t : TypeNode} {comment : Data}
      {keys : List (List Data)} : t.isRecord = false → Recorded scope (.type t name) keys →
      Recorded scope (.alias name (.synonym given pointer t comment)) keys
  | known {a : Alias} : Recorded scope (.declaration a) []
  | declared {a : Alias} {keys : List (List Data)} :
      Recorded scope (.alias (scope.nameOf a.name) a) keys → Recorded scope (.declaration a) keys

theorem Recorded.bases {name : String} {ts : List TypeNode} (h : Recorded scope (.attempt name ts) keys) :
    Recorded scope (.bases ts) keys := by
  cases h with
  | attempt h => exact h

/-- Where nothing is given up the records that are made are those that are asked for. -/
theorem Written.recorded (h : Written scope job texts made) (hkept : ∀ annotations, .dropped annotations ∉ made) :
    Recorded scope job (keysMade made) := by
  have hleft : ∀ {made more : List Made}, (∀ annotations, .dropped annotations ∉ made ++ more) →
      ∀ annotations, .dropped annotations ∉ made :=
    fun hkept annotations hmem => hkept annotations (List.mem_append_left _ hmem)
  have hright : ∀ {made more : List Made}, (∀ annotations, .dropped annotations ∉ made ++ more) →
      ∀ annotations, .dropped annotations ∉ more :=
    fun hkept annotations hmem => hkept annotations (List.mem_append_right _ hmem)
  induction h with
  | atomic hatomic => exact .atomic hatomic
  | unhinted hrecord hhint => exact .unhinted hrecord hhint
  | array _ ih => exact .array (ih hkept)
  | values _ ih => exact .values (ih hkept)
  | union _ _ ih => exact .union (ih hkept)
  | record hhint hname _ hfields hkeys _ ih =>
    rw [keysMade_append, keysMade_inline, hkeys]
    exact .record hhint hname hfields (ih (hleft hkept))
  | intersection hhint _ hkeys _ ih =>
    rw [keysMade_append, keysMade_inline, hkeys]
    exact .intersection hhint (ih (hleft hkept))
  | unjoined hhint hfieldless _ ih => exact .unjoined hhint hfieldless (ih hkept).bases
  | noMembers => exact .noMembers
  | @literal v _ hint _ _ _ ih =>
    have hfirst : Recorded scope (.type (.literal v) hint) [] := .atomic rfl
    exact hfirst.member (ih hkept)
  | member _ _ ih ihs =>
    rw [keysMade_append]
    exact .member (ih (hleft hkept)) (ihs (hright hkept))
  | noFields => exact .noFields
  | field hpart _ _ _ ih ihs =>
    rw [keysMade_append]
    exact .field hpart (ih (hleft hkept)) (ihs (hright hkept))
  | noBases => exact .noBases
  | passed _ ih => exact .passed (ih hkept)
  | base hlookup _ _ ih ihs =>
    rw [keysMade_append]
    exact .base hlookup (ih (hleft hkept)) (ihs (hright hkept))
  | attempt _ ih => exact .attempt (ih hkept)
  | givenUp => exact absurd List.mem_concat_self (hkept _)
  | joined _ _ _ ih ihs =>
    rw [keysMade_append]
    exact .joined (ih (hleft hkept)) (ihs (hright hkept))
  | merged _ hfields hdistinct _ ih ihs =>
    rw [keysMade_append]
    exact .merged (ih (hleft hkept)).bases hfields hdistinct (ihs (hright hkept))
  | enumeration => exact .enumeration
  | recordAlias hfields _ ih => exact .recordAlias hfields (ih hkept)
  | intersectionAlias _ ih => exact .intersectionAlias (ih hkept)
  | unjoinedAlias hfieldless _ ih => exact .unjoinedAlias hfieldless (ih hkept).bases
  | synonym hrecord _ ih => exact .synonym hrecord (ih hkept)
  | known => exact .known
  | declared _ ih =>
    rw [keysMade_append, keysMade_declared, List.append_nil]
    exact .declared (ih (hleft hkept))

/-! ## Records of a type without intersections -/

namespace TypeNode

mutual
/-- The records that stand in a type, as the keys of each, after those in its fields; none inside of intersections. -/
def records : TypeNode → List (List Data)
  | .array items => records items
  | .object [] index => recordsOfIndex index
  | .object (f :: fs) _ => recordsOfFields (f :: fs) ++ [(f :: fs).map FieldOf.name]
  | .union ts => recordsOfAll ts
  | .any | .never | .primitive _ | .literal _ | .intersection _ | .reference _ _ | .supplied _ => []
def recordsOfIndex : Option TypeNode → List (List Data)
  | none => []
  | some t => records t
def recordsOfAll : List TypeNode → List (List Data)
  | [] => []
  | t :: ts => records t ++ recordsOfAll ts
def recordsOfFields : List (FieldOf TypeNode) → List (List Data)
  | [] => []
  | ⟨_, t, _, _, _⟩ :: fs => records t ++ recordsOfFields fs
end

theorem recordsOfAll_append (ts us : List TypeNode) : recordsOfAll (ts ++ us) = recordsOfAll ts ++ recordsOfAll us := by
  induction ts with
  | nil => rfl
  | cons t ts ih => rw [List.cons_append, recordsOfAll, recordsOfAll, ih, List.append_assoc]

mutual
theorem recordsOfAll_flatten : ∀ t : TypeNode, recordsOfAll t.flatten = t.records
  | .union ts => by rw [flatten, records, recordsOfAll_flattenAll ts]
  | .any | .never | .primitive _ | .literal _ | .array _ | .object _ _ | .intersection _ | .reference _ _
  | .supplied _ => List.append_nil _
theorem recordsOfAll_flattenAll : ∀ ts : List TypeNode, recordsOfAll (flattenAll ts) = recordsOfAll ts
  | [] => rfl
  | t :: ts => by rw [flattenAll, recordsOfAll_append, recordsOfAll_flatten t, recordsOfAll_flattenAll ts, recordsOfAll]
end

theorem intersectionsOfAll_eq_nil {ts : List TypeNode} (h : intersectionsOfAll ts = []) :
    ∀ t ∈ ts, t.intersections = [] := by
  induction ts with
  | nil => exact fun t ht => absurd ht List.not_mem_nil
  | cons t ts ih =>
    rw [intersectionsOfAll, List.append_eq_nil_iff] at h
    exact List.forall_mem_cons.mpr ⟨h.1, ih h.2⟩

theorem intersectionsOfFields_eq_nil {fs : List Field} (h : intersectionsOfFields fs = []) :
    ∀ f ∈ fs, f.type.intersections = [] := by
  refine fun f hf => List.eq_nil_iff_forall_not_mem.mpr fun us hus => ?_
  have hmem : us ∈ intersectionsOfFields fs := mem_intersectionsOfFields.mpr ⟨f, hf, hus⟩
  rw [h] at hmem
  exact List.not_mem_nil hmem

/-- In fields of a record without intersections there are none. -/
theorem intersections_of_field {fields : List Field} {index : Option TypeNode} (hfields : fields ≠ [])
    (h : (TypeNode.object fields index).intersections = []) : ∀ f ∈ fields, f.type.intersections = [] := by
  rw [intersections, if_neg (by simpa using hfields)] at h
  exact intersectionsOfFields_eq_nil h

end TypeNode

/-- The records that are declared for a job where it leads to no intersections. -/
def Job.records : Job → List (List Data)
  | .type t _ => t.records
  | .members ts _ => TypeNode.recordsOfAll ts
  | .fields _ fs => TypeNode.recordsOfFields fs
  | .alias _ (.synonym _ _ (.object (f :: fs) _) _) => TypeNode.recordsOfFields (f :: fs)
  | .alias _ (.synonym _ _ t _) => t.records
  | _ => []

/-- There is a hint for what is asked for, and no intersection in it. -/
def Job.Straight : Job → Prop
  | .type t hint => hint.isEmpty = false ∧ t.intersections = []
  | .members ts hint => hint.isEmpty = false ∧ ∀ t ∈ ts, t.intersections = []
  | .fields owner fs => owner.isEmpty = false ∧ ∀ f ∈ fs, f.type.intersections = []
  | .alias name (.synonym _ _ t _) => name.isEmpty = false ∧ t.intersections = []
  | .alias _ (.enumeration ..) => True
  | .bases _ | .attempt _ _ | .composition _ _ _ | .declaration _ => False

theorem TypeNode.records_of_ne_nil {fields : List Field} {index : Option TypeNode} (h : fields ≠ []) :
    (TypeNode.object fields index).records = recordsOfFields fields ++ [fields.map FieldOf.name] := by
  obtain ⟨f, fs, rfl⟩ := List.exists_cons_of_ne_nil h
  rw [records]

/-- Where there are no intersections nothing is made but the records in a type, each once. -/
theorem Written.map_keys (h : Written scope job texts made) (hjob : job.Straight) :
    made.map Made.keys? = job.records.map some := by
  induction h with
  | @atomic t _ _ hatomic =>
    cases t with
    | object fields index =>
      obtain ⟨hfields, hindex⟩ := Bool.and_eq_true_iff.mp hatomic
      rw [List.isEmpty_iff.mp hfields, Option.isNone_iff_eq_none.mp hindex]
      rfl
    | array | union | intersection => cases hatomic
    | _ => rfl
  | unhinted _ hhint => exact absurd (hhint.symm.trans hjob.1) Bool.noConfusion
  | array _ ih | values _ ih => exact ih ⟨isEmpty_extend_eq_false _ hjob.1, hjob.2⟩
  | @union ts hint _ _ _ _ _ ih =>
    have hts : ∀ t ∈ TypeNode.flattenAll ts, t.intersections = [] := fun t ht =>
      TypeNode.forall_mem_flattenAll (P := fun t => t.intersections = [])
        (fun _ hus => TypeNode.intersectionsOfAll_eq_nil hus) (TypeNode.intersectionsOfAll_eq_nil hjob.2) ht
    exact (ih ⟨hjob.1, hts⟩).trans (congrArg (List.map some) (TypeNode.recordsOfAll_flattenAll ts))
  | @record fields index hint d made _ hname _ hfields hkeys _ ih =>
    rw [Job.records, TypeNode.records_of_ne_nil hfields, List.map_append, List.map_append,
      ih ⟨hname, TypeNode.intersections_of_field hfields hjob.2⟩, ← hkeys]
    rfl
  | intersection | unjoined => exact absurd hjob.2 (List.cons_ne_nil _ _)
  | noMembers | noFields | enumeration => rfl
  | literal _ ih => exact ih ⟨hjob.1, fun t ht => hjob.2 t (List.mem_cons_of_mem _ ht)⟩
  | member _ _ ih ihs =>
    rw [List.map_append, ih ⟨hjob.1, hjob.2 _ List.mem_cons_self⟩,
      ihs ⟨hjob.1, fun t ht => hjob.2 t (List.mem_cons_of_mem _ ht)⟩, ← List.map_append]
    rfl
  | field _ _ _ _ ih ihs =>
    rw [List.map_append, ih ⟨isEmpty_extend_eq_false _ hjob.1, hjob.2 _ List.mem_cons_self⟩,
      ihs ⟨hjob.1, fun f hf => hjob.2 f (List.mem_cons_of_mem _ hf)⟩, ← List.map_append]
    rfl
  | @recordAlias name given pointer fields index comment texts made hfields _ ih =>
    obtain ⟨f, fs, rfl⟩ := List.exists_cons_of_ne_nil hfields
    exact ih ⟨hjob.1, TypeNode.intersections_of_field hfields hjob.2⟩
  | intersectionAlias | unjoinedAlias => exact absurd hjob.2 (List.cons_ne_nil _ _)
  | @synonym name given text pointer t comment made hrecord _ ih =>
    rw [ih hjob]
    cases t with
    | object fields index =>
      cases fields with
      | nil => rfl
      | cons f fs => cases hrecord
    | _ => rfl
  | noBases | passed | base | attempt | givenUp | joined | merged | known | declared => exact hjob.elim

theorem Written.keysMade_eq (h : Written scope job texts made) (hjob : job.Straight) : keysMade made = job.records := by
  have hkeys : keysMade made = (made.map Made.keys?).filterMap id := by rw [List.filterMap_map]; rfl
  rw [hkeys, h.map_keys hjob, List.filterMap_map]
  exact List.filterMap_some

theorem Written.dropped_not_mem_of_straight (h : Written scope job texts made) (hjob : job.Straight)
    (annotations : List String) : .dropped annotations ∉ made := by
  intro hmem
  have hnone : none ∈ job.records.map some := h.map_keys hjob ▸ List.mem_map_of_mem hmem
  obtain ⟨keys, -, hkeys⟩ := List.mem_map.mp hnone
  cases hkeys

end ClientBindings

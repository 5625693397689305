import ClientBindings.Proofs.Source.TextLiteral
import ClientBindings.Proofs.Source.Unending

/-! What is declared when something is written. A record with a hint is declared where it stands, after the records in
its fields, and an alias is declared where it is asked for as a base. Of an intersection the own fields are written
first; where they turn out not to make a class, what was written is given up and all fields are written instead. -/

namespace ClientBindings

open TypeText

/-! ## Names in annotations -/

/-- An annotation names a declaration: the name stands there alone or in a larger annotation, perhaps in quotes. -/
inductive Annotation.NamedIn (n : String) : String → Prop
  | name : NamedIn n n
  | listOf {text : String} : NamedIn n text → NamedIn n (TypeText.listOf text)
  | mappingTo {text : String} : NamedIn n text → NamedIn n (TypeText.mappingTo text)
  | union {text : String} {parts : List String} : text ∈ parts → NamedIn n text →
      NamedIn n (String.intercalate " | " parts)
  | optional {text : String} : NamedIn n text → NamedIn n ("NotRequired[" ++ text ++ "]")
  | quoted {text : String} : NamedIn n text → NamedIn n (Literal.quoted text)

namespace Annotation.NamedIn

variable {n text : String}

/-- The word that stands for literals names nothing else. -/
theorem ne_literalMark (h : NamedIn n text) (hn : n ≠ literalMark) : text ≠ literalMark := by
  have hhead : ∀ {front rest : String}, front.toList.head? ≠ some 'L' → front ≠ "" → front ++ rest ≠ literalMark := by
    intro front rest hfront hne heq
    have hchars := congrArg (fun s : String => s.toList.head?) heq
    have hnil : front.toList ≠ [] := fun hnil => hne (String.toList_injective hnil)
    rw [String.toList_append, List.head?_append_of_ne_nil _ hnil] at hchars
    exact hfront hchars
  induction h with
  | name => exact hn
  | listOf _ _ =>
    rw [TypeText.listOf, String.append_assoc]
    exact hhead (by decide) (by decide)
  | mappingTo _ _ =>
    rw [TypeText.mappingTo, String.append_assoc]
    exact hhead (by decide) (by decide)
  | optional _ _ =>
    rw [String.append_assoc]
    exact hhead (by decide) (by decide)
  | quoted _ _ =>
    intro heq
    have hchars := congrArg (fun s : String => s.toList.head?) heq
    rw [Literal.toList_quoted] at hchars
    exact absurd (Option.some.inj hchars) (by decide)
  | @union part parts hpart _ ih =>
    intro heq
    cases parts with
    | nil => exact List.not_mem_nil hpart
    | cons p parts =>
      cases parts with
      | nil =>
        rw [List.mem_singleton.mp hpart] at ih
        rw [String.intercalate_singleton] at heq
        exact ih heq
      | cons q parts =>
        rw [String.intercalate_cons_cons] at heq
        have hblank : ' ' ∈ literalMark.toList := by
          rw [← heq]
          simp [String.toList_append]
        exact absurd hblank (by decide)

/-- A name that is not changed in quotes is a part of the annotation. -/
theorem isInfix (h : NamedIn n text) (hplain : n.toList.flatMap Quoted.jsonChar = n.toList) :
    n.toList <:+: text.toList := by
  have inside : ∀ (front text back : String), text.toList <:+: (front ++ text ++ back).toList := fun front text back =>
    ⟨front.toList, back.toList, by rw [String.toList_append, String.toList_append]⟩
  induction h with
  | name => exact List.infix_rfl
  | listOf _ ih => exact ih.trans (inside _ _ _)
  | mappingTo _ ih => exact ih.trans (inside _ _ _)
  | optional _ ih => exact ih.trans (inside _ _ _)
  | union hpart _ ih =>
    rw [String.toList_intercalate]
    exact ih.trans (Text.infix_join (List.mem_map_of_mem hpart))
  | @quoted text _ ih =>
    obtain ⟨front, back, htext⟩ := ih
    rw [Literal.toList_quoted, Quoted.json, ← htext, List.flatMap_append, List.flatMap_append, hplain]
    exact ⟨'"' :: front.flatMap Quoted.jsonChar, back.flatMap Quoted.jsonChar ++ ['"'], by
      simp only [List.cons_append, List.append_assoc]⟩

end Annotation.NamedIn

/-! ## Records in types -/

namespace TypeNode

/-- Whether a type has no parts. -/
def isAtomic : TypeNode → Bool
  | .array _ | .union _ | .intersection _ => false
  | .object fields index => fields.isEmpty && index.isNone
  | _ => true

/-- Whether a type is that of a record, which a declaration is made for where there is a hint. -/
def isRecord : TypeNode → Bool
  | .object fields _ => !fields.isEmpty
  | .intersection _ => true
  | _ => false

mutual
/-- Whether records stand in a type. -/
def hasRecord : TypeNode → Bool
  | .array items => hasRecord items
  | .object fields index => !fields.isEmpty || hasRecordIndex index
  | .union ts => hasRecordAll ts
  | .intersection _ => true
  | .any | .never | .primitive _ | .literal _ | .reference _ _ | .supplied _ => false
def hasRecordIndex : Option TypeNode → Bool
  | none => false
  | some t => hasRecord t
def hasRecordAll : List TypeNode → Bool
  | [] => false
  | t :: ts => hasRecord t || hasRecordAll ts
end

theorem hasRecordAll_eq_false {ts : List TypeNode} : hasRecordAll ts = false ↔ ∀ t ∈ ts, t.hasRecord = false := by
  induction ts with
  | nil => simp [hasRecordAll]
  | cons t ts ih => simp [hasRecordAll, ih]

/-- The fields that members of an intersection have themselves. -/
def ownFields (ts : List TypeNode) : List Field :=
  ts.flatMap fun
    | .object own _ => own
    | _ => []

/-- Whether a member of an intersection can be a base of its record or give fields of its own to it. -/
def isPart : TypeNode → Bool
  | .reference _ _ | .object _ _ => true
  | _ => false

/-- An intersection has other members than aliases and objects, or all its own fields can be written as attributes, or
no records stand in them. -/
def Unmixed (ts : List TypeNode) : Prop :=
  (∃ t ∈ ts, t.isPart = false) ∨ Field.allAttributes (ownFields ts) = .ok true ∨
    ∀ f ∈ ownFields ts, f.type.hasRecord = false

/-- Own fields for which an attempt at a class fails have no records in them. -/
theorem Unmixed.recordless {ts : List TypeNode} (h : Unmixed ts) (hparts : ∀ t ∈ ts, t.isPart = true)
    (hfails : Field.allAttributes (ownFields ts) = .ok false) : ∀ f ∈ ownFields ts, f.type.hasRecord = false := by
  rcases h with ⟨t, ht, hpart⟩ | hall | hrecordless
  · rw [hparts t ht] at hpart
    cases hpart
  · rw [hfails] at hall
    cases hall
  · exact hrecordless

/-- All intersections in a type are unmixed. -/
inductive Clear : TypeNode → Prop
  | atomic {t : TypeNode} : t.isAtomic = true → Clear t
  | array {items : TypeNode} : Clear items → Clear (.array items)
  | object {fields : List Field} {index : Option TypeNode} : (∀ f ∈ fields, Clear f.type) →
      (∀ values, index = some values → Clear values) → Clear (.object fields index)
  | union {ts : List TypeNode} : (∀ t ∈ ts, Clear t) → Clear (.union ts)
  | intersection {ts : List TypeNode} : Unmixed ts → (∀ t ∈ ts, Clear t) → Clear (.intersection ts)

namespace Clear

theorem items {items : TypeNode} (h : Clear (.array items)) : Clear items := by
  cases h with
  | atomic h => cases h
  | array h => exact h

theorem field {fields : List Field} {index : Option TypeNode} (h : Clear (.object fields index)) :
    ∀ f ∈ fields, Clear f.type := by
  cases h with
  | atomic h =>
    obtain ⟨hfields, -⟩ := Bool.and_eq_true_iff.mp h
    rw [List.isEmpty_iff.mp hfields]
    exact fun f hf => absurd hf List.not_mem_nil
  | object h _ => exact h

theorem values {fields : List Field} {values : TypeNode} (h : Clear (.object fields (some values))) :
    Clear values := by
  cases h with
  | atomic h => cases (Bool.and_eq_true_iff.mp h).2
  | object _ h => exact h values rfl

theorem member {ts : List TypeNode} (h : Clear (.union ts)) : ∀ t ∈ ts, Clear t := by
  cases h with
  | atomic h => cases h
  | union h => exact h

theorem part {ts : List TypeNode} (h : Clear (.intersection ts)) : Unmixed ts ∧ ∀ t ∈ ts, Clear t := by
  cases h with
  | atomic h => cases h
  | intersection hunmixed h => exact ⟨hunmixed, h⟩

theorem ownField {ts : List TypeNode} (h : Clear (.intersection ts)) : ∀ f ∈ ownFields ts, Clear f.type := by
  intro f hf
  obtain ⟨t, ht, hf⟩ := List.mem_flatMap.mp hf
  split at hf
  · exact (h.part.2 _ ht).field f hf
  · exact absurd hf List.not_mem_nil

theorem passesDown : PassesDown Clear where
  field _ _ h := h.field
  member _ h := h.part.2

end Clear
end TypeNode

/-! ## What is made -/

/-- What is asked for: the annotation of a type, those of the members of a union, those of the fields of a record, the
aliases among the members of an intersection, what is done before its fields are merged, those of its record with the
fields that it gets, those of an alias under a name, and the declaration of an alias. -/
inductive Job where
  | type (t : TypeNode) (hint : String)
  | members (ts : List TypeNode) (hint : String)
  | fields (owner : String) (fields : List Field)
  | bases (ts : List TypeNode)
  | attempt (name : String) (ts : List TypeNode)
  | composition (name : String) (ts : List TypeNode) (fields : List Field)
  | alias (name : String) (a : Alias)
  | declaration (a : Alias)

/-- What is made on the way: a record where it stands, the declaration of an alias, annotations that are given up. -/
inductive Made where
  | inline (d : RecordDeclaration)
  | declared (key : String) (d : Declaration)
  | dropped (annotations : List String)

namespace Made

def annotations : Made → List String
  | .inline d => d.annotations
  | .declared _ d => d.annotations
  | .dropped annotations => annotations

def inline? : Made → Option Declaration
  | .inline d => some (.record d)
  | _ => none

def declared? : Made → Option (String × Declaration)
  | .declared key d => some (key, d)
  | _ => none

end Made

/-- No fields are found for an intersection, at least while some aliases are being declared. -/
def Scope.Fieldless (scope : Scope) (ts : List TypeNode) : Prop :=
  ∃ declaring, (scope.fieldsOf declaring (.intersection ts)).getD [] = []

/-- The annotations that are returned for a job and what is made on the way, in order. Every record with a hint is
declared once where it is written. The own fields of an intersection are written in an attempt first: it counts if they
make a class, and is given up otherwise. -/
inductive Written (scope : Scope) : Job → List String → List Made → Prop
  | atomic {t : TypeNode} {hint text : String} : t.isAtomic = true → Written scope (.type t hint) [text] []
  | unhinted {t : TypeNode} {hint : String} : t.isRecord = true → hint.isEmpty = true →
      Written scope (.type t hint) [mapping] []
  | array {items : TypeNode} {hint text : String} {made : List Made} :
      Written scope (.type items (extend hint "Item")) [text] made →
      Written scope (.type (.array items) hint) [listOf text] made
  | values {values : TypeNode} {hint text : String} {made : List Made} :
      Written scope (.type values (extend hint "Value")) [text] made →
      Written scope (.type (.object [] (some values)) hint) [mappingTo text] made
  | union {ts : List TypeNode} {hint : String} {texts parts : List String} {made : List Made} :
      Written scope (.members (TypeNode.flattenAll ts) hint) texts made →
      (∀ text ∈ texts, text ≠ literalMark → text ∈ parts) →
      Written scope (.type (.union ts) hint) [String.intercalate " | " parts] made
  | record {fields : List Field} {index : Option TypeNode} {hint : String} {d : RecordDeclaration} {made : List Made} :
      hint.isEmpty = false → d.name.isEmpty = false → d.name ≠ literalMark → fields ≠ [] →
      d.fields.map FieldDeclaration.name = fields.map FieldOf.name →
      Written scope (.fields d.name fields) d.annotations made →
      Written scope (.type (.object fields index) hint) [d.name] (made ++ [.inline d])
  | intersection {ts : List TypeNode} {fields : List Field} {hint : String} {d : RecordDeclaration}
      {made : List Made} : hint.isEmpty = false → d.name ≠ literalMark →
      d.fields.map FieldDeclaration.name = fields.map FieldOf.name →
      Written scope (.composition d.name ts fields) d.annotations made →
      Written scope (.type (.intersection ts) hint) [d.name] (made ++ [.inline d])
  | unjoined {ts : List TypeNode} {hint name : String} {made : List Made} :
      hint.isEmpty = false → scope.Fieldless ts → Written scope (.attempt name ts) [] made →
      Written scope (.type (.intersection ts) hint) [mapping] made
  | noMembers {hint : String} : Written scope (.members [] hint) [] []
  | literal {v : Scalar} {ts : List TypeNode} {hint : String} {texts : List String} {made : List Made} :
      Written scope (.members ts hint) texts made → Written scope (.members (.literal v :: ts) hint) texts made
  | member {t : TypeNode} {ts : List TypeNode} {hint text : String} {texts : List String} {made more : List Made} :
      Written scope (.type t hint) [text] made → Written scope (.members ts hint) texts more →
      Written scope (.members (t :: ts) hint) (text :: texts) (made ++ more)
  | noFields {owner : String} : Written scope (.fields owner []) [] []
  | field {owner part text written : String} {f : Field} {fs : List Field} {texts : List String}
      {made more : List Made} : f.hintPart = .ok part → Written scope (.type f.type (extend owner part)) [text] made →
      written = text ∨ written = Literal.quoted text → Written scope (.fields owner fs) texts more →
      Written scope (.fields owner (f :: fs)) (optional written f.required :: texts) (made ++ more)
  | noBases {ts : List TypeNode} : Written scope (.bases ts) [] []
  | passed {t : TypeNode} {ts : List TypeNode} {made : List Made} :
      Written scope (.bases ts) [] made → Written scope (.bases (t :: ts)) [] made
  | base {key : String} {pointer : Option String} {a : Alias} {ts : List TypeNode} {made more : List Made} :
      scope.aliases.lookup key = some a → Written scope (.declaration a) [] made → Written scope (.bases ts) [] more →
      Written scope (.bases (.reference key pointer :: ts)) [] (made ++ more)
  | attempt {name : String} {ts : List TypeNode} {made : List Made} :
      Written scope (.bases ts) [] made → Written scope (.attempt name ts) [] made
  | givenUp {name : String} {ts : List TypeNode} {texts : List String} {made more : List Made} :
      Written scope (.bases ts) [] made → (∀ t ∈ ts, t.isPart = true) →
      Field.allAttributes (TypeNode.ownFields ts) = .ok false →
      Written scope (.fields name (TypeNode.ownFields ts)) texts more → more ≠ [] →
      Written scope (.attempt name ts) [] (made ++ more ++ [.dropped texts])
  | joined {name : String} {ts : List TypeNode} {texts : List String} {made more : List Made} :
      Written scope (.bases ts) [] made → Field.allAttributes (TypeNode.ownFields ts) = .ok true →
      Written scope (.fields name (TypeNode.ownFields ts)) texts more →
      Written scope (.composition name ts (TypeNode.ownFields ts)) texts (made ++ more)
  | merged {name : String} {ts : List TypeNode} {declaring : List String} {all fields : List Field}
      {texts : List String} {made more : List Made} : Written scope (.attempt name ts) [] made →
      scope.fieldsOf declaring (.intersection ts) = some all → Field.distinct all = .ok fields →
      Written scope (.fields name fields) texts more →
      Written scope (.composition name ts fields) texts (made ++ more)
  | enumeration {name given : String} {pointer : Option String} {members : List EnumMember} {comment : Data} :
      Written scope (.alias name (.enumeration given pointer members comment)) [] []
  | recordAlias {name given : String} {pointer : Option String} {fields : List Field} {index : Option TypeNode}
      {comment : Data} {texts : List String} {made : List Made} : fields ≠ [] →
      Written scope (.fields name fields) texts made →
      Written scope (.alias name (.synonym given pointer (.object fields index) comment)) texts made
  | intersectionAlias {name given : String} {pointer : Option String} {ts : List TypeNode} {comment : Data}
      {fields : List Field} {texts : List String} {made : List Made} :
      Written scope (.composition name ts fields) texts made →
      Written scope (.alias name (.synonym given pointer (.intersection ts) comment)) texts made
  | unjoinedAlias {name given : String} {pointer : Option String} {ts : List TypeNode} {comment : Data}
      {made : List Made} : scope.Fieldless ts → Written scope (.attempt name ts) [] made →
      Written scope (.alias name (.synonym given pointer (.intersection ts) comment)) [mapping] made
  | synonym {name given text : String} {pointer : Option String} {t : TypeNode} {comment : Data} {made : List Made} :
      t.isRecord = false → Written scope (.type t name) [text] made →
      Written scope (.alias name (.synonym given pointer t comment)) [text] made
  | known {a : Alias} : Written scope (.declaration a) [] []
  | declared {a : Alias} {d : Declaration} {made : List Made} :
      Written scope (.alias (scope.nameOf a.name) a) d.annotations made →
      Written scope (.declaration a) [] (made ++ [.declared a.name d])

/-! ## Records are named -/

/-- A name stands in annotations that are returned, or in those of something made. -/
def Referred (texts : List String) (made : List Made) (n : String) : Prop :=
  (∃ text ∈ texts, Annotation.NamedIn n text) ∨ ∃ m ∈ made, ∃ text ∈ m.annotations, Annotation.NamedIn n text

/-- All records that are made are named, and not by the word for literals. -/
def Covered (texts : List String) (made : List Made) : Prop :=
  ∀ d, .inline d ∈ made → d.name ≠ literalMark ∧ Referred texts made d.name

section
variable {texts more : List String} {made others : List Made} {n : String}

theorem Referred.mono (h : Referred texts made n) (hmade : made ⊆ others)
    (htexts : ∀ text ∈ texts, Annotation.NamedIn n text → Referred more others n) : Referred more others n := by
  rcases h with ⟨text, htext, hnamed⟩ | ⟨m, hm, hnamed⟩
  · exact htexts text htext hnamed
  · exact .inr ⟨m, hmade hm, hnamed⟩

theorem covered_nil : Covered texts [] := fun _ hd => absurd hd List.not_mem_nil

/-- What names a returned annotation in the place of another one. -/
theorem Covered.map (h : Covered texts made)
    (hmap : ∀ n, n ≠ literalMark → ∀ text ∈ texts, Annotation.NamedIn n text →
      ∃ text ∈ more, Annotation.NamedIn n text) : Covered more made := by
  intro d hd
  obtain ⟨hname, hreferred⟩ := h d hd
  exact ⟨hname, hreferred.mono (List.Subset.refl _) fun text htext hnamed => .inl (hmap _ hname text htext hnamed)⟩

theorem Covered.append (h : Covered texts made) (hothers : Covered more others) :
    Covered (texts ++ more) (made ++ others) := by
  intro d hd
  rcases List.mem_append.mp hd with hd | hd
  · obtain ⟨hname, hreferred⟩ := h d hd
    exact ⟨hname, hreferred.mono (List.subset_append_left _ _) fun text htext hnamed =>
      .inl ⟨text, List.mem_append_left _ htext, hnamed⟩⟩
  · obtain ⟨hname, hreferred⟩ := hothers d hd
    exact ⟨hname, hreferred.mono (List.subset_append_right _ _) fun text htext hnamed =>
      .inl ⟨text, List.mem_append_right _ htext, hnamed⟩⟩

/-- Annotations that something is made of need not be returned. -/
theorem Covered.close {m : Made} (h : Covered m.annotations made)
    (hm : ∀ d, m = .inline d → d.name ≠ literalMark ∧ ∃ text ∈ texts, Annotation.NamedIn d.name text) :
    Covered texts (made ++ [m]) := by
  intro d hd
  rcases List.mem_append.mp hd with hd | hd
  · obtain ⟨hname, hreferred⟩ := h d hd
    exact ⟨hname, hreferred.mono (List.subset_append_left _ _) fun text htext hnamed =>
      .inr ⟨m, List.mem_concat_self, text, htext, hnamed⟩⟩
  · obtain ⟨hname, hnamed⟩ := hm d (List.mem_singleton.mp hd).symm
    exact ⟨hname, .inl hnamed⟩

theorem Covered.closeInline {d : RecordDeclaration} (hname : d.name ≠ literalMark) (h : Covered d.annotations made) :
    Covered [d.name] (made ++ [.inline d]) := by
  refine Covered.close (m := .inline d) h ?_
  rintro r ⟨⟩
  exact ⟨hname, d.name, List.mem_singleton_self _, .name⟩

end

variable {scope : Scope} {job : Job} {texts : List String} {made : List Made}

/-- Whatever is written, every record that is made is named by an annotation. -/
theorem Written.covered (h : Written scope job texts made) : Covered texts made := by
  induction h with
  | atomic | unhinted | noMembers | noFields | noBases | enumeration | known => exact covered_nil
  | array _ ih =>
    exact ih.map fun n _ text htext hnamed =>
      ⟨_, List.mem_singleton_self _, List.mem_singleton.mp htext ▸ hnamed.listOf⟩
  | values _ ih =>
    exact ih.map fun n _ text htext hnamed =>
      ⟨_, List.mem_singleton_self _, List.mem_singleton.mp htext ▸ hnamed.mappingTo⟩
  | union _ hparts ih =>
    exact ih.map fun n hn text htext hnamed =>
      ⟨_, List.mem_singleton_self _, .union (hparts text htext (hnamed.ne_literalMark hn)) hnamed⟩
  | record _ _ hname _ _ _ ih => exact ih.closeInline hname
  | intersection _ hname _ _ ih => exact ih.closeInline hname
  | unjoined _ _ _ ih => exact ih.map fun _ _ _ htext => absurd htext List.not_mem_nil
  | literal _ ih | passed _ ih | attempt _ ih | recordAlias _ _ ih | intersectionAlias _ ih | synonym _ _ ih => exact ih
  | member _ _ ih ihs => exact ih.append ihs
  | @field owner part text written f fs texts made more _ _ hwritten _ ih ihs =>
    have hfirst : Covered [optional written f.required] made := by
      refine ih.map fun n _ _ htext hnamed => ⟨_, List.mem_singleton_self _, ?_⟩
      rw [List.mem_singleton.mp htext] at hnamed
      have hnamed : Annotation.NamedIn n written := by
        rcases hwritten with rfl | rfl
        · exact hnamed
        · exact hnamed.quoted
      unfold TypeText.optional
      split
      · exact hnamed
      · exact hnamed.optional
    exact hfirst.append ihs
  | base _ _ _ ih ihs => exact ih.append ihs
  | @givenUp name ts texts made more _ _ _ _ _ ih ihs =>
    have hclosed : Covered [] (more ++ [.dropped texts]) := Covered.close (m := .dropped texts) ihs (by rintro _ ⟨⟩)
    rw [List.append_assoc]
    exact ih.append hclosed
  | joined _ _ _ ih ihs => exact ih.append ihs
  | merged _ _ _ _ ih ihs => exact ih.append ihs
  | unjoinedAlias _ _ ih => exact ih.map fun _ _ _ htext => absurd htext List.not_mem_nil
  | @declared a d made _ ih => exact Covered.close (m := .declared a.name d) ih (by rintro _ ⟨⟩)

/-! ## What is given up -/

/-- No records stand in what is asked for. -/
def Job.Recordless : Job → Prop
  | .type t _ => t.hasRecord = false
  | .members ts _ => ∀ t ∈ ts, t.hasRecord = false
  | .fields _ fs => ∀ f ∈ fs, f.type.hasRecord = false
  | .bases _ | .attempt _ _ | .composition _ _ _ | .alias _ _ | .declaration _ => False

theorem TypeNode.hasRecord_of_mem_flattenAll {ts : List TypeNode} (h : ∀ t ∈ ts, t.hasRecord = false) :
    ∀ t ∈ flattenAll ts, t.hasRecord = false :=
  fun _ ht => forall_mem_flattenAll (P := fun t => t.hasRecord = false)
    (fun _ hts => hasRecordAll_eq_false.mp (by rwa [hasRecord] at hts)) h ht

/-- Without records nothing is made. -/
theorem Written.made_eq_nil (h : Written scope job texts made) (hjob : job.Recordless) : made = [] := by
  induction h with
  | atomic | unhinted | noMembers | noFields => rfl
  | array _ ih => exact ih (by rwa [Job.Recordless, TypeNode.hasRecord] at hjob)
  | values _ ih =>
    exact ih (by simpa [Job.Recordless, TypeNode.hasRecord, TypeNode.hasRecordIndex] using hjob)
  | @union ts _ _ _ _ _ _ ih =>
    have hts : TypeNode.hasRecordAll ts = false := by simpa [Job.Recordless, TypeNode.hasRecord] using hjob
    exact ih (TypeNode.hasRecord_of_mem_flattenAll (TypeNode.hasRecordAll_eq_false.mp hts))
  | record _ _ _ hfields => simp [Job.Recordless, TypeNode.hasRecord, hfields] at hjob
  | intersection | unjoined => cases hjob
  | literal _ ih => exact ih fun t ht => hjob t (List.mem_cons_of_mem _ ht)
  | member _ _ ih ihs =>
    rw [ih (hjob _ List.mem_cons_self), ihs fun t ht => hjob t (List.mem_cons_of_mem _ ht), List.append_nil]
  | field _ _ _ _ ih ihs =>
    rw [ih (hjob _ List.mem_cons_self), ihs fun f hf => hjob f (List.mem_cons_of_mem _ hf), List.append_nil]
  | noBases | passed | base | attempt | givenUp | joined | merged | enumeration | recordAlias | intersectionAlias |
    unjoinedAlias | synonym | known | declared => exact hjob.elim

/-- All intersections in the type of an alias are unmixed. -/
def Alias.Clear : Alias → Prop
  | .synonym _ _ type _ => type.Clear
  | .enumeration .. => True

def Scope.Clear (scope : Scope) : Prop := ∀ key a, scope.aliases.lookup key = some a → a.Clear

/-- All intersections in what is asked for are unmixed. -/
def Job.Clear : Job → Prop
  | .type t _ => t.Clear
  | .members ts _ => ∀ t ∈ ts, t.Clear
  | .fields _ fs => ∀ f ∈ fs, f.type.Clear
  | .bases _ => True
  | .attempt _ ts | .composition _ ts _ => TypeNode.Clear (.intersection ts)
  | .alias _ a | .declaration a => a.Clear

theorem Scope.Clear.fieldsOf (h : scope.Clear) {declaring : List String} {t : TypeNode} {fields : List Field}
    (ht : t.Clear) (hfields : scope.fieldsOf declaring t = some fields) : ∀ f ∈ fields, f.type.Clear :=
  TypeNode.Clear.passesDown.fieldsFor (fun _ _ _ _ _ hlookup => h _ _ hlookup) ht hfields

/-- Where all intersections are unmixed nothing is given up: an attempt that fails has made nothing. -/
theorem Written.dropped_not_mem (h : Written scope job texts made) (hscope : scope.Clear) (hjob : job.Clear)
    (annotations : List String) : .dropped annotations ∉ made := by
  induction h with
  | atomic | unhinted | noMembers | noFields | noBases | enumeration | known => exact List.not_mem_nil
  | array _ ih => exact ih hjob.items
  | values _ ih => exact ih hjob.values
  | union _ _ ih =>
    exact ih fun t ht => TypeNode.forall_mem_flattenAll (fun _ hts => TypeNode.Clear.member hts) hjob.member ht
  | record _ _ _ _ _ _ ih => exact List.not_mem_append (ih hjob.field) fun h => nomatch List.mem_singleton.mp h
  | intersection _ _ _ _ ih => exact List.not_mem_append (ih hjob) fun h => nomatch List.mem_singleton.mp h
  | unjoined _ _ _ ih | intersectionAlias _ ih | unjoinedAlias _ _ ih => exact ih hjob
  | literal _ ih => exact ih fun t ht => hjob t (List.mem_cons_of_mem _ ht)
  | member _ _ ih ihs =>
    exact List.not_mem_append (ih (hjob _ List.mem_cons_self)) (ihs fun t ht => hjob t (List.mem_cons_of_mem _ ht))
  | field _ _ _ _ ih ihs =>
    exact List.not_mem_append (ih (hjob _ List.mem_cons_self)) (ihs fun f hf => hjob f (List.mem_cons_of_mem _ hf))
  | passed _ ih | attempt _ ih => exact ih trivial
  | base hlookup _ _ ih ihs =>
    exact List.not_mem_append (ih (hscope _ _ hlookup)) (ihs trivial)
  | givenUp _ hparts hfails hwritten hsome _ _ =>
    -- all that an attempt makes are records in own fields
    exact absurd (hwritten.made_eq_nil (TypeNode.Unmixed.recordless hjob.part.1 hparts hfails)) hsome
  | joined _ _ _ ih ihs => exact List.not_mem_append (ih trivial) (ihs (TypeNode.Clear.ownField hjob))
  | merged _ hfields hkept _ ih ihs =>
    refine List.not_mem_append (ih hjob) (ihs fun f hf => ?_)
    exact hscope.fieldsOf hjob hfields f (Field.mem_of_mem_distinct hkept hf)
  | recordAlias _ _ ih => exact ih hjob.field
  | synonym _ _ ih => exact ih hjob
  | declared _ ih => exact List.not_mem_append (ih hjob) fun h => nomatch List.mem_singleton.mp h

end ClientBindings

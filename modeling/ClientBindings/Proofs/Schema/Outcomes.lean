import ClientBindings.Proofs.Outcome
import ClientBindings.Proofs.Schema.Below
import ClientBindings.Proofs.Schema.Steps

/-! A synthesis that may fail, level by level. Two ways to synthesize the parts of a schema are compared; where
they are alike on the parts so are the levels above them. A level fails with its plan, with one of its parts,
or, at a reference, before or after its pointer is registered. -/

namespace ClientBindings.Schema

section
variable {P : State → Prop} {E : Failure → State → Prop} {f g : Data → M TypeNode} {s : State}

/-! ## Levels without a reference -/

/-- On a schema both do the same and keep `P`; a failure is as `E` says. -/
def Keep (P : State → Prop) (E : Failure → State → Prop) (f g : Data → M TypeNode) (schema : Data) : Prop :=
  ∀ u, P u → Alike (fun _ v => P v) E (f schema) (g schema) u

/-- Where a plan cannot be made the failure is as `E` says. -/
def Owns {α : Type} (P : State → Prop) (E : Failure → State → Prop) (plan : Result α) : Prop :=
  ∀ failure u, plan = .error failure → P u → E failure u

/-- Where the failures of the plan are as `E` says, both do the same and keep `P`. -/
def Tracks (P : State → Prop) (E : Failure → State → Prop) (m m' : M TypeNode) (plan : Result Plan) : Prop :=
  Owns P E plan → ∀ s, P s → Alike (fun _ t => P t) E m m' s

theorem Owns.of_bind {α β : Type} {r : Result α} {k : α → Result β} (h : Owns P E (r >>= k)) :
    Owns P E r ∧ ∀ a, r = .ok a → Owns P E (k a) := by
  constructor
  · intro failure u hr hu
    apply h failure u _ hu
    rw [hr]
    rfl
  · intro a hr failure u hk hu
    apply h failure u _ hu
    rw [hr]
    exact hk

theorem Owns.bind {α β : Type} {r : Result α} {k : α → Result β} (hr : Owns P E r)
    (hk : ∀ a, r = .ok a → Owns P E (k a)) : Owns P E (r >>= k) := by
  cases r with
  | error failure => exact fun other u h hu => hr other u (congrArg Except.error (Except.error.inj h)) hu
  | ok a => exact hk a rfl

theorem alike_lift_bind {α β : Type} {Q : β → State → Prop} {r : Result α} {k k' : α → M β} (hs : P s)
    (hown : Owns P E r) (hk : ∀ a, r = .ok a → Alike Q E (k a) (k' a) s) :
    Alike Q E (liftM r >>= k) (liftM r >>= k') s :=
  Alike.lift_bind hk fun failure hr => hown failure s hr hs

theorem tracks_pure (type : TypeNode) (plan : Result Plan) : Tracks P E (pure type) (pure type) plan :=
  fun _ _ hs => Alike.pure hs

theorem tracks_bind {γ : Type} {r : Result γ} {m m' : γ → M TypeNode} {plan : γ → Result Plan}
    (h : ∀ c, r = .ok c → Tracks P E (m c) (m' c) (plan c)) :
    Tracks P E (do m (← (r : Result γ))) (do m' (← (r : Result γ))) (do plan (← r)) := by
  intro hown s hs
  obtain ⟨hr, hown⟩ := hown.of_bind
  apply alike_lift_bind hs hr
  intro c hc
  exact h c hc (hown c hc) s hs

theorem tracks_ite {c : Bool} {m m' n n' : M TypeNode} {plan plan' : Result Plan} (h : Tracks P E m m' plan)
    (h' : Tracks P E n n' plan') :
    Tracks P E (if c then m else n) (if c then m' else n') (if c then plan else plan') := by
  cases c
  · exact h'
  · exact h

theorem alike_fieldWith {required : Data} {property : Scalar × Data} (hs : P s) (hpart : Keep P E f g property.2)
    (hown : Owns P E (Plan.fieldShape required property)) :
    Alike (fun _ t => (∃ shape, Plan.fieldShape required property = .ok shape) ∧ P t) E
      (fieldWith f required property) (fieldWith g required property) s := by
  obtain ⟨name, schema⟩ := property
  apply Alike.bind (hpart s hs)
  intro type t ht
  obtain ⟨hhas, hown⟩ := hown.of_bind
  apply alike_lift_bind ht hhas
  intro isRequired hrequired
  obtain ⟨hremark, hown⟩ := (hown isRequired hrequired).of_bind
  apply alike_lift_bind ht hremark
  intro comment hcomment
  obtain ⟨hget, -⟩ := (hown comment hcomment).of_bind
  apply alike_lift_bind ht hget
  intro deprecated hdeprecated
  apply Alike.pure
  refine ⟨?_, ht⟩
  simp only [Plan.fieldShape, Result.bind_eq_ok_iff]
  exact ⟨_, isRequired, hrequired, comment, hcomment, deprecated, hdeprecated, rfl⟩

/-- The shapes fail where the first field does that cannot be made. -/
theorem alike_fields {required : Data} {entries : Data.Fields} (hs : P s)
    (hparts : ∀ e ∈ entries, Keep P E f g e.2) (hown : Owns P E (entries.mapM (Plan.fieldShape required))) :
    Alike (fun _ t => (∃ shapes, entries.mapM (Plan.fieldShape required) = .ok shapes) ∧ P t) E
      (entries.mapM (fieldWith f required)) (entries.mapM (fieldWith g required)) s := by
  induction entries generalizing s with
  | nil => exact Alike.pure ⟨⟨[], rfl⟩, hs⟩
  | cons e es ih =>
    simp only [List.mapM_cons] at hown ⊢
    obtain ⟨hhead, hown⟩ := hown.of_bind
    apply Alike.bind (alike_fieldWith hs (hparts e List.mem_cons_self) hhead)
    rintro field t ⟨⟨shape, hshape⟩, ht⟩
    obtain ⟨htail, -⟩ := (hown shape hshape).of_bind
    apply Alike.bind (ih ht (fun e' he' => hparts e' (List.mem_cons_of_mem e he')) htail)
    rintro fields u ⟨⟨shapes, hshapes⟩, hu⟩
    apply Alike.pure
    refine ⟨⟨shape :: shapes, ?_⟩, hu⟩
    rw [hshape, hshapes]
    rfl

theorem tracks_record {properties required additional : Data}
    (hproperties : ∀ entries, properties = .map entries → ∀ e ∈ entries, Keep P E f g e.2)
    (hadditional : counts additional = true → Keep P E f g additional) :
    Tracks P E (recordWith f properties required additional) (recordWith g properties required additional)
      (Plan.record properties required additional) := by
  intro hown s hs
  obtain ⟨hentries, hown⟩ := hown.of_bind
  apply alike_lift_bind hs hentries
  intro entries heq
  obtain ⟨hshapes, -⟩ := (hown entries heq).of_bind
  have hparts : ∀ e ∈ entries, Keep P E f g e.2 := hproperties entries (Data.eq_map_of_entries heq)
  apply Alike.bind (alike_fields hs hparts hshapes)
  rintro fields t ⟨-, ht⟩
  by_cases hcounts : counts additional = true
  · by_cases htrue : isTrue additional = true
    · simp only [hcounts, htrue]
      exact Alike.pure ht
    · simp only [hcounts, htrue]
      apply Alike.bind (hadditional hcounts t ht)
      intro type u hu
      exact Alike.pure hu
  · simp only [hcounts]
    exact Alike.pure ht

section
variable {schema : Data} (hparts : ∀ part, Asks schema part → Keep P E f g part)
include hparts

theorem tracks_members {key : String} {build : List TypeNode → TypeNode} (hkey : key ∈ ["oneOf", "anyOf", "allOf"]) :
    Tracks P E (do return build (← membersWith f schema key)) (do return build (← membersWith g schema key))
      (Plan.members schema key build) := by
  intro hown s hs
  obtain ⟨hrequire, hown⟩ := hown.of_bind
  have hschemas : Owns P E (do (← schema.require key).elements) :=
    hrequire.bind fun value hvalue => (hown value hvalue).of_bind.1
  have hmembers : Alike (fun _ t => P t) E (membersWith f schema key) (membersWith g schema key) s := by
    apply alike_lift_bind hs hschemas
    intro parts hall
    obtain ⟨value, hvalue, helements⟩ := Result.bind_eq_ok_iff.mp hall
    have hfind := Data.find?_of_require hvalue
    exact Alike.mapM (fun part hpart u hu => hparts part (.member hkey hfind helements hpart) u hu) hs
  apply Alike.bind hmembers
  intro types t ht
  exact Alike.pure ht

theorem tracks_named : Tracks P E (namedWith f schema) (namedWith g schema) (Plan.named schema) := by
  apply tracks_bind
  intro type htype
  split
  · split
    · rename_i items hitems
      intro hown s hs
      apply Alike.bind (hparts items (.items hitems) s hs)
      intro inner t ht
      exact Alike.pure ht
    · exact tracks_pure _ _
  · exact tracks_pure _ _
  · exact tracks_pure _ _
  · exact tracks_pure _ _
  · split <;> exact tracks_pure _ _
  · apply tracks_record
    · exact fun entries heq e he => hparts e.2 (asks_property heq he)
    · exact fun hcounts => hparts _ (asks_further hcounts)
  · exact tracks_pure _ _

theorem tracks_base {document : Data} (href : schema.isReference = false) :
    Tracks P E (baseWith document f schema) (baseWith document g schema) (Plan.base schema) := by
  unfold baseWith Plan.base
  simp only [href]
  apply tracks_ite (tracks_pure _ _)
  apply tracks_bind
  intro isOneOf _
  apply tracks_ite (tracks_members hparts (by simp))
  apply tracks_bind
  intro isAnyOf _
  apply tracks_ite (tracks_members hparts (by simp))
  apply tracks_bind
  intro isAllOf _
  apply tracks_ite (tracks_members hparts (by simp))
  apply tracks_bind
  intro isEnum _
  apply tracks_ite ?_ (tracks_named hparts)
  intro hown s hs
  obtain ⟨hrequire, hown⟩ := hown.of_bind
  have hvalues : Owns P E (do (← schema.require "enum").elements) :=
    hrequire.bind fun value hvalue => (hown value hvalue).of_bind.1
  apply alike_lift_bind hs hvalues
  intro values _
  exact Alike.pure hs

end

/-! ## References -/

/-- The pointer of a reference. -/
def pointerText (schema : Data) : Result String :=
  match schema.find? "$ref" with
  | some (.str pointer) => return pointer
  | some (.scalar _) => throw .noMember
  | _ => throw .wrongKind

theorem find?_of_pointerText {schema : Data} {pointer : String} (h : pointerText schema = .ok pointer) :
    schema.find? "$ref" = some (.str pointer) := by
  unfold pointerText at h
  split at h
  · rename_i hfind
    rw [hfind, Result.pure_eq_ok_iff.mp h]
  · cases h
  · cases h

/-- A reference without a pointer is refused for what stands in its place. -/
theorem refWith_of_pointerText {document schema : Data} {failure : Failure} (h : pointerText schema = .error failure) :
    refWith document f schema = throw failure := by
  unfold pointerText at h
  unfold refWith
  cases hfind : schema.find? "$ref" with
  | none =>
    rw [hfind] at h
    cases h
    rfl
  | some d =>
    rw [hfind] at h
    cases d with
    | scalar v =>
      cases v with
      | str pointer => cases h
      | _ =>
        cases h
        rfl
    | _ =>
      cases h
      rfl

/-- What can make a synthesis stop at a schema. -/
inductive Stops (document schema : Data) (failure : Failure) : Prop
  | plan : schema.isReference = false → Plan.of schema = .error failure → Stops document schema failure
  | pointer : schema.isReference = true → pointerText schema = .error failure → Stops document schema failure
  | target {pointer : String} : schema.find? "$ref" = some (.str pointer) →
      Reference.lookup document pointer = .error failure → Stops document schema failure
  | name {pointer : String} : schema.find? "$ref" = some (.str pointer) →
      Reference.name pointer = .error failure → Stops document schema failure
  | enumeration : enumeration? schema = .error failure → Stops document schema failure

/-- What is asked of the target of a pointer, the pointer being registered. -/
structure Enters (P : State → Prop) (E : Failure → State → Prop) (f g : Data → M TypeNode) (target : Data)
    (pointer name : String) (u : State) : Prop where
  refused : ∀ failure, enumeration? target = .error failure → E failure u
  enumeration : ∀ members comment, enumeration? target = .ok (some members) →
    P (u.emitted (.enumeration name (some pointer) members comment))
  synonym : enumeration? target = .ok none →
    Alike (fun type t => ∀ comment, P (t.emitted (.synonym name (some pointer) type comment))) E
      (f target) (g target) u

theorem exists_remark_targetOf (d : Data) : ∃ comment, remark (targetOf d) = .ok comment := by
  obtain ⟨es, hes⟩ : ∃ es, targetOf d = .map es := by
    cases d with
    | map es => exact ⟨es, rfl⟩
    | scalar | list | tuple => exact ⟨[], rfl⟩
  rw [hes]
  simp only [remark, Data.get, pure_bind]
  split
  · exact ⟨_, rfl⟩
  · exact ⟨_, rfl⟩

theorem alike_refWith {document schema : Data} (hs : P s) (href : schema.isReference = true)
    (hstops : ∀ failure, Stops document schema failure → E failure s)
    (henters : ∀ pointer d base, schema.find? "$ref" = some (.str pointer) → s.refs.lookup pointer = none →
      Reference.lookup document pointer = .ok d → Reference.name pointer = .ok base →
      let name := freshName s.names (Text.onChars Unicode.upperFirst base)
      Enters P E f g (targetOf d) pointer name (s.entered pointer name)) :
    Alike (fun _ t => P t) E (refWith document f schema) (refWith document g schema) s := by
  cases hpointer : pointerText schema with
  | error failure =>
    rw [refWith_of_pointerText hpointer, refWith_of_pointerText hpointer]
    exact Alike.throw (hstops failure (.pointer href hpointer))
  | ok pointer =>
    have hfind := find?_of_pointerText hpointer
    simp only [refWith, hfind]
    apply Alike.get_bind
    split
    · exact Alike.pure hs
    · rename_i hnew
      simp only [enter, claimName, register, Reference.resolve_of_find? hfind, bind_assoc, pure_bind]
      apply Alike.lift_bind ?_ fun failure herror => hstops failure (.target hfind herror)
      intro d hd
      apply Alike.lift_bind ?_ fun failure herror => hstops failure (.name hfind herror)
      intro base hbase
      have henters := henters pointer d base hfind hnew hd hbase
      apply Alike.get_bind
      apply Alike.set_bind
      apply Alike.modify_bind
      obtain ⟨comment, hcomment⟩ := exists_remark_targetOf d
      apply Alike.lift_bind ?_ fun failure herror => by cases hcomment.symm.trans herror
      intro comment _
      apply Alike.lift_bind ?_ henters.refused
      intro members hmembers
      cases members with
      | some members =>
        apply Alike.modify_bind
        exact Alike.pure (henters.enumeration members comment hmembers)
      | none =>
        apply Alike.bind (henters.synonym hmembers)
        intro type t ht
        apply Alike.modify_bind
        exact Alike.pure (ht comment)

/-! ## Levels -/

section
variable {document schema : Data}
  (hstops : ∀ failure u, Stops document schema failure → P u → E failure u)
  (hparts : ∀ part, Asks schema part → Keep P E f g part)
  (henters : ∀ s pointer d base, P s → schema.find? "$ref" = some (.str pointer) → s.refs.lookup pointer = none →
    Reference.lookup document pointer = .ok d → Reference.name pointer = .ok base →
    let name := freshName s.names (Text.onChars Unicode.upperFirst base)
    Enters P E f g (targetOf d) pointer name (s.entered pointer name))
include hstops hparts henters

theorem keep_baseWith : Keep P E (baseWith document f) (baseWith document g) schema := by
  intro s hs
  cases href : schema.isReference with
  | true =>
    rw [baseWith_of_isReference href, baseWith_of_isReference href]
    apply alike_refWith hs href
    · exact fun failure h => hstops failure s h hs
    · exact fun pointer d base => henters s pointer d base hs
  | false =>
    apply tracks_base hparts href ?_ s hs
    intro failure u hplan hu
    apply hstops failure u (.plan href ?_) hu
    unfold Plan.of
    rw [hplan]
    rfl

end

variable {document schema : Data} {depth depth' : Nat}

/-- What is so for one level is so with `nullable`. -/
theorem keep_typeOfAt (h : Keep P E (baseWith document (typeOfAt document depth))
      (baseWith document (typeOfAt document depth')) schema) :
    Keep P E (typeOfAt document (depth + 1)) (typeOfAt document (depth' + 1)) schema := by
  intro s hs
  apply Alike.bind (h s hs)
  intro type t ht
  exact Alike.pure ht

end
end ClientBindings.Schema

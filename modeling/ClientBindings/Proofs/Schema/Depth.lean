import ClientBindings.Proofs.Schema.Outcomes
import ClientBindings.Proofs.Settling

/-! How deep a synthesis goes. Below a schema the parts get smaller until a reference enters its target, and
every pointer is entered once. So the pointers that are not registered yet bound how often that happens, and
the size of the schema bounds what comes before. -/

namespace ClientBindings

/-! ## Why a synthesis stops -/

/-- The document is malformed, or it has nothing at a reference. -/
inductive Faulty : Failure → Prop
  | noMember : Faulty .noMember
  | wrongKind : Faulty .wrongKind
  | missingKey : Faulty .missingKey
  | badValue : Faulty .badValue
  | unresolved (ref : String) : Faulty (.unresolvedReference ref)
  | unsupported (ref : String) : Faulty (.unsupportedReference ref)

/-- A result that fails for no other reason. -/
def Faults {α : Type} (r : Result α) : Prop := ∀ failure, r = .error failure → Faulty failure

namespace Faults
variable {α β : Type}

theorem pure (a : α) : Faults (pure a : Result α) := fun _ h => nomatch h

theorem throw {failure : Failure} (h : Faulty failure) : Faults (throw failure : Result α) := by
  intro other heq
  obtain rfl : failure = other := Except.error.inj heq
  exact h

theorem bind {r : Result α} {k : α → Result β} (hr : Faults r) (hk : ∀ a, r = .ok a → Faults (k a)) : Faults (r >>= k) := by
  intro failure h
  rcases Result.bind_eq_error_iff.mp h with h | ⟨a, ha, h⟩
  · exact hr failure h
  · exact hk a ha failure h

theorem mapM {f : α → Result β} {xs : List α} (h : ∀ x ∈ xs, Faults (f x)) : Faults (xs.mapM f) := by
  intro failure hfails
  obtain ⟨x, hx, hfx⟩ := Result.exists_of_mapM_eq_error hfails
  exact h x hx failure hfx

theorem guarded (condition : Bool) (a : α) : Faults (Result.guarded condition a) := by
  unfold Result.guarded
  split
  · exact .pure a
  · exact .throw .badValue

end Faults

section
variable (d : Data)

theorem Data.faults_get (key : String) : Faults (d.get key) := by
  unfold get
  split
  · exact .pure _
  · exact .throw .noMember

theorem Data.faults_require (key : String) : Faults (d.require key) := by
  unfold require
  split
  · split
    · exact .pure _
    · exact .throw .missingKey
  · exact .throw .wrongKind

theorem Data.faults_entries : Faults d.entries := by
  unfold entries
  split
  · exact .pure _
  · exact .throw .noMember

theorem Data.faults_asKey : Faults d.asKey := by
  unfold asKey
  split
  · exact .pure _
  · exact .throw .wrongKind

theorem Data.faults_elements : Faults d.elements := by
  unfold elements
  split
  all_goals first
    | exact .pure _
    | exact .throw .wrongKind

theorem Data.faults_has (s : Scalar) : Faults (d.has (.scalar s)) := by
  unfold has
  split
  · exact .pure _
  · exact .pure _
  · exact .bind (.pure _) fun _ _ => .pure _
  · split
    · exact .pure _
    · exact .throw .wrongKind
  · exact .throw .wrongKind

theorem Reference.faults_path (ref : String) : Faults (path ref) := by
  unfold path
  split
  · exact .pure _
  · exact .throw (.unsupported ref)

theorem Reference.faults_name (ref : String) : Faults (name ref) := by
  unfold name
  dsimp only
  split
  · split
    · exact .bind (faults_path ref) fun _ _ => .pure _
    · exact .pure _
  · exact .pure _

theorem Pointer.faults_child? (segment : String) : Faults (child? d segment) := by
  unfold child?
  split
  · exact .pure _
  · refine .bind ?_ fun _ _ => .pure _
    unfold index?
    dsimp only
    split
    · exact .pure _
    · split
      · exact .pure _
      · exact .throw .badValue
  · exact .pure _

theorem Pointer.faults_walk? (segments : List String) : Faults (walk? d segments) := by
  induction segments generalizing d with
  | nil => exact .pure _
  | cons segment segments ih =>
    refine .bind (faults_child? d segment) fun child _ => ?_
    cases child with
    | none => exact .pure _
    | some next => exact ih next

theorem Reference.faults_lookup (ref : String) : Faults (lookup d ref) := by
  refine .bind (faults_path ref) fun names _ => .bind (Pointer.faults_walk? d names) fun found _ => ?_
  cases found with
  | none => exact .throw (.unresolved ref)
  | some node => exact .pure _

end

namespace Schema

theorem faults_remark (schema : Data) : Faults (remark schema) := by
  refine .bind (schema.faults_get _) fun title _ => ?_
  split
  · exact .pure _
  · exact schema.faults_get _

theorem faults_memberOf (value : Data) : Faults (memberOf value) :=
  .bind value.faults_asKey fun _ _ => .bind (.guarded _ _) fun _ _ => .pure _

theorem faults_enumeration? (schema : Data) : Faults (enumeration? schema) := by
  refine .bind (schema.faults_get _) fun values _ => ?_
  split
  · exact .pure _
  · refine .bind values.faults_elements fun values _ => ?_
    split
    · exact .bind (.mapM fun value _ => faults_memberOf value) fun _ _ => .pure _
    · exact .pure _

namespace Plan

theorem faults_fieldShape (required : Data) (property : Scalar × Data) : Faults (fieldShape required property) :=
  .bind (required.faults_has _) fun _ _ => .bind (faults_remark _) fun _ _ => .bind (Data.faults_get _ _) fun _ _ => .pure _

theorem faults_record (properties required additional : Data) : Faults (record properties required additional) :=
  .bind properties.faults_entries fun _ _ => .bind (.mapM fun e _ => faults_fieldShape _ e) fun _ _ => .pure _

theorem faults_members (schema : Data) (key : String) (build : List TypeNode → TypeNode) :
    Faults (members schema key build) :=
  .bind (schema.faults_require key) fun value _ => .bind value.faults_elements fun _ _ => .pure _

theorem faults_named (schema : Data) : Faults (named schema) := by
  refine .bind (schema.faults_get _) fun type _ => ?_
  unfold typed
  split
  case h_6 => exact faults_record _ _ _
  all_goals exact .pure _

theorem faults_base (schema : Data) : Faults (base schema) := by
  unfold base
  split
  · exact .pure _
  refine .bind (schema.faults_has _) fun isOneOf _ => ?_
  split
  · exact faults_members _ _ _
  refine .bind (schema.faults_has _) fun isAnyOf _ => ?_
  split
  · exact faults_members _ _ _
  refine .bind (schema.faults_has _) fun isAllOf _ => ?_
  split
  · exact faults_members _ _ _
  refine .bind (schema.faults_has _) fun isEnum _ => ?_
  split
  · exact .bind (schema.faults_require _) fun value _ => .bind value.faults_elements fun _ _ => .pure _
  · exact faults_named schema

theorem faults_of (schema : Data) : Faults (of schema) := .bind (faults_base schema) fun _ _ => .pure _

end Plan

theorem Stops.faulty {document schema : Data} {failure : Failure} (h : Stops document schema failure) : Faulty failure := by
  cases h with
  | plan _ hplan => exact Plan.faults_of schema failure hplan
  | pointer _ htext =>
    unfold pointerText at htext
    split at htext
    · cases htext
    · exact Faults.throw .noMember failure htext
    · exact Faults.throw .wrongKind failure htext
  | target _ hlookup => exact Reference.faults_lookup document _ failure hlookup
  | name _ hname => exact Reference.faults_name _ failure hname
  | enumeration henum => exact faults_enumeration? schema failure henum

/-! ## The measure -/

/-- How many of the pointers are not registered yet. -/
def State.unmet (texts : List String) (s : State) : Nat := (texts.filter fun p => s.refs.lookup p = none).length

section
variable {document schema : Data} {texts : List String} {s : State} {n depth depth' : Nat} {pointer name : String}

theorem unmet_entered (hmem : pointer ∈ texts) (hnew : s.refs.lookup pointer = none) :
    (s.entered pointer name).unmet texts < s.unmet texts := by
  apply length_filter_lt ?_ hmem
  · simpa using hnew
  · simp [State.entered, List.lookup_append, hnew]
  · intro p hp
    have hp : (s.refs ++ [(pointer, name)]).lookup p = none := of_decide_eq_true hp
    rw [List.lookup_append, Option.or_eq_none_iff] at hp
    exact decide_eq_true hp.1

theorem unmet_le (texts : List String) (s : State) : s.unmet texts ≤ texts.length := List.length_filter_le _ _

/-- Depths that suffice for what is not registered yet. -/
def Deep (document schema : Data) (n depth : Nat) : Prop := n * (document.size + 1) + schema.size ≤ depth

/-- Not more than so many pointers are left, and what stops a synthesis is the document. -/
abbrev Spares (texts : List String) (n : Nat) (f g : Data → M TypeNode) (schema : Data) : Prop :=
  Keep (fun s => s.unmet texts ≤ n) (fun failure _ => Faulty failure) f g schema

section
variable (hdocument : document.pointers ⊆ texts)
include hdocument

theorem spares_baseWith (ih : ∀ schema n, schema.pointers ⊆ texts → Deep document schema n depth →
      Deep document schema n depth' → Spares texts n (typeOfAt document depth) (typeOfAt document depth') schema)
    (hschema : schema.pointers ⊆ texts) (hdepth : Deep document schema n (depth + 1))
    (hdepth' : Deep document schema n (depth' + 1)) :
    Spares texts n (baseWith document (typeOfAt document depth)) (baseWith document (typeOfAt document depth')) schema := by
  have hsize := schema.one_le_size
  unfold Deep at *
  apply keep_baseWith
  · exact fun failure u hstops _ => hstops.faulty
  · intro part hasks
    obtain ⟨hless, hpart⟩ := hasks.within
    exact ih part n (List.Subset.trans hpart.pointers hschema) (by omega) (by omega)
  · intro s pointer d base hs hfind hnew hlookup _ name
    have hless : (s.entered pointer name).unmet texts < s.unmet texts :=
      unmet_entered (hschema (Data.mem_pointers_of_find? hfind)) hnew
    obtain ⟨fewer, rfl⟩ : ∃ fewer, n = fewer + 1 := ⟨n - 1, by omega⟩
    have hspare : (fewer + 1) * (document.size + 1) = fewer * (document.size + 1) + (document.size + 1) :=
      Nat.succ_mul _ _
    have htarget := (within_targetOf d).trans (Data.within_lookup hlookup)
    have htargetSize := htarget.size
    have hentered : (s.entered pointer name).unmet texts ≤ fewer := by omega
    constructor
    case refused => exact faults_enumeration? _
    case enumeration => exact fun _ _ _ => Nat.le_succ_of_le hentered
    case synonym =>
      intro _
      have hinner := ih (targetOf d) fewer (List.Subset.trans htarget.pointers hdocument) (by omega) (by omega) _ hentered
      exact hinner.mono (fun _ _ ht _ => Nat.le_succ_of_le ht) fun _ _ h => h

/-- Induction on the depth: a part is smaller, and a target leaves one pointer less. -/
theorem spares_typeOfAt (hschema : schema.pointers ⊆ texts) (hdepth : Deep document schema n depth)
    (hdepth' : Deep document schema n depth') :
    Spares texts n (typeOfAt document depth) (typeOfAt document depth') schema := by
  have hsize := schema.one_le_size
  induction depth generalizing depth' schema n with
  | zero =>
    unfold Deep at hdepth
    omega
  | succ depth ih =>
    cases depth' with
    | zero =>
      unfold Deep at hdepth'
      omega
    | succ depth' =>
      apply keep_typeOfAt
      apply spares_baseWith hdocument ?_ hschema hdepth hdepth'
      exact fun part n hpart hdeep hdeep' => ih hpart hdeep hdeep' part.one_le_size

end

/-! ## Syntheses end -/

/-- The same is done, and what stops it is the document. -/
def EndsAs {α : Type} (m m' : M α) (s : State) : Prop :=
  Id.run (m.run s) = Id.run (m'.run s) ∧ ∀ failure t, Id.run (m.run s) = (.error failure, t) → Faulty failure

theorem endsAs_of_alike {α : Type} {P : State → Prop} {m m' : M α}
    (h : Alike (fun _ t => P t) (fun failure _ => Faulty failure) m m' s) : EndsAs m m' s :=
  ⟨h.1, fun _ _ hrun => h.of_fails hrun⟩

/-- A depth that a synthesis does not go beyond. -/
def State.reach (document schema : Data) (s : State) : Nat :=
  s.unmet (document.pointers ++ schema.pointers) * (document.size + 1) + schema.size

theorem reach_le_depthFor (s : State) : s.reach document schema ≤ depthFor document schema := by
  have hunmet : s.unmet (document.pointers ++ schema.pointers) ≤ document.size + schema.size := by
    have hlen := unmet_le (document.pointers ++ schema.pointers) s
    have hdocument := document.length_pointers_le
    have hschema := schema.length_pointers_le
    rw [List.length_append] at hlen
    omega
  have hpow : depthFor document schema = (document.size + schema.size + 2) * (document.size + schema.size + 2) :=
    Nat.pow_two _
  rw [hpow]
  calc s.reach document schema
    _ ≤ (document.size + schema.size) * (document.size + schema.size + 2) + (document.size + schema.size + 2) := by
        apply Nat.add_le_add
        · exact Nat.mul_le_mul hunmet (by omega)
        · omega
    _ ≤ (document.size + schema.size + 2) * (document.size + schema.size + 2) := by
        rw [← Nat.succ_mul]
        exact Nat.mul_le_mul_right _ (by omega)

theorem spares_reach {part : Data} (hpart : part.Within schema) (hdepth : s.reach document schema ≤ depth)
    (hdepth' : s.reach document schema ≤ depth') :
    Spares (document.pointers ++ schema.pointers) (s.unmet (document.pointers ++ schema.pointers))
      (typeOfAt document depth) (typeOfAt document depth') part := by
  have hsize := hpart.size
  unfold State.reach at hdepth hdepth'
  apply spares_typeOfAt (List.subset_append_left _ _)
  · exact List.Subset.trans hpart.pointers (List.subset_append_right _ _)
  · unfold Deep
    omega
  · unfold Deep
    omega

theorem typeOfAt_ends (hdepth : s.reach document schema ≤ depth) :
    EndsAs (typeOfAt document depth schema) (typeOf document schema) s :=
  endsAs_of_alike (spares_reach (.refl schema) hdepth (reach_le_depthFor s) s (Nat.le_refl _))

theorem baseWith_ends (hdepth : s.reach document schema ≤ depth) :
    EndsAs (baseWith document (typeOfAt document depth) schema) (baseTypeOf document schema) s := by
  have hfor : s.reach document schema ≤ depthFor document schema := reach_le_depthFor s
  unfold State.reach at hdepth hfor
  apply endsAs_of_alike (P := fun t => t.unmet (document.pointers ++ schema.pointers) ≤
    s.unmet (document.pointers ++ schema.pointers))
  apply spares_baseWith (List.subset_append_left _ _) ?_ (List.subset_append_right _ _)
  · unfold Deep
    omega
  · unfold Deep
    omega
  · exact Nat.le_refl _
  · exact fun part n hpart => spares_typeOfAt (List.subset_append_left _ _) hpart

theorem recordWith_ends {properties required additional : Data}
    (hdepth : s.reach document (.list [properties, additional]) ≤ depth) :
    EndsAs (recordWith (typeOfAt document depth) properties required additional)
      (recordOf document properties required additional) s := by
  have hparts : ∀ part, part.Within (.list [properties, additional]) →
      Spares _ _ (typeOfAt document depth) (typeOfAt document (depthFor document (.list [properties, additional]))) part :=
    fun part hpart => spares_reach hpart hdepth (reach_le_depthFor s)
  apply endsAs_of_alike
  apply tracks_record
  · intro entries heq e he
    apply hparts e.2
    subst heq
    exact (Data.within_entry he).2.trans (Data.within_item (by simp)).2
  · exact fun _ => hparts additional (Data.within_item (by simp)).2
  · exact fun failure _ hplan _ => Plan.faults_record _ _ _ failure hplan
  · exact Nat.le_refl _

end
end Schema
end ClientBindings

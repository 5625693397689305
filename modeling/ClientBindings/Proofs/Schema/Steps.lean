import ClientBindings.Proofs.Reference
import ClientBindings.Proofs.Schema.Plan

/-! What a synthesis does, step by step. A schema that is no reference is synthesized part by part along
its plan; a reference is served from the pointers that are known or enters its target. Only the latter
changes the state. -/

namespace ClientBindings.Schema

/-! ## What a pointer stands for -/

/-- What a document says about the alias of a pointer. -/
structure Entry where
  /-- The name that the alias should have. -/
  base : String
  target : Data
  comment : Data
  /-- The members, if the target is an enumeration. -/
  members : Option (List EnumMember)

def entryOf (document : Data) (pointer : String) : Result Entry := do
  let target ← Reference.lookup document pointer
  let base ← Reference.name pointer
  let target := if target.isMap then target else .map []
  return ⟨Text.onChars Unicode.upperFirst base, target, ← remark target, ← enumeration? target⟩

namespace State

/-- The state once a pointer is named and registered. -/
def entered (s : State) (pointer name : String) : State :=
  { s with names := name :: s.names, refs := s.refs ++ [(pointer, name)] }

/-- The state once an alias is emitted. -/
def emitted (s : State) (a : Alias) : State := { s with aliases := s.aliases ++ [a] }

end State

/-! ## Runs of a synthesis -/

section
variable {typeOf : Data → M TypeNode} {s t : State} {type : TypeNode}

/-- A run of `m` is a run along the plan. -/
def Follows (typeOf : Data → M TypeNode) (m : M TypeNode) (plan : Result Plan) : Prop :=
  ∀ s type t, Runs m s type t ↔
    ∃ p, plan = .ok p ∧ ∃ ts, Runs (p.parts.mapM typeOf) s ts t ∧ type = p.build ts

theorem follows_leaf (type : TypeNode) : Follows typeOf (pure type) (.ok (Plan.leaf type)) := by
  intro s u t
  simp [Plan.leaf, and_comm]

theorem runs_fieldWith_iff {required : Data} {property : Scalar × Data} {f : Field} :
    Runs (fieldWith typeOf required property) s f t ↔
      ∃ shape, Plan.fieldShape required property = .ok shape ∧
        ∃ type, Runs (typeOf property.2) s type t ∧ f = shape type := by
  obtain ⟨name, schema⟩ := property
  simp only [fieldWith, Plan.fieldShape, Runs.bind_iff, Runs.lift_iff, Runs.pure_iff,
    Result.bind_eq_ok_iff, Result.pure_eq_ok_iff]
  constructor
  · rintro ⟨type, u, htype, isRequired, _, ⟨hreq, rfl⟩, comment, _, ⟨hcomment, rfl⟩, deprecated, _,
      ⟨hdep, rfl⟩, rfl, rfl⟩
    exact ⟨_, ⟨isRequired, hreq, comment, hcomment, deprecated, hdep, rfl⟩, type, htype, rfl⟩
  · rintro ⟨_, ⟨isRequired, hreq, comment, hcomment, deprecated, hdep, rfl⟩, type, htype, rfl⟩
    exact ⟨type, t, htype, isRequired, t, ⟨hreq, rfl⟩, comment, t, ⟨hcomment, rfl⟩, deprecated, t,
      ⟨hdep, rfl⟩, rfl, rfl⟩

theorem runs_fields_iff {required : Data} {entries : Data.Fields} {fs : List Field} :
    Runs (entries.mapM (fieldWith typeOf required)) s fs t ↔
      ∃ shapes, entries.mapM (Plan.fieldShape required) = .ok shapes ∧
        ∃ ts, Runs ((entries.map Prod.snd).mapM typeOf) s ts t ∧
          fs = List.zipWith (fun shape t => shape t) shapes ts := by
  induction entries generalizing s fs with
  | nil => simp [and_comm]
  | cons e es ih =>
    simp only [List.map_cons, Runs.mapM_cons_iff, Result.mapM_cons_eq_ok_iff, runs_fieldWith_iff, ih]
    constructor
    · rintro ⟨f, u, gs, ⟨shape, hshape, type, htype, rfl⟩, ⟨shapes, hshapes, ts, hts, rfl⟩, rfl⟩
      exact ⟨_, ⟨shape, shapes, hshape, hshapes, rfl⟩, _, ⟨type, u, ts, htype, hts, rfl⟩, rfl⟩
    · rintro ⟨_, ⟨shape, shapes, hshape, hshapes, rfl⟩, _, ⟨type, u, ts, htype, hts, rfl⟩, rfl⟩
      exact ⟨_, u, _, ⟨shape, hshape, type, htype, rfl⟩, ⟨shapes, hshapes, ts, hts, rfl⟩, rfl⟩

theorem runs_further_iff {additional : Data} {fs : List Field} :
    Runs (if !counts additional then pure (.object fs none)
      else if isTrue additional then pure (.object fs (some .any))
      else do
        let further ← typeOf additional
        pure (.object fs (some further))) s type t ↔
      ∃ ts, Runs ((Plan.furtherParts additional).mapM typeOf) s ts t ∧
        type = .object fs (Plan.furtherType additional ts) := by
  unfold Plan.furtherParts Plan.furtherType
  split
  · simp [and_comm]
  split
  · simp [and_comm]
  simp only [Runs.bind_iff, Runs.pure_iff, Runs.mapM_cons_iff, Runs.mapM_nil_iff]
  constructor
  · rintro ⟨further, u, hfurther, rfl, rfl⟩
    exact ⟨[further], ⟨further, t, [], hfurther, ⟨rfl, rfl⟩, rfl⟩, rfl⟩
  · rintro ⟨_, ⟨further, u, _, hfurther, ⟨rfl, rfl⟩, rfl⟩, rfl⟩
    exact ⟨further, t, hfurther, rfl, rfl⟩

theorem follows_record (properties required additional : Data) :
    Follows typeOf (recordWith typeOf properties required additional)
      (Plan.record properties required additional) := by
  intro s type t
  simp only [recordWith, Plan.record, Runs.bind_iff, Runs.lift_iff, runs_fields_iff, runs_further_iff,
    Result.bind_eq_ok_iff, Result.pure_eq_ok_iff]
  have hbuild : ∀ (shapes : List (TypeNode → Field)) (ts more : List TypeNode),
      shapes.length = ts.length → Plan.recordType shapes additional (ts ++ more) =
        .object (List.zipWith (fun shape t => shape t) shapes ts) (Plan.furtherType additional more) := by
    intro shapes ts more hlen
    have hzip := @List.zipWith_append _ _ _ (fun (shape : TypeNode → Field) t => shape t) shapes [] ts more
      hlen
    simp only [List.append_nil, List.zipWith_nil_left] at hzip
    simp [Plan.recordType, hzip, hlen]
  constructor
  · rintro ⟨entries, _, ⟨hentries, rfl⟩, fs, u, ⟨shapes, hshapes, ts, hts, rfl⟩, more, hmore, rfl⟩
    have hlen : shapes.length = ts.length := by
      rw [Result.mapM_length hshapes, Runs.mapM_length hts, List.length_map]
    refine ⟨_, ⟨entries, hentries, shapes, hshapes, rfl⟩, ts ++ more, ?_, (hbuild _ _ _ hlen).symm⟩
    exact Runs.mapM_append_iff.mpr ⟨ts, u, more, hts, hmore, rfl⟩
  · rintro ⟨_, ⟨entries, hentries, shapes, hshapes, rfl⟩, all, hall, rfl⟩
    obtain ⟨ts, u, more, hts, hmore, rfl⟩ := Runs.mapM_append_iff.mp hall
    have hlen : shapes.length = ts.length := by
      rw [Result.mapM_length hshapes, Runs.mapM_length hts, List.length_map]
    exact ⟨entries, s, ⟨hentries, rfl⟩, _, u, ⟨shapes, hshapes, ts, hts, rfl⟩, more, hmore,
      hbuild _ _ _ hlen⟩

theorem follows_members (schema : Data) (key : String) (build : List TypeNode → TypeNode) :
    Follows typeOf (do return build (← membersWith typeOf schema key)) (Plan.members schema key build) := by
  intro s type t
  simp only [membersWith, Plan.members, Runs.bind_iff, Runs.lift_iff, Runs.pure_iff,
    Result.bind_eq_ok_iff, Result.pure_eq_ok_iff]
  constructor
  · rintro ⟨ts, _, ⟨parts, _, ⟨⟨d, hd, hparts⟩, rfl⟩, hts⟩, rfl, rfl⟩
    exact ⟨_, ⟨d, hd, parts, hparts, rfl⟩, ts, hts, rfl⟩
  · rintro ⟨_, ⟨d, hd, parts, hparts, rfl⟩, ts, hts, rfl⟩
    exact ⟨ts, t, ⟨parts, s, ⟨⟨d, hd, hparts⟩, rfl⟩, hts⟩, rfl, rfl⟩

/-- A choice that the schema decides alone. -/
theorem follows_bind {γ : Type} {r : Result γ} {m : γ → M TypeNode} {plan : γ → Result Plan}
    (h : ∀ c, Follows typeOf (m c) (plan c)) :
    Follows typeOf (do m (← (r : Result γ))) (do plan (← r)) := by
  intro s type t
  simp only [Runs.bind_iff, Runs.lift_iff, Result.bind_eq_ok_iff]
  constructor
  · rintro ⟨c, _, ⟨hc, rfl⟩, hm⟩
    obtain ⟨p, hp, hts⟩ := (h c _ type t).mp hm
    exact ⟨p, ⟨c, hc, hp⟩, hts⟩
  · rintro ⟨p, ⟨c, hc, hp⟩, hts⟩
    exact ⟨c, s, ⟨hc, rfl⟩, (h c s type t).mpr ⟨p, hp, hts⟩⟩

theorem follows_ite {c : Bool} {m m' : M TypeNode} {plan plan' : Result Plan}
    (h : Follows typeOf m plan) (h' : Follows typeOf m' plan') :
    Follows typeOf (if c then m else m') (if c then plan else plan') := by
  cases c
  · exact h'
  · exact h

theorem follows_array (items : Option Data) :
    Follows typeOf (match items with
      | some items => do return .array (← typeOf items)
      | none => return .array .any) (.ok (Plan.array items)) := by
  cases items with
  | none => exact follows_leaf _
  | some items =>
    intro s type t
    simp only [Plan.array, Runs.bind_iff, Runs.pure_iff, Except.ok.injEq, exists_eq_left',
      Runs.mapM_cons_iff, Runs.mapM_nil_iff]
    constructor
    · rintro ⟨item, u, hitem, rfl, rfl⟩
      exact ⟨[item], ⟨item, t, [], hitem, ⟨rfl, rfl⟩, rfl⟩, rfl⟩
    · rintro ⟨_, ⟨item, u, _, hitem, ⟨rfl, rfl⟩, rfl⟩, rfl⟩
      exact ⟨item, t, hitem, rfl, rfl⟩

theorem follows_text (format : Option Data) :
    Follows typeOf (match format with
      | some (.str "binary") => pure .binary
      | _ => pure .string) (.ok (Plan.text format)) := by
  by_cases h : format = some (.str "binary")
  · subst h
    exact follows_leaf _
  · have htext : Plan.text format = Plan.leaf .string := by
      unfold Plan.text
      split
      · contradiction
      · rfl
    rw [htext]
    split
    · contradiction
    · exact follows_leaf _

theorem follows_named (schema : Data) : Follows typeOf (namedWith typeOf schema) (Plan.named schema) := by
  apply follows_bind
  intro type
  split
  · exact follows_array _
  · exact follows_leaf _
  · exact follows_leaf _
  · exact follows_leaf _
  · exact follows_text _
  · exact follows_record _ _ _
  · have hany : Plan.typed schema type = .ok (Plan.leaf .any) := by
      unfold Plan.typed
      split
      case h_7 => rfl
      all_goals contradiction
    rw [hany]
    exact follows_leaf _

theorem follows_base {document schema : Data} (h : schema.isReference = false) :
    Follows typeOf (baseWith document typeOf schema) (Plan.base schema) := by
  unfold baseWith Plan.base
  rw [h]
  apply follows_ite (follows_leaf _)
  apply follows_bind
  intro isOneOf
  apply follows_ite (follows_members _ _ _)
  apply follows_bind
  intro isAnyOf
  apply follows_ite (follows_members _ _ _)
  apply follows_bind
  intro isAllOf
  apply follows_ite (follows_members _ _ _)
  apply follows_bind
  intro isEnum
  refine follows_ite ?_ (follows_named _)
  intro s type t
  simp only [Runs.bind_iff, Runs.lift_iff, Runs.pure_iff, Result.bind_eq_ok_iff, Result.pure_eq_ok_iff,
    Plan.leaf]
  constructor
  · rintro ⟨values, _, ⟨⟨d, hd, hvalues⟩, rfl⟩, rfl, rfl⟩
    exact ⟨_, ⟨d, hd, values, hvalues, rfl⟩, [], by simp, rfl⟩
  · rintro ⟨_, ⟨d, hd, values, hvalues, rfl⟩, ts, hts, rfl⟩
    obtain ⟨rfl, rfl⟩ := Runs.mapM_nil_iff.mp hts
    exact ⟨values, _, ⟨⟨d, hd, hvalues⟩, rfl⟩, rfl, rfl⟩

/-- How a reference to a pointer is served: by the name that is known, or by a new alias. -/
inductive RefStep (document : Data) (typeOf : Data → M TypeNode) (pointer : String) :
    State → String → State → Prop where
  | known {s : State} {name : String} : s.refs.lookup pointer = some name →
      RefStep document typeOf pointer s name s
  | enumeration {s : State} {e : Entry} {members : List EnumMember} : s.refs.lookup pointer = none →
      entryOf document pointer = .ok e → e.members = some members →
      RefStep document typeOf pointer s (freshName s.names e.base)
        ((s.entered pointer (freshName s.names e.base)).emitted
          (.enumeration (freshName s.names e.base) (some pointer) members e.comment))
  | synonym {s t : State} {e : Entry} {type : TypeNode} : s.refs.lookup pointer = none →
      entryOf document pointer = .ok e → e.members = none →
      Runs (typeOf e.target) (s.entered pointer (freshName s.names e.base)) type t →
      RefStep document typeOf pointer s (freshName s.names e.base)
        (t.emitted (.synonym (freshName s.names e.base) (some pointer) type e.comment))

theorem runs_enter_iff {document ref : Data} {pointer name : String} {target : Data}
    (h : ref.find? "$ref" = some (.str pointer)) :
    Runs (enter document ref pointer) s (name, target) t ↔
      ∃ d base, Reference.lookup document pointer = .ok d ∧ Reference.name pointer = .ok base ∧
        name = freshName s.names (Text.onChars Unicode.upperFirst base) ∧
        target = (if d.isMap then d else .map []) ∧ t = s.entered pointer name := by
  simp only [enter, claimName, register, Reference.resolve_of_find? h, Runs.bind_iff, Runs.lift_iff, Runs.get_iff,
    Runs.set_iff, Runs.modify_iff, Runs.pure_iff, Prod.mk.injEq]
  constructor
  · rintro ⟨d, _, ⟨hd, rfl⟩, base, _, ⟨hbase, rfl⟩, _, _, ⟨_, _, ⟨rfl, rfl⟩, _, _, rfl, rfl, rfl⟩, _, _, rfl,
      ⟨rfl, rfl⟩, rfl⟩
    exact ⟨d, base, hd, hbase, rfl, rfl, rfl⟩
  · rintro ⟨d, base, hd, hbase, rfl, rfl, rfl⟩
    exact ⟨d, s, ⟨hd, rfl⟩, base, s, ⟨hbase, rfl⟩, _, _, ⟨s, s, ⟨rfl, rfl⟩, ⟨⟩, _, rfl, rfl, rfl⟩, ⟨⟩, _, rfl,
      ⟨rfl, rfl⟩, rfl⟩

theorem entryOf_eq_ok_iff {document : Data} {pointer : String} {e : Entry} :
    entryOf document pointer = .ok e ↔
      ∃ d base, Reference.lookup document pointer = .ok d ∧ Reference.name pointer = .ok base ∧
        e.base = Text.onChars Unicode.upperFirst base ∧ e.target = (if d.isMap then d else .map []) ∧
        remark e.target = .ok e.comment ∧ enumeration? e.target = .ok e.members := by
  simp only [entryOf, Result.bind_eq_ok_iff, Result.pure_eq_ok_iff]
  constructor
  · rintro ⟨d, hd, base, hbase, comment, hcomment, members, hmembers, rfl⟩
    exact ⟨d, base, hd, hbase, rfl, rfl, hcomment, hmembers⟩
  · obtain ⟨b, target, comment, members⟩ := e
    rintro ⟨d, base, hd, hbase, rfl, rfl, hcomment, hmembers⟩
    exact ⟨d, hd, base, hbase, comment, hcomment, members, hmembers, rfl⟩

theorem runs_refWith_iff {document ref : Data} :
    Runs (refWith document typeOf ref) s type t ↔
      ∃ pointer name, ref.find? "$ref" = some (.str pointer) ∧ type = .reference name (some pointer) ∧
        RefStep document typeOf pointer s name t := by
  constructor
  · intro h
    unfold refWith at h
    split at h
    · rename_i pointer hfind
      simp only [Runs.bind_iff, Runs.get_iff] at h
      obtain ⟨_, _, ⟨rfl, rfl⟩, h⟩ := h
      split at h
      · rename_i name hname
        obtain ⟨rfl, rfl⟩ := Runs.pure_iff.mp h
        exact ⟨pointer, name, hfind, rfl, .known hname⟩
      · rename_i hnone
        simp only [Runs.bind_iff, Runs.lift_iff] at h
        obtain ⟨⟨name, target⟩, _, henter, comment, _, ⟨hcomment, rfl⟩, members, _, ⟨hmembers, rfl⟩, h⟩ := h
        obtain ⟨d, base, hd, hbase, rfl, rfl, rfl⟩ := (runs_enter_iff hfind).mp henter
        have hentry := entryOf_eq_ok_iff (e := ⟨_, _, comment, members⟩).mpr
          ⟨d, base, hd, hbase, rfl, rfl, hcomment, hmembers⟩
        cases members with
        | some members =>
          simp only [emit, Runs.bind_iff, Runs.modify_iff, Runs.pure_iff] at h
          obtain ⟨_, _, rfl, rfl, rfl⟩ := h
          exact ⟨pointer, _, hfind, rfl, .enumeration hnone hentry rfl⟩
        | none =>
          simp only [emit, Runs.bind_iff, Runs.modify_iff, Runs.pure_iff] at h
          obtain ⟨inner, u, hinner, _, _, rfl, rfl, rfl⟩ := h
          exact ⟨pointer, _, hfind, rfl, .synonym hnone hentry rfl hinner⟩
    · exact absurd h Runs.throw_iff
    · exact absurd h Runs.throw_iff
  · rintro ⟨pointer, name, hfind, rfl, hstep⟩
    unfold refWith
    rw [hfind]
    simp only [Runs.bind_iff, Runs.get_iff]
    refine ⟨s, s, ⟨rfl, rfl⟩, ?_⟩
    cases hstep with
    | known hname => simp [hname]
    | @enumeration e members hnone hentry hmembers =>
      obtain ⟨d, base, hd, hbase, heq, htarget, hcomment, henum⟩ := entryOf_eq_ok_iff.mp hentry
      simp only [hnone, Runs.bind_iff, Runs.lift_iff]
      refine ⟨(_, _), _, (runs_enter_iff hfind).mpr ⟨d, base, hd, hbase, rfl, rfl, rfl⟩, e.comment, _,
        ⟨htarget ▸ hcomment, rfl⟩, some members, _, ⟨htarget ▸ hmembers ▸ henum, rfl⟩, ?_⟩
      simp [emit, State.emitted, ← heq]
    | @synonym u e inner hnone hentry hmembers hinner =>
      obtain ⟨d, base, hd, hbase, heq, htarget, hcomment, henum⟩ := entryOf_eq_ok_iff.mp hentry
      simp only [hnone, Runs.bind_iff, Runs.lift_iff]
      refine ⟨(_, _), _, (runs_enter_iff hfind).mpr ⟨d, base, hd, hbase, rfl, rfl, rfl⟩, e.comment, _,
        ⟨htarget ▸ hcomment, rfl⟩, none, _, ⟨htarget ▸ hmembers ▸ henum, rfl⟩, ?_⟩
      simp only [emit, Runs.bind_iff, Runs.modify_iff, Runs.pure_iff]
      refine ⟨inner, u, ?_, ⟨⟩, _, rfl, ?_, ?_⟩
      · rw [← heq, ← htarget]
        exact hinner
      · rw [heq]
      · rw [← heq]
        rfl

theorem baseWith_of_isReference {document schema : Data} (href : schema.isReference = true) :
    baseWith document typeOf schema = refWith document typeOf schema := by
  cases schema <;> simp_all [baseWith, Data.isReference, Data.isNull]

/-- One level of a synthesis: a reference is served, anything else follows its plan. -/
theorem runs_typeOfAt_succ_iff {document schema : Data} {depth : Nat} :
    Runs (typeOfAt document (depth + 1) schema) s type t ↔
      (schema.isReference = true ∧ ∃ pointer name, schema.find? "$ref" = some (.str pointer) ∧
        type = .reference name (some pointer) ∧
        RefStep document (typeOfAt document depth) pointer s name t) ∨
      (schema.isReference = false ∧ ∃ plan, Plan.of schema = .ok plan ∧
        ∃ ts, Runs (plan.parts.mapM (typeOfAt document depth)) s ts t ∧ type = plan.build ts) := by
  simp only [typeOfAt, Runs.bind_iff, Runs.pure_iff]
  cases href : schema.isReference with
  | true =>
    simp only [baseWith_of_isReference href, runs_refWith_iff, withNull, href, Bool.not_true, Bool.false_and, Bool.false_eq_true, Bool.true_eq_false,
      if_false, false_and, or_false, true_and]
    constructor
    · rintro ⟨_, _, ⟨pointer, name, hfind, rfl, hstep⟩, rfl, rfl⟩
      exact ⟨pointer, name, hfind, rfl, hstep⟩
    · rintro ⟨pointer, name, hfind, rfl, hstep⟩
      exact ⟨_, t, ⟨pointer, name, hfind, rfl, hstep⟩, rfl, rfl⟩
  | false =>
    simp only [Plan.of, Bool.false_eq_true, false_and, false_or, true_and, Result.bind_eq_ok_iff,
      Result.pure_eq_ok_iff]
    constructor
    · rintro ⟨inner, _, hinner, rfl, rfl⟩
      obtain ⟨plan, hplan, ts, hts, rfl⟩ := (follows_base href s inner t).mp hinner
      exact ⟨_, ⟨plan, hplan, rfl⟩, ts, hts, rfl⟩
    · rintro ⟨_, ⟨plan, hplan, rfl⟩, ts, hts, rfl⟩
      exact ⟨_, t, (follows_base href s _ t).mpr ⟨plan, hplan, ts, hts, rfl⟩, rfl, rfl⟩

end
end ClientBindings.Schema

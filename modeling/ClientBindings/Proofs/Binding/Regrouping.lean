import ClientBindings.Proofs.Binding.Selection

/-! Grouping parameters again. All types that the groups need are known after the first time, and so are the
places that belong to no group. So another grouping, at any later time, makes the same members, reports
nothing and leaves the compilation as it is. -/

namespace ClientBindings

/-- A later state of a compilation, which knows all that was registered before. -/
def Compilation.Knows (s t : Compilation) : Prop := s.schema.refs <+: t.schema.refs

theorem Data.str_same_iff {d : Data} {text : String} : (Data.str text).same d = true ↔ d = .str text := by
  cases d with
  | scalar value => simp [Data.same, Data.str]
  | _ => simp [Data.same, Data.str]

theorem Grouping.reported_put {g : Grouping} {group : Group} : (g.put group).reported = g.reported := by
  unfold put
  split <;> rfl

namespace Parameters
variable {document : Data} {naming : Naming} {location : String} {s t u : Compilation}

/-! ## Members -/

/-- The schema that types a parameter. -/
def schemaOf (p : Data) : Result Data := do
  let content ← p.get "content"
  if content.truthy then Schema.ofContent content else p.get "schema"

theorem runs_typeOf_iff {p : Data} {type : TypeNode} : Runs (typeOf document p) s type t ↔
    ∃ schema, schemaOf p = .ok schema ∧
      ∃ after, Runs (Schema.typeOf document schema) s.schema type after ∧ t = { s with schema := after } := by
  simp only [typeOf, schemaOf, Runs.bind_iff, Runs.lift_iff, Result.bind_eq_ok_iff]
  constructor
  · rintro ⟨content, _, ⟨hcontent, rfl⟩, h⟩
    by_cases htruthy : content.truthy = true
    all_goals
      simp only [htruthy, if_true, if_false, Bool.false_eq_true, Runs.bind_iff, Runs.lift_iff,
        Compilation.runs_synthesize_iff] at h
      obtain ⟨schema, _, ⟨hschema, rfl⟩, h⟩ := h
      refine ⟨schema, ⟨content, hcontent, ?_⟩, h⟩
      simpa [htruthy] using hschema
  · rintro ⟨schema, ⟨content, hcontent, hschema⟩, h⟩
    refine ⟨content, s, ⟨hcontent, rfl⟩, ?_⟩
    by_cases htruthy : content.truthy = true
    all_goals
      simp only [htruthy, if_true, if_false, Bool.false_eq_true, Runs.bind_iff, Runs.lift_iff,
        Compilation.runs_synthesize_iff] at hschema ⊢
      exact ⟨schema, s, ⟨hschema, rfl⟩, h⟩

/-- A type is synthesized again to no effect where all that it has registered is known. -/
theorem typeOf_repeats {p : Data} {type : TypeNode} (h : Runs (typeOf document p) s type t) :
    s.Knows t ∧ ∀ u, t.Knows u → Runs (typeOf document p) u type u := by
  obtain ⟨schema, hschema, after, hrun, rfl⟩ := runs_typeOf_iff.mp h
  refine ⟨Schema.typeOfAt_grows document _ _ _ _ _ hrun, fun u hu => ?_⟩
  have hagain := Schema.typeOfAt_repeats document _ _ _ _ _ u.schema hrun hu
  exact runs_typeOf_iff.mpr ⟨schema, hschema, u.schema, hagain, rfl⟩

/-- A member is made again among other parameters, as long as the style of its name stays. -/
theorem memberOf_repeats {key : GroupKey} {placed : List Data} {p : Data} {m : Member}
    (h : Runs (memberOf document key placed p) s m t) :
    s.Knows t ∧ ∀ u more, t.Knows u → styleOf more m.name = styleOf placed m.name →
      Runs (memberOf document key more p) u m u := by
  simp only [memberOf, Runs.bind_iff, Runs.lift_iff, Runs.pure_iff] at h
  obtain ⟨name, _, ⟨hname, rfl⟩, style, _, ⟨hstyle, rfl⟩, type, _, htype, rfl, rfl⟩ := h
  obtain ⟨hgrows, hagain⟩ := typeOf_repeats htype
  refine ⟨hgrows, fun u more hu hsame => ?_⟩
  simp only [memberOf, Runs.bind_iff, Runs.lift_iff, Runs.pure_iff]
  exact ⟨name, u, ⟨hname, rfl⟩, style, u, ⟨hsame.trans hstyle, rfl⟩, type, u, hagain u hu, rfl, rfl⟩

theorem members_repeat {key : GroupKey} {placed ps : List Data} {members : List Member}
    (h : Runs (ps.mapM (memberOf document key placed)) s members t) :
    s.Knows t ∧ ∀ u more, t.Knows u → (∀ m ∈ members, styleOf more m.name = styleOf placed m.name) →
      Runs (ps.mapM (memberOf document key more)) u members u := by
  induction ps generalizing s members with
  | nil =>
    obtain ⟨rfl, rfl⟩ := Runs.mapM_nil_iff.mp h
    exact ⟨List.prefix_refl _, fun u more _ _ => Runs.mapM_nil_iff.mpr ⟨rfl, rfl⟩⟩
  | cons p ps ih =>
    obtain ⟨m, v, rest, hm, hrest, rfl⟩ := Runs.mapM_cons_iff.mp h
    obtain ⟨hsv, hmember⟩ := memberOf_repeats hm
    obtain ⟨hvt, hmembers⟩ := ih hrest
    refine ⟨hsv.trans hvt, fun u more hu hstyle => ?_⟩
    obtain ⟨hhead, htail⟩ := List.forall_mem_cons.mp hstyle
    exact Runs.mapM_cons_iff.mpr ⟨m, u, rest, hmember u more (hvt.trans hu) hhead, hmembers u more hu htail, rfl⟩

/-- Members that the parameters of a place become again, among any parameters that leave their styles as they
are, whatever else is known by then. -/
def Repeats (document : Data) (key : GroupKey) (placed : List Data) (members : List Member) (s : Compilation) : Prop :=
  ∀ u more, s.Knows u → (∀ m ∈ members, styleOf more m.name = styleOf placed m.name) →
    Runs (placed.mapM (memberOf document key more)) u members u

theorem Repeats.later {key : GroupKey} {placed : List Data} {members : List Member}
    (h : Repeats document key placed members s) (hst : s.Knows t) : Repeats document key placed members t :=
  fun u more hu hstyle => h u more (hst.trans hu) hstyle

/-! ## One place -/

theorem runs_groupOne_of_place {g g' : Grouping} {e : Scalar × List Data} {key : GroupKey} (hkey : keyOf e.1 = some key) :
    Runs (groupOne document naming location g e) s g' t ↔
      ∃ members, Runs (e.2.mapM (memberOf document key e.2)) s members t ∧
        g' = g.put (.ofMembers naming key members) := by
  unfold groupOne
  rw [hkey]
  simp only [Runs.bind_iff, Runs.pure_iff]
  constructor
  · rintro ⟨members, _, hmembers, rfl, rfl⟩
    exact ⟨members, hmembers, rfl⟩
  · rintro ⟨members, hmembers, rfl⟩
    exact ⟨members, t, hmembers, rfl, rfl⟩

/-- A place without a group is reported, unless it was before. -/
theorem runs_groupOne_of_unknown {g g' : Grouping} {e : Scalar × List Data} (hkey : keyOf e.1 = none) :
    Runs (groupOne document naming location g e) s g' t ↔
      if (g.reported.any fun place => place.same e.1) = true then g' = g ∧ t = s
      else e.1.isSpellable = true ∧ g' = g.report e.1 ∧
        t = { s with diagnostics := s.diagnostics ++ [.unknownParameterLocation e.1.text location] } := by
  unfold groupOne
  rw [hkey]
  dsimp only
  by_cases hany : (g.reported.any fun place => place.same e.1) = true
  · rw [if_pos hany, if_pos hany, Runs.pure_iff]
  · rw [if_neg hany, if_neg hany]
    simp only [Scalar.toText, Runs.bind_iff, Runs.guarded_iff, Runs.pure_iff, Compilation.runs_warn_iff]
    constructor
    · rintro ⟨_, _, ⟨hspelled, rfl, rfl⟩, _, _, rfl, rfl, rfl⟩
      exact ⟨hspelled, rfl, rfl⟩
    · rintro ⟨hspelled, rfl, rfl⟩
      exact ⟨_, s, ⟨hspelled, rfl, rfl⟩, (), _, rfl, rfl, rfl⟩

theorem reported_groupOne {g g' : Grouping} {e : Scalar × List Data}
    (h : Runs (groupOne document naming location g e) s g' t) :
    g.reported <+: g'.reported ∧ (keyOf e.1 = none → (g'.reported.any fun place => place.same e.1) = true) := by
  cases hkey : keyOf e.1 with
  | some key =>
    obtain ⟨members, _, rfl⟩ := (runs_groupOne_of_place hkey).mp h
    rw [Grouping.reported_put]
    exact ⟨List.prefix_refl _, fun hnone => absurd hnone (Option.some_ne_none key)⟩
  | none =>
    have h := (runs_groupOne_of_unknown hkey).mp h
    split at h
    case isTrue hany =>
      obtain ⟨rfl, _⟩ := h
      exact ⟨List.prefix_refl _, fun _ => hany⟩
    case isFalse =>
      obtain ⟨_, rfl, _⟩ := h
      exact ⟨List.prefix_append _ _, fun _ => List.any_eq_true.mpr ⟨e.1, by simp [Grouping.report], Scalar.same_refl e.1⟩⟩

/-! ## All places -/

theorem groups_repeat {placed : List (Scalar × List Data)} {g g' : Grouping} (hdistinct : Entries.Distinct Scalar.same placed)
    (h : Runs (placed.foldlM (groupOne document naming location) g) s g' t) :
    s.Knows t ∧ ∀ e ∈ placed, ∀ key, keyOf e.1 = some key →
      ∃ members, g'.find? key = some (.ofMembers naming key members) ∧ Repeats document key e.2 members t := by
  induction placed generalizing s g with
  | nil =>
    obtain ⟨rfl, rfl⟩ := Runs.foldlM_nil_iff.mp h
    exact ⟨List.prefix_refl _, by simp⟩
  | cons e placed ih =>
    obtain ⟨c, u, hround, hrest⟩ := Runs.foldlM_cons_iff.mp h
    obtain ⟨hhead, htail⟩ := List.pairwise_cons.mp hdistinct
    obtain ⟨hut, hlater⟩ := ih htail hrest
    cases hkey : keyOf e.1 with
    | none =>
      have hsu : s.Knows u := by
        have hround := (runs_groupOne_of_unknown hkey).mp hround
        split at hround
        · obtain ⟨_, rfl⟩ := hround
          exact List.prefix_refl _
        · obtain ⟨_, _, rfl⟩ := hround
          exact List.prefix_refl _
      refine ⟨hsu.trans hut, List.forall_mem_cons.mpr ⟨?_, hlater⟩⟩
      intro key hsome
      exact absurd (hkey.symm.trans hsome) (Option.some_ne_none key).symm
    | some key =>
      obtain ⟨members, hmembers, rfl⟩ := (runs_groupOne_of_place hkey).mp hround
      obtain ⟨hsu, hagain⟩ := members_repeat hmembers
      refine ⟨hsu.trans hut, List.forall_mem_cons.mpr ⟨?_, hlater⟩⟩
      rintro key' hkey'
      obtain rfl : key = key' := Option.some.inj (hkey.symm.trans hkey')
      refine ⟨members, ?_, Repeats.later hagain hut⟩
      -- No other entry is one of the same place, so the group stays as this round has made it.
      rcases find?_groups key hrest with ⟨_, hsame⟩ | ⟨e', he', hkey', _⟩
      · rw [hsame, Grouping.find?_put]
        exact if_pos rfl
      · obtain ⟨heq, _⟩ := keyOf_eq_some_iff.mp hkey
        obtain ⟨heq', _⟩ := keyOf_eq_some_iff.mp hkey'
        exact absurd (by rw [heq, heq', Scalar.same_str_right]) (hhead e' he')

/-- After a grouping every place without a group has been reported. -/
theorem reported_groups {placed : List (Scalar × List Data)} {g g' : Grouping}
    (h : Runs (placed.foldlM (groupOne document naming location) g) s g' t) :
    g.reported <+: g'.reported ∧ ∀ e ∈ placed, keyOf e.1 = none → (g'.reported.any fun place => place.same e.1) = true := by
  induction placed generalizing s g with
  | nil =>
    obtain ⟨rfl, rfl⟩ := Runs.foldlM_nil_iff.mp h
    exact ⟨List.prefix_refl _, by simp⟩
  | cons e placed ih =>
    obtain ⟨c, u, hround, hrest⟩ := Runs.foldlM_cons_iff.mp h
    obtain ⟨hgrows, hlater⟩ := ih hrest
    obtain ⟨hround, hreported⟩ := reported_groupOne hround
    refine ⟨hround.trans hgrows, List.forall_mem_cons.mpr ⟨?_, hlater⟩⟩
    intro hkey
    obtain ⟨place, hplace, hsame⟩ := List.any_eq_true.mp (hreported hkey)
    exact List.any_eq_true.mpr ⟨place, hgrows.subset hplace, hsame⟩

/-- Where the members of all places are known and all other places are reported, grouping changes nothing
else and makes the groups of these members. -/
theorem groups_again {placed : List (Scalar × List Data)} {g : Grouping} {made : GroupKey → List Member}
    (hmade : ∀ e ∈ placed, ∀ key, keyOf e.1 = some key → Runs (e.2.mapM (memberOf document key e.2)) s (made key) s)
    (hreported : ∀ e ∈ placed, keyOf e.1 = none → (g.reported.any fun place => place.same e.1) = true) :
    ∃ g', Runs (placed.foldlM (groupOne document naming location) g) s g' s ∧ g'.reported = g.reported := by
  refine Runs.exists_foldlM (fun c : Grouping => c.reported = g.reported) ?_ rfl
  intro e he c hc
  cases hkey : keyOf e.1 with
  | none =>
    refine ⟨c, ?_, hc⟩
    rw [runs_groupOne_of_unknown hkey, if_pos (by rw [hc]; exact hreported e he hkey)]
    exact ⟨rfl, rfl⟩
  | some key =>
    refine ⟨c.put (.ofMembers naming key (made key)), ?_, Grouping.reported_put.trans hc⟩
    exact (runs_groupOne_of_place hkey).mpr ⟨made key, hmade e he key hkey, rfl⟩

/-! ## Settled parameters -/

theorem keyOf_congr {a b : Scalar} (h : a.same b = true) : keyOf a = keyOf b := by
  have hkey : ∀ {a b : Scalar} {key : GroupKey}, a.same b = true → keyOf a = some key → keyOf b = some key := by
    intro a b key h hkey
    obtain ⟨rfl, hplace⟩ := keyOf_eq_some_iff.mp hkey
    exact keyOf_eq_some_iff.mpr ⟨Scalar.same_str_left.mp h, hplace⟩
  cases ha : keyOf a with
  | some key => exact (hkey h ha).symm
  | none =>
    cases hb : keyOf b with
    | none => rfl
    | some key => exact absurd (ha.symm.trans (hkey (Scalar.same_equivalence.symm h) hb)) (Option.some_ne_none key).symm

theorem snd_eq_of_mem_byLocation {parameters : List Data} {placed : List (Scalar × List Data)}
    (h : byLocation parameters = .ok placed) {e : Scalar × List Data} (he : e ∈ placed) :
    e.2 = parameters.filter (isAt e.1) := by
  rw [← find?_byLocation h, Entries.find?_of_mem Scalar.same_equivalence (distinct_byLocation h) he, Option.getD_some]

theorem exists_mem_byLocation {parameters : List Data} {placed : List (Scalar × List Data)}
    (h : byLocation parameters = .ok placed) {place : Scalar} (hne : parameters.filter (isAt place) ≠ []) :
    ∃ e ∈ placed, e.1.same place = true := by
  rw [← find?_byLocation h] at hne
  cases hfind : Entries.find? Scalar.same placed place with
  | none =>
    rw [hfind] at hne
    exact absurd rfl hne
  | some found =>
    obtain ⟨key, hmem, hsame⟩ := Entries.mem_of_find? hfind
    exact ⟨(key, found), hmem, hsame⟩

/-- Parameters of which a compilation knows all that another grouping would find. -/
structure Settled (document : Data) (naming : Naming) (parameters : List Data) (g : Grouping) (s : Compilation) :
    Prop where
  located : ∃ placed, byLocation parameters = .ok placed
  groups : ∀ key, IsPlace key → ∃ members,
    g.find? key = (if members = [] then none else some (.ofMembers naming key members)) ∧
      Repeats document key (parameters.filter (isAt (.str key.name))) members s
  reported : ∀ place, keyOf place = none → parameters.filter (isAt place) ≠ [] →
    (g.reported.any fun other => other.same place) = true

theorem Repeats.membersOf {key : GroupKey} {placed : List Data} {members : List Member}
    (h : Repeats document key placed members s) : MembersOf key placed members :=
  Runs.mapM_forall₂ (fun _ _ _ _ => memberOf_runs) (h s placed (List.prefix_refl _) fun _ _ => rfl)

theorem settled_group {parameters : List Data} {g g' : Grouping} (hmade : MadeOf naming parameters g')
    (h : Runs (group document naming location parameters g) s g' t) :
    s.Knows t ∧ Settled document naming parameters g' t := by
  simp only [group, Runs.bind_iff, Runs.lift_iff] at h
  obtain ⟨placed, _, ⟨hplaced, rfl⟩, h⟩ := h
  obtain ⟨hgrows, hgroups⟩ := groups_repeat (distinct_byLocation hplaced) h
  obtain ⟨_, hreported⟩ := reported_groups h
  refine ⟨hgrows, ⟨placed, hplaced⟩, ?_, ?_⟩
  case refine_1 =>
    intro key hkey
    by_cases hnil : parameters.filter (isAt (.str key.name)) = []
    · obtain ⟨members, hmembers, hfind⟩ := hmade key hkey
      rw [hnil] at hmembers ⊢
      obtain rfl := List.forall₂_nil_left_iff.mp hmembers
      exact ⟨[], hfind, fun u more _ _ => Runs.mapM_nil_iff.mpr ⟨rfl, rfl⟩⟩
    · obtain ⟨e, he, hsame⟩ := exists_mem_byLocation hplaced hnil
      have hplace := Scalar.same_str_right.mp hsame
      obtain ⟨members, hfind, hrepeats⟩ := hgroups e he key (keyOf_eq_some_iff.mpr ⟨hplace, hkey⟩)
      rw [snd_eq_of_mem_byLocation hplaced he, hplace] at hrepeats
      have hne : members ≠ [] := by
        rintro rfl
        exact hnil (List.forall₂_nil_right_iff.mp hrepeats.membersOf)
      exact ⟨members, by rw [hfind, if_neg hne], hrepeats⟩
  case refine_2 =>
    intro place hkey hne
    obtain ⟨e, he, hsame⟩ := exists_mem_byLocation hplaced hne
    obtain ⟨other, hother, hsame'⟩ := List.any_eq_true.mp (hreported e he ((keyOf_congr hsame).trans hkey))
    exact List.any_eq_true.mpr ⟨other, hother, Scalar.same_equivalence.trans hsame' hsame⟩

namespace Settled
variable {parameters : List Data} {g g' : Grouping}

theorem later (h : Settled document naming parameters g s) (hst : s.Knows t) : Settled document naming parameters g t where
  located := h.located
  groups key hkey := by
    obtain ⟨members, hfind, hrepeats⟩ := h.groups key hkey
    exact ⟨members, hfind, hrepeats.later hst⟩
  reported := h.reported

theorem madeOf (h : Settled document naming parameters g s) : MadeOf naming parameters g := by
  intro key hkey
  obtain ⟨members, hfind, hrepeats⟩ := h.groups key hkey
  exact ⟨members, hrepeats.membersOf, hfind⟩

theorem membersOf (h : Settled document naming parameters g s) {key : GroupKey} (hkey : IsPlace key) :
    g.find? key = (if g.members key = [] then none else some (.ofMembers naming key (g.members key))) ∧
      Repeats document key (parameters.filter (isAt (.str key.name))) (g.members key) s := by
  obtain ⟨members, hfind, hrepeats⟩ := h.groups key hkey
  have heq : g.members key = members := by
    rw [Grouping.members, hfind]
    by_cases hnil : members = []
    · simp [hnil]
    · simp [hnil, Group.ofMembers]
  rw [heq]
  exact ⟨hfind, hrepeats⟩

theorem put (h : Settled document naming parameters g s) {other : Group} (hother : ∀ key, IsPlace key → other.key ≠ key) :
    Settled document naming parameters (g.put other) s where
  located := h.located
  groups key hkey := by
    rw [Grouping.find?_put, if_neg (hother key hkey)]
    exact h.groups key hkey
  reported := by
    rw [Grouping.reported_put]
    exact h.reported

end Settled

/-! ## A placeholder that comes late -/

/-- The member that a placeholder becomes which no parameter declares. -/
def placeholder (name : String) : Member where
  name := .str name
  location := .path
  required := true
  type := .any
  style := ⟨.str Wire.Style.simple.name, false⟩
  description := .null
  deprecated := false

theorem byLocation_append_implied {parameters : List Data} {placed : List (Scalar × List Data)}
    (h : byLocation parameters = .ok placed) (name : String) :
    ∃ more, byLocation (parameters ++ [implied name]) = .ok more := by
  rw [byLocation] at h
  rw [byLocation, List.foldlM_append, h]
  exact ⟨_, rfl⟩

theorem styleOf_append {placed more : List Data} {name : Data} (h : ∀ p ∈ more, ¬ (p.said "name").same name = true) :
    styleOf (placed ++ more) name = styleOf placed name := by
  have hnone : more.find? (fun p => (p.said "name").same name) = none := List.find?_eq_none.mpr h
  refine congrArg (fun p : Option Data => StyleSpec.ofParameter (p.getD .null)) ?_
  show (placed ++ more).find? (fun p => (p.said "name").same name) = placed.find? fun p => (p.said "name").same name
  rw [List.find?_append, hnone, Option.or_none]

theorem styleOf_implied {placed : List Data} {name : String} (h : ∀ p ∈ placed, p.said "name" ≠ .str name) :
    styleOf (placed ++ [implied name]) (.str name) = .ok (placeholder name).style := by
  have hnone : placed.find? (fun p => (p.said "name").same (.str name)) = none := by
    refine List.find?_eq_none.mpr fun p hp hsame => h p hp ?_
    exact Item.same_str_iff.mp hsame
  have himplied : ((implied name).said "name").same (.str name) = true := Item.same_str_iff.mpr rfl
  show StyleSpec.ofParameter (((placed ++ [implied name]).find? fun p => (p.said "name").same (.str name)).getD .null) = _
  rw [List.find?_append, hnone, Option.none_or, List.find?_singleton, if_pos himplied]
  rfl

theorem typeOf_implied (name : String) : Runs (typeOf document (implied name)) s .any s := by
  have hpos : 0 < Schema.depthFor document .null := Nat.pow_pos (Nat.succ_pos _)
  obtain ⟨depth, hdepth⟩ := Nat.exists_eq_succ_of_ne_zero hpos.ne'
  have hany : Runs (Schema.typeOfAt document (depth + 1) .null) s.schema .any s.schema := rfl
  refine runs_typeOf_iff.mpr ⟨.null, rfl, s.schema, ?_, rfl⟩
  rwa [Schema.typeOf, hdepth]

theorem memberOf_implied {placed : List Data} {name : String} (h : ∀ p ∈ placed, p.said "name" ≠ .str name) :
    Runs (memberOf document .path (placed ++ [implied name]) (implied name)) s (placeholder name) s := by
  simp only [memberOf, Runs.bind_iff, Runs.lift_iff, Runs.pure_iff]
  exact ⟨.str name, s, ⟨rfl, rfl⟩, _, s, ⟨styleOf_implied h, rfl⟩, .any, s, typeOf_implied name, rfl, rfl⟩

/-- The members of a place after the parameter of a placeholder has come in. -/
def membersWith (g : Grouping) (name : String) (key : GroupKey) : List Member :=
  if key = .path then g.members key ++ [placeholder name] else g.members key

theorem filter_append_implied (parameters : List Data) (name : String) (key : GroupKey) :
    (parameters ++ [implied name]).filter (isAt (.str key.name)) =
      if key = .path then parameters.filter (isAt (.str key.name)) ++ [implied name]
      else parameters.filter (isAt (.str key.name)) := by
  rw [List.filter_append]
  cases key
  case path => rfl
  all_goals exact List.append_nil _

namespace Settled
variable {parameters : List Data} {g g' : Grouping}

/-- All members are known again, the new one among them. -/
theorem runs_membersWith (h : Settled document naming parameters g s) {name : String}
    (hnew : ∀ m ∈ g.members .path, m.name ≠ .str name) {key : GroupKey} (hkey : IsPlace key) {placed : List Data}
    (hplaced : placed = (parameters ++ [implied name]).filter (isAt (.str key.name))) :
    Runs (placed.mapM (memberOf document key placed)) s (membersWith g name key) s := by
  obtain ⟨_, hrepeats⟩ := h.membersOf hkey
  rw [filter_append_implied] at hplaced
  unfold membersWith
  split at hplaced
  case isFalse hother =>
    subst hplaced
    rw [if_neg hother]
    exact hrepeats s _ (List.prefix_refl _) fun _ _ => rfl
  case isTrue hpath =>
    subst hplaced hpath
    rw [if_pos rfl]
    have hmembers := hrepeats.membersOf
    refine Runs.mapM_append_iff.mpr ⟨g.members .path, s, [placeholder name], ?_, ?_, rfl⟩
    · refine hrepeats s _ (List.prefix_refl _) fun m hm => styleOf_append ?_
      intro p hp hsame
      obtain rfl := List.mem_singleton.mp hp
      exact hnew m hm (Data.str_same_iff.mp hsame)
    · refine Runs.mapM_cons_iff.mpr ⟨placeholder name, s, [], memberOf_implied ?_, Runs.mapM_nil_iff.mpr ⟨rfl, rfl⟩, rfl⟩
      intro p hp hname
      obtain ⟨m, hm, hmember⟩ := exists_of_mem_forall₂ hmembers.flip hp
      exact hnew m hm ((Data.said_of_get hmember.name).symm.trans hname)

/-- Grouping again with the parameter of a placeholder makes one more member of the path and nothing else. -/
theorem group_implied (h : Settled document naming parameters g s) {name : String}
    (hnew : ∀ m ∈ g.members .path, m.name ≠ .str name) :
    ∃ g', Runs (group document naming location (parameters ++ [implied name]) g) s g' s ∧
      (∀ key, key ≠ .path → g'.find? key = g.find? key) ∧
      g'.find? .path = some (.ofMembers naming .path (g.members .path ++ [placeholder name])) := by
  obtain ⟨placed, hplaced⟩ := h.located
  obtain ⟨more, hmore⟩ := byLocation_append_implied hplaced name
  have hmembers : ∀ e ∈ more, ∀ key, keyOf e.1 = some key →
      Runs (e.2.mapM (memberOf document key e.2)) s (membersWith g name key) s := by
    intro e he key hkey
    obtain ⟨hplace, hkey⟩ := keyOf_eq_some_iff.mp hkey
    exact h.runs_membersWith hnew hkey (hplace ▸ snd_eq_of_mem_byLocation hmore he)
  have hreported : ∀ e ∈ more, keyOf e.1 = none → (g.reported.any fun place => place.same e.1) = true := by
    intro e he hkey
    refine h.reported e.1 hkey fun hnil => ?_
    have heq := snd_eq_of_mem_byLocation hmore he
    rw [List.filter_append, hnil, List.nil_append] at heq
    have himplied : isAt e.1 (implied name) = true := by
      by_contra hnot
      rw [List.filter_singleton, Bool.eq_false_iff.mpr hnot, cond_false] at heq
      exact ne_nil_of_mem_byLocation hmore he heq
    have hpath : e.1 = .str GroupKey.path.name := Scalar.same_str_left.mp himplied
    rw [hpath] at hkey
    cases hkey
  obtain ⟨g', hrun, _⟩ : ∃ g', Runs (more.foldlM (groupOne document naming location) g) s g' s ∧
      g'.reported = g.reported := groups_again hmembers hreported
  have hgroup : Runs (group document naming location (parameters ++ [implied name]) g) s g' s := by
    simp only [group, Runs.bind_iff, Runs.lift_iff]
    exact ⟨more, s, ⟨hmore, rfl⟩, hrun⟩
  obtain ⟨_, hsettled⟩ := settled_group (madeOf_group h.madeOf hgroup) hgroup
  -- What has been grouped are the members that were known before.
  have hfind : ∀ key, IsPlace key → g'.find? key =
      if membersWith g name key = [] then none else some (.ofMembers naming key (membersWith g name key)) := by
    intro key hkey
    obtain ⟨hfind, hrepeats⟩ := hsettled.membersOf hkey
    have hagain := hrepeats s _ (List.prefix_refl _) fun _ _ => rfl
    rw [hfind, (hagain.eq_of_runs (h.runs_membersWith hnew hkey rfl)).1]
  refine ⟨g', hgroup, ?_, ?_⟩
  · intro key hother
    by_cases hkey : IsPlace key
    · rw [hfind key hkey, (h.membersOf hkey).1, membersWith, if_neg hother]
    · rcases find?_groups key hrun with ⟨_, hsame⟩ | ⟨e, _, hplace, _⟩
      · exact hsame
      · exact absurd (keyOf_eq_some_iff.mp hplace).2 hkey
  · have hpath : membersWith g name .path = g.members .path ++ [placeholder name] := if_pos rfl
    rw [hfind .path rfl, hpath, if_neg (List.append_ne_nil_of_right_ne_nil _ (List.cons_ne_nil _ []))]

end Settled

end Parameters
end ClientBindings

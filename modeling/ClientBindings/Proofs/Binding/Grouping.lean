import ClientBindings.Binding.Operation
import ClientBindings.Proofs.Entries
import ClientBindings.Proofs.Runs

/-! What grouping makes of parameters. The group of a place has one member for each parameter that is
declared there, in order, and a member is styled as the first parameter of its name says. That holds again
when a parameter has been added and all of them are grouped once more. -/

namespace ClientBindings

namespace Data

/-- What a value says under a key, null where it says nothing. -/
def said (d : Data) (key : String) : Data := (d.find? key).getD .null

theorem said_of_get {d v : Data} {key : String} (h : d.get key = .ok v) : d.said key = v := by
  cases d with
  | map es => exact Result.pure_eq_ok_iff.mp h
  | _ => exact absurd h Result.throw_ne_ok

end Data

/-! ## Groups by their keys -/

namespace Grouping
variable {g : Grouping} {group : Group} {key : GroupKey}

def find? (g : Grouping) (key : GroupKey) : Option Group := g.groups.find? fun h => h.key == key

theorem find?_put : (g.put group).find? key = if group.key = key then some group else g.find? key := by
  unfold put
  split
  case isTrue hany =>
    -- The new group has the key of the one that it replaces, so all keys stay where they are.
    let replace (h : Group) : Group := if h.key == group.key then group else h
    have hkept : ((fun h : Group => h.key == key) ∘ replace) = fun h => h.key == key := by
      funext h
      by_cases hkey : h.key = group.key <;> simp [replace, hkey]
    show (g.groups.map replace).find? (fun h => h.key == key) = _
    rw [List.find?_map, hkept]
    cases hfind : g.groups.find? fun h => h.key == key with
    | none =>
      have hne : group.key ≠ key := by
        rintro rfl
        obtain ⟨h, hh, hkey⟩ := List.any_eq_true.mp hany
        exact List.find?_eq_none.mp hfind h hh hkey
      rw [if_neg hne, Option.map_none, find?, hfind]
    | some found =>
      have hkey : found.key = key := by simpa using List.find?_some hfind
      rw [Option.map_some, find?, hfind]
      by_cases heq : group.key = key
      · simp [replace, hkey, heq]
      · simp [replace, hkey, heq, Ne.symm heq]
  case isFalse hany =>
    have hnone : ∀ h ∈ g.groups, h.key ≠ group.key := by simpa using hany
    show (g.groups ++ [group]).find? (fun h => h.key == key) = _
    rw [List.find?_append, List.find?_singleton]
    by_cases hkey : group.key = key
    · have hfind : g.groups.find? (fun h => h.key == key) = none := by
        rw [List.find?_eq_none]
        intro h hh
        simpa [← hkey] using hnone h hh
      simp [hfind, hkey]
    · simp [find?, hkey]

def members (g : Grouping) (key : GroupKey) : List Member := ((g.find? key).map Group.members).getD []

end Grouping

namespace Parameters
variable {document : Data} {naming : Naming} {location : String} {s t : Compilation}

/-! ## Parameters by their places -/

/-- Whether a parameter is sent in a place. -/
def isAt (place : Scalar) (p : Data) : Bool := (p.said "in").same (.scalar place)

theorem find?_byLocation {parameters : List Data} {placed : List (Scalar × List Data)}
    (h : byLocation parameters = .ok placed) (place : Scalar) :
    (Entries.find? Scalar.same placed place).getD [] = parameters.filter (isAt place) := by
  refine Result.foldlM_done (fun done (acc : List (Scalar × List Data)) =>
    (Entries.find? Scalar.same acc place).getD [] = done.filter (isAt place)) ?_ rfl h
  intro done p acc acc' hacc hstep
  simp only [Result.bind_eq_ok_iff, Result.pure_eq_ok_iff] at hstep
  obtain ⟨given, hgiven, key, hkey, rfl⟩ := hstep
  have hat : isAt place p = key.same place := by
    rw [isAt, Data.said_of_get hgiven]
    cases given with
    | scalar s =>
      obtain rfl := Result.pure_eq_ok_iff.mp hkey
      simp [Data.same]
    | _ => exact absurd hkey Result.throw_ne_ok
  rw [Entries.find?_put Scalar.same_equivalence, List.filter_append, ← hacc, List.filter_singleton, hat]
  by_cases hsame : key.same place = true
  · rw [Entries.find?_congr Scalar.same_equivalence hsame]
    simp [hsame]
  · simp [hsame]

theorem distinct_byLocation {parameters : List Data} {placed : List (Scalar × List Data)}
    (h : byLocation parameters = .ok placed) : Entries.Distinct Scalar.same placed := by
  refine Result.foldlM_done (fun _ (acc : List (Scalar × List Data)) => Entries.Distinct Scalar.same acc) ?_
    List.Pairwise.nil h
  intro done p acc acc' hacc hstep
  simp only [Result.bind_eq_ok_iff, Result.pure_eq_ok_iff] at hstep
  obtain ⟨_, _, _, _, rfl⟩ := hstep
  exact hacc.put

theorem ne_nil_of_mem_byLocation {parameters : List Data} {placed : List (Scalar × List Data)}
    (h : byLocation parameters = .ok placed) {e : Scalar × List Data} (he : e ∈ placed) : e.2 ≠ [] := by
  refine Result.foldlM_done (fun _ (acc : List (Scalar × List Data)) => ∀ e ∈ acc, e.2 ≠ []) ?_ (by simp) h e he
  intro done p acc acc' hacc hstep e he
  simp only [Result.bind_eq_ok_iff, Result.pure_eq_ok_iff] at hstep
  obtain ⟨_, _, _, _, rfl⟩ := hstep
  rcases Entries.mem_put he with he | ⟨hvalue, _⟩
  · exact hacc e he
  · rw [hvalue]
    exact List.append_ne_nil_of_right_ne_nil _ (List.cons_ne_nil p [])

/-! ## Members -/

/-- A member as one of the parameters of its place describes it. -/
structure MemberOf (key : GroupKey) (placed : List Data) (p : Data) (m : Member) : Prop where
  name : p.get "name" = .ok m.name
  style : styleOf placed m.name = .ok m.style
  location : m.location = key
  required : m.required = (key == .path || (p.said "required").truthy)

theorem memberOf_runs {key : GroupKey} {placed : List Data} {p : Data} {m : Member}
    (h : Runs (memberOf document key placed p) s m t) : MemberOf key placed p m := by
  simp only [memberOf, Runs.bind_iff, Runs.lift_iff, Runs.pure_iff] at h
  obtain ⟨name, _, ⟨hname, rfl⟩, style, _, ⟨hstyle, rfl⟩, type, _, _, rfl, rfl⟩ := h
  exact ⟨hname, hstyle, rfl, rfl⟩

/-- The members that the parameters of a place become. -/
abbrev MembersOf (key : GroupKey) (placed : List Data) (members : List Member) : Prop :=
  List.Forall₂ (MemberOf key placed) placed members

/-- The places whose parameters make up groups. -/
def IsPlace (key : GroupKey) : Prop := GroupKey.ofLocation? key.name = some key

theorem keyOf_eq_some_iff {place : Scalar} {key : GroupKey} :
    keyOf place = some key ↔ place = .str key.name ∧ IsPlace key := by
  constructor
  · intro h
    cases place with
    | str name =>
      have hname : key.name = name := by simpa using List.find?_some h
      subst hname
      exact ⟨rfl, h⟩
    | _ => cases h
  · rintro ⟨rfl, hkey⟩
    exact hkey

/-- Each round either leaves the group of a key alone or makes it anew. -/
theorem find?_groups {placed : List (Scalar × List Data)} {g g' : Grouping} (key : GroupKey)
    (h : Runs (placed.foldlM (groupOne document naming location) g) s g' t) :
    (∀ e ∈ placed, keyOf e.1 ≠ some key) ∧ g'.find? key = g.find? key ∨
      ∃ e ∈ placed, keyOf e.1 = some key ∧ ∃ members, MembersOf key e.2 members ∧
        g'.find? key = some (.ofMembers naming key members) := by
  refine Runs.foldlM_done (fun done (g' : Grouping) =>
    (∀ e ∈ done, keyOf e.1 ≠ some key) ∧ g'.find? key = g.find? key ∨
      ∃ e ∈ done, keyOf e.1 = some key ∧ ∃ members, MembersOf key e.2 members ∧
        g'.find? key = some (.ofMembers naming key members)) ?_ (Or.inl ⟨by simp, rfl⟩) h
  intro done e acc u acc' v hacc hstep
  -- A round for another place changes nothing of what is known about the key.
  have hkept : acc'.find? key = acc.find? key → keyOf e.1 ≠ some key →
      (∀ e' ∈ done ++ [e], keyOf e'.1 ≠ some key) ∧ acc'.find? key = g.find? key ∨
      ∃ e' ∈ done ++ [e], keyOf e'.1 = some key ∧ ∃ members, MembersOf key e'.2 members ∧
        acc'.find? key = some (.ofMembers naming key members) := by
    intro hfind hkey
    rcases hacc with ⟨hother, hsame⟩ | ⟨e', he', hkey', members, hmembers, hfound⟩
    · left
      refine ⟨?_, hfind.trans hsame⟩
      intro e' he'
      rcases List.mem_append.mp he' with he' | he'
      · exact hother e' he'
      · rwa [List.mem_singleton.mp he']
    · exact Or.inr ⟨e', List.mem_append_left _ he', hkey', members, hmembers, hfind.trans hfound⟩
  unfold groupOne at hstep
  split at hstep
  case h_1 placedKey hplaced =>
    simp only [Runs.bind_iff, Runs.pure_iff] at hstep
    obtain ⟨members, _, hmembers, rfl, rfl⟩ := hstep
    by_cases heq : placedKey = key
    · subst heq
      refine Or.inr ⟨e, by simp, hplaced, members, Runs.mapM_forall₂ (fun _ _ _ _ => memberOf_runs) hmembers, ?_⟩
      rw [Grouping.find?_put]
      exact if_pos rfl
    · refine hkept ?_ fun hsome => heq (Option.some.inj (hplaced.symm.trans hsome))
      rw [Grouping.find?_put]
      exact if_neg heq
  case h_2 hplaced =>
    have hne : keyOf e.1 ≠ some key := by
      rw [hplaced]
      exact (Option.some_ne_none key).symm
    split at hstep
    · obtain ⟨rfl, rfl⟩ := Runs.pure_iff.mp hstep
      exact hkept rfl hne
    · simp only [Runs.bind_iff, Runs.pure_iff] at hstep
      obtain ⟨_, _, _, _, _, _, rfl, rfl⟩ := hstep
      exact hkept rfl hne

/-- Grouping gives a place the members that its parameters become; without any it keeps what it has. -/
theorem find?_group {parameters : List Data} {g g' : Grouping} {key : GroupKey} (hkey : IsPlace key)
    (h : Runs (group document naming location parameters g) s g' t) :
    (parameters.filter (isAt (.str key.name)) = [] ∧ g'.find? key = g.find? key) ∨
      ∃ members, MembersOf key (parameters.filter (isAt (.str key.name))) members ∧ members ≠ [] ∧
        g'.find? key = some (.ofMembers naming key members) := by
  simp only [group, Runs.bind_iff, Runs.lift_iff] at h
  obtain ⟨placed, _, ⟨hplaced, rfl⟩, h⟩ := h
  rcases find?_groups key h with ⟨hnone, hsame⟩ | ⟨e, he, hekey, members, hmembers, hfound⟩
  · left
    refine ⟨?_, hsame⟩
    rw [← find?_byLocation hplaced, Entries.find?_eq_none_iff.mpr, Option.getD_none]
    intro e he hsame
    exact hnone e he (keyOf_eq_some_iff.mpr ⟨Scalar.same_str_right.mp hsame, hkey⟩)
  · right
    obtain ⟨heq, -⟩ := keyOf_eq_some_iff.mp hekey
    have hfind : Entries.find? Scalar.same placed (.str key.name) = some e.2 :=
      Entries.find?_of_mem Scalar.same_equivalence (distinct_byLocation hplaced) (heq ▸ he)
    rw [← find?_byLocation hplaced, hfind]
    refine ⟨members, hmembers, ?_, hfound⟩
    rintro rfl
    exact ne_nil_of_mem_byLocation hplaced he (List.forall₂_nil_right_iff.mp hmembers)

/-- The group of every place is made of the parameters that are declared for it; without any there is
none. -/
def MadeOf (naming : Naming) (parameters : List Data) (g : Grouping) : Prop := ∀ key, IsPlace key →
  ∃ members, MembersOf key (parameters.filter (isAt (.str key.name))) members ∧
    g.find? key = if members = [] then none else some (.ofMembers naming key members)

/-- Grouping again is right as well, since parameters are only ever added. -/
theorem madeOf_group {before added : List Data} {g g' : Grouping} (hg : MadeOf naming before g)
    (h : Runs (group document naming location (before ++ added) g) s g' t) :
    MadeOf naming (before ++ added) g' := by
  intro key hkey
  rcases find?_group hkey h with ⟨hnone, hsame⟩ | ⟨members, hmembers, hne, hfound⟩
  · obtain ⟨members, hmembers, hfind⟩ := hg key hkey
    have hbefore : before.filter (isAt (.str key.name)) = [] := by
      rw [List.filter_append] at hnone
      exact (List.append_eq_nil_iff.mp hnone).1
    obtain rfl : members = [] := List.forall₂_nil_left_iff.mp (hbefore ▸ hmembers)
    exact ⟨[], hnone ▸ .nil, hsame.trans hfind⟩
  · exact ⟨members, hmembers, by rw [hfound, if_neg hne]⟩

theorem MadeOf.put {parameters : List Data} {g : Grouping} (hg : MadeOf naming parameters g) {other : Group}
    (hother : ∀ key, IsPlace key → other.key ≠ key) : MadeOf naming parameters (g.put other) := by
  intro key hkey
  rw [Grouping.find?_put, if_neg (hother key hkey)]
  exact hg key hkey

/-! ## The parameters of an operation -/

/-- The parameters that are declared for the place of a group. -/
def placed (ps : Parameters) (key : GroupKey) : List Data := ps.declared.filter (isAt (.str key.name))

/-- Every place has the group that its parameters make up. -/
def Grouped (naming : Naming) (ps : Parameters) : Prop := MadeOf naming ps.declared ps.grouping

theorem Grouped.membersOf {ps : Parameters} (hps : ps.Grouped naming) {key : GroupKey} (hkey : IsPlace key) :
    MembersOf key (ps.placed key) (ps.members key) := by
  obtain ⟨members, hmembers, hgroup⟩ := hps key hkey
  show MembersOf key _ (((ps.grouping.find? key).map Group.members).getD [])
  rw [hgroup]
  split
  case isTrue hnil => exact hnil ▸ hmembers
  case isFalse => exact hmembers

/-- A place with a member has a group. -/
theorem Grouped.group?_eq {ps : Parameters} (hps : ps.Grouped naming) {key : GroupKey} (hkey : IsPlace key) {m : Member}
    (hm : m ∈ ps.members key) : ps.group? key = some (.ofMembers naming key (ps.members key)) := by
  obtain ⟨members, hmembers, hgroup⟩ := hps key hkey
  have hfind : ps.group? key = if members = [] then none else some (.ofMembers naming key members) := hgroup
  by_cases hnil : members = []
  · rw [Parameters.members, hfind, if_pos hnil] at hm
    exact absurd hm List.not_mem_nil
  · rw [Parameters.members, hfind, if_neg hnil]
    rfl

theorem placedIn_eq {key : GroupKey} (hkey : IsPlace key) (parameters : List Data) :
    placedIn parameters key = parameters.filter (isAt (.str key.name)) := by
  refine List.filter_congr fun p _ => ?_
  rw [isAt, Data.said]
  cases p.find? "in" with
  | none => rfl
  | some place =>
    cases place with
    | scalar place =>
      rw [Option.getD_some, Data.same, Bool.eq_iff_iff, beq_iff_eq, keyOf_eq_some_iff, Scalar.same_str_right]
      exact and_iff_left hkey
    | _ => rfl

/-- Whether the parameters are those that an operation and its path item list. -/
def Listed (document operation pathItem : Data) (parameters : List Data) : Prop :=
  ∃ own shared, operation.get "parameters" = .ok own ∧ (pathItem.orElse (.map [])).get "parameters" = .ok shared ∧
    merge document own shared = .ok parameters

theorem ne_of_isPlace {key : GroupKey} (hkey : IsPlace key) : GroupKey.body ≠ key ∧ GroupKey.config ≠ key := by
  constructor
  all_goals
    rintro rfl
    exact absurd hkey (by unfold IsPlace; decide)

theorem classify_runs {operation pathItem : Data} {ps : Parameters}
    (h : Runs (classify document naming location operation pathItem) s ps t) :
    ps.Grouped naming ∧ Listed document operation pathItem ps.declared := by
  simp only [classify, Runs.bind_iff, Runs.lift_iff] at h
  obtain ⟨shared, _, ⟨hshared, rfl⟩, own, _, ⟨hown, rfl⟩, declared, _, ⟨hmerge, rfl⟩, body, _, ⟨_, rfl⟩, _, _,
    ⟨_, rfl⟩, located, u, hgroup, h⟩ := h
  have hlisted : Listed document operation pathItem declared := ⟨own, shared, hown, hshared, hmerge⟩
  have hnone : MadeOf naming [] {} := fun _ _ => ⟨[], .nil, rfl⟩
  have hlocated : MadeOf naming declared located := madeOf_group hnone hgroup
  -- The groups of the body and of the configuration, which come last, are those of no place.
  have hconfig : ∀ key, IsPlace key → (configGroup naming).key ≠ key := fun _ hkey => (ne_of_isPlace hkey).2
  split at h
  · simp only [Runs.bind_iff, Runs.pure_iff] at h
    obtain ⟨_, _, ⟨rfl, rfl⟩, rfl, rfl⟩ := h
    exact ⟨hlocated.put hconfig, hlisted⟩
  · simp only [Runs.bind_iff, Runs.map_iff, Runs.pure_iff] at h
    obtain ⟨_, _, ⟨g, hbody, rfl⟩, rfl, rfl⟩ := h
    have hbodyKey : g.key = .body := by
      simp only [bodyGroup, Runs.bind_iff, Runs.lift_iff, Runs.pure_iff] at hbody
      obtain ⟨_, _, _, _, _, _, _, _, _, _, _, _, rfl, _⟩ := hbody
      rfl
    exact ⟨(hlocated.put fun _ hkey => hbodyKey ▸ (ne_of_isPlace hkey).1).put hconfig, hlisted⟩

theorem addPath_runs {ps ps' : Parameters} {name : String} (hps : ps.Grouped naming)
    (h : Runs (addPath document naming location ps name) s ps' t) :
    ps'.Grouped naming ∧ ps'.declared = ps.declared ++ [implied name] := by
  simp only [addPath, Runs.bind_iff, Runs.pure_iff] at h
  obtain ⟨grouping, _, hgroup, rfl, rfl⟩ := h
  exact ⟨madeOf_group hps hgroup, rfl⟩

/-! ## Styles -/

/-- A parameter that says how a name is sent: one that is declared under it, or none. -/
def Describes (placed : List Data) (name p : Data) : Prop := p = .null ∨ p ∈ placed ∧ (p.said "name").same name = true

section
variable {ps : Parameters} {key : GroupKey}

theorem style_eq (hkey : IsPlace key) (name : Data) : ps.style key name =
    (styleOf (ps.placed key) name).toOption.getD ⟨.str Wire.Style.form.name, true⟩ := by
  unfold Parameters.style Parameters.placed
  rw [placedIn_eq hkey]
  cases styleOf (ps.declared.filter (isAt (.str key.name))) name <;> rfl

theorem style_eq_of_styleOf (hkey : IsPlace key) {name : Data} {style : StyleSpec}
    (h : styleOf (ps.placed key) name = .ok style) : ps.style key name = style := by
  rw [style_eq hkey, h]
  rfl

theorem exists_describes (hkey : IsPlace key) (name : Data) :
    ∃ p, Describes (ps.placed key) name p ∧ StyleSpec.ofParameter p = .ok (ps.style key name) := by
  cases hstyle : styleOf (ps.placed key) name with
  | error f =>
    -- A name whose style cannot be read is styled as a parameter that says nothing.
    refine ⟨.null, Or.inl rfl, ?_⟩
    rw [style_eq hkey, hstyle]
    rfl
  | ok style =>
    rw [style_eq_of_styleOf hkey hstyle]
    unfold styleOf at hstyle
    cases hfirst : (ps.placed key).find? fun p => ((p.find? "name").getD .null).same name with
    | none =>
      rw [hfirst] at hstyle
      exact ⟨.null, Or.inl rfl, hstyle⟩
    | some p =>
      rw [hfirst] at hstyle
      have hsame : (p.said "name").same name = true := by simpa [Data.said] using List.find?_some hfirst
      exact ⟨p, Or.inr ⟨List.mem_of_find?_eq_some hfirst, hsame⟩, hstyle⟩

end

end Parameters

end ClientBindings

import ClientBindings.Binding.Operation
import ClientBindings.Proofs.Binding.Grouping

/-! The placeholders of a path. Each one is written by a call that is made when it is met; one that no
parameter declares comes in as one more parameter of the path, after which all parameters are grouped
again. The calls made before that stay right: a placeholder is a required member from then on, and a new
parameter comes behind all others, so that the first one of a name stays the first. -/

namespace ClientBindings

/-! ## Calls of members -/

/-- The call that writes a member of a group. -/
def Group.call (g : Group) (m : Member) : StyledMember :=
  { style := m.style.style, name := m.name, source := g.identifier, explode := m.style.explode
    required := g.required && (g.member? m.name).any Member.required }

namespace OperationBinding
variable {document : Data} {naming : Naming} {location : String} {s t : Compilation} {ps ps' : Parameters}

open Parameters

/-- A call is made from the name alone, and yet it is the call of the member that has the name. -/
theorem memberCall_eq (hps : ps.Grouped naming) {key : GroupKey} (hkey : IsPlace key) {g : Group}
    (hg : ps.group? key = some g) {m : Member} (hm : m ∈ g.members) :
    memberCall ps naming key m.name = g.call m := by
  have hmembers : ps.members key = g.members := by rw [members, hg]; rfl
  obtain ⟨p, _, hmember⟩ := exists_of_mem_forall₂ (hps.membersOf hkey) (hmembers ▸ hm)
  unfold memberCall Group.call
  rw [style_eq_of_styleOf hkey hmember.style, hg]
  rfl

/-! ## Calls of placeholders -/

theorem isPlace_path : IsPlace .path := rfl

theorem isPlace_query : IsPlace .query := rfl

theorem isPlace_header : IsPlace .header := rfl

theorem mem_names_iff {name : String} : ((ps.names .path).any fun n => n.same (.str name)) = true ↔
    ∃ m ∈ ps.members .path, m.name = .str name := by
  unfold names
  simp only [List.any_map, List.any_eq_true, Function.comp_apply]
  refine exists_congr fun m => and_congr_right fun _ => ?_
  cases m.name with
  | scalar value => simp [Data.same, Data.str]
  | _ => simp [Data.same, Data.str]

/-- Whether one of the parameters declares a placeholder. -/
def DeclaresPath (parameters : List Data) (name : String) : Prop :=
  ∃ p ∈ parameters, isAt (.str GroupKey.path.name) p = true ∧ p.said "name" = .str name

theorem declaresPath_iff_placed {name : String} :
    DeclaresPath ps.declared name ↔ ∃ p ∈ ps.placed .path, p.said "name" = .str name := by
  simp only [DeclaresPath, placed, List.mem_filter, and_assoc]

theorem declaresPath_iff_member (hps : ps.Grouped naming) {name : String} :
    DeclaresPath ps.declared name ↔ ∃ m ∈ ps.members .path, m.name = .str name := by
  rw [declaresPath_iff_placed]
  have hmembers := hps.membersOf isPlace_path
  constructor
  · rintro ⟨p, hp, hname⟩
    obtain ⟨m, hm, hmember⟩ := exists_of_mem_forall₂ hmembers.flip hp
    exact ⟨m, hm, (Data.said_of_get hmember.name).symm.trans hname⟩
  · rintro ⟨m, hm, hname⟩
    obtain ⟨p, hp, hmember⟩ := exists_of_mem_forall₂ hmembers hm
    exact ⟨p, hp, (Data.said_of_get hmember.name).trans hname⟩

theorem declaresPath_append {parameters : List Data} {added : List String} {name : String} :
    DeclaresPath (parameters ++ added.map implied) name ↔ DeclaresPath parameters name ∨ name ∈ added := by
  have himplied (other : String) : isAt (.str GroupKey.path.name) (implied other) = true ∧
      (implied other).said "name" = .str name ↔ other = name := by
    refine (and_iff_right rfl).trans ?_
    show Data.str other = Data.str name ↔ _
    simp [Data.str]
  simp only [DeclaresPath, List.mem_append, or_and_right, exists_or, List.mem_map, exists_exists_and_eq_and,
    himplied, exists_eq_right]

/-- A placeholder that is declared is written as a required member of the path. -/
theorem memberCall_path (hps : ps.Grouped naming) {name : String} (hname : DeclaresPath ps.declared name) :
    memberCall ps naming .path (.str name) =
      { style := (ps.style .path (.str name)).style, name := .str name, source := naming.identifier .path
        explode := (ps.style .path (.str name)).explode, required := true } := by
  obtain ⟨m, hm, hmname⟩ := (declaresPath_iff_member hps).mp hname
  have hgroup := hps.group?_eq isPlace_path hm
  have hrequired : ((Group.ofMembers naming .path (ps.members .path)).member? (.str name)).any Member.required = true := by
    obtain ⟨found, hfound⟩ : ∃ found, (ps.members .path).find? (fun m => m.name.same (.str name)) = some found := by
      refine Option.isSome_iff_exists.mp (List.find?_isSome.mpr ⟨m, hm, ?_⟩)
      simp [hmname, Data.same, Data.str]
    obtain ⟨p, _, hmember⟩ := exists_of_mem_forall₂ (hps.membersOf isPlace_path) (List.mem_of_find?_eq_some hfound)
    show ((ps.members .path).find? _).any Member.required = true
    rw [hfound, Option.any_some, hmember.required]
    rfl
  unfold memberCall
  rw [hgroup]
  dsimp only [Option.map_some, Option.getD_some, Option.any_some]
  rw [hrequired]
  rfl

theorem style_append {added : List String} (h : ps'.declared = ps.declared ++ added.map implied) {name : String}
    (hname : DeclaresPath ps.declared name) : ps'.style .path (.str name) = ps.style .path (.str name) := by
  have hfirst : (ps'.placed .path).find? (fun p => (p.said "name").same (.str name)) =
      (ps.placed .path).find? fun p => (p.said "name").same (.str name) := by
    obtain ⟨p, hp, hpname⟩ := declaresPath_iff_placed.mp hname
    obtain ⟨found, hfound⟩ : ∃ found, (ps.placed .path).find? (fun p => (p.said "name").same (.str name)) = some found := by
      refine Option.isSome_iff_exists.mp (List.find?_isSome.mpr ⟨p, hp, ?_⟩)
      simp [hpname, Data.same, Data.str]
    rw [placed, h, List.filter_append, List.find?_append, ← placed, hfound, Option.some_or]
  have hstyle : styleOf (ps'.placed .path) (.str name) = styleOf (ps.placed .path) (.str name) :=
    congrArg (fun p : Option Data => StyleSpec.ofParameter (p.getD .null)) hfirst
  rw [style_eq isPlace_path, style_eq isPlace_path, hstyle]

/-- The call of a placeholder stays as it is when more of them add their parameters. -/
theorem memberCall_append (hps : ps.Grouped naming) (hps' : ps'.Grouped naming) {added : List String}
    (h : ps'.declared = ps.declared ++ added.map implied) {name : String} (hname : DeclaresPath ps.declared name) :
    memberCall ps' naming .path (.str name) = memberCall ps naming .path (.str name) := by
  have hname' : DeclaresPath ps'.declared name := h ▸ declaresPath_append.mpr (Or.inl hname)
  rw [memberCall_path hps hname, memberCall_path hps' hname', style_append h hname]

/-! ## All placeholders of a path -/

/-- What completes parameters: one more for each of the names that none of them declares. -/
structure Completes (parameters : List Data) (names added : List String) : Prop where
  sublist : added.Sublist names
  nodup : added.Nodup
  mem_iff : ∀ name ∈ names, name ∈ added ↔ ¬ DeclaresPath parameters name

theorem Completes.declaresPath {parameters : List Data} {names added : List String} (h : Completes parameters names added)
    {name : String} (hname : name ∈ names) : DeclaresPath (parameters ++ added.map implied) name := by
  rw [declaresPath_append, h.mem_iff name hname]
  exact Classical.em _

theorem addPlaceholder_runs {parameters : List Data} {names added : List String} {name : String}
    (hps : ps.Grouped naming) (hdeclared : ps.declared = parameters ++ added.map implied)
    (h : Completes parameters names added)
    (hrun : Runs (addPlaceholder document naming location ps name) s ps' t) :
    ps'.Grouped naming ∧ ∃ more, ps'.declared = ps.declared ++ more.map implied ∧
      Completes parameters (names ++ [name]) (added ++ more) := by
  have hknown : ((ps.names .path).any fun n => n.same (.str name)) = true ↔
      DeclaresPath parameters name ∨ name ∈ added := by
    rw [mem_names_iff, ← declaresPath_iff_member hps, hdeclared, declaresPath_append]
  unfold addPlaceholder at hrun
  split at hrun
  case isTrue hany =>
    obtain ⟨rfl, rfl⟩ := Runs.pure_iff.mp hrun
    refine ⟨hps, [], (List.append_nil _).symm, ?_⟩
    rw [List.append_nil]
    refine ⟨h.sublist.trans (List.sublist_append_left _ _), h.nodup, ?_⟩
    intro other hother
    rcases List.mem_append.mp hother with hother | hother
    · exact h.mem_iff other hother
    obtain rfl := List.mem_singleton.mp hother
    refine ⟨fun hadded => (h.mem_iff other (h.sublist.subset hadded)).mp hadded, fun hdeclares => ?_⟩
    exact (hknown.mp hany).resolve_left hdeclares
  case isFalse hany =>
    obtain ⟨hdeclares, hadded⟩ := not_or.mp (mt hknown.mpr hany)
    obtain ⟨hgrouped, hmore⟩ := addPath_runs hps hrun
    refine ⟨hgrouped, [name], hmore, h.sublist.append (List.Sublist.refl _), ?_, ?_⟩
    · exact List.nodup_append.mpr ⟨h.nodup, List.pairwise_singleton _ _, by simpa [List.forall_mem_ne'] using hadded⟩
    · intro other hother
      rcases List.mem_append.mp hother with hother | hother
      · rw [List.mem_append, h.mem_iff other hother, List.mem_singleton]
        exact or_iff_left_of_imp fun heq => heq ▸ hdeclares
      · obtain rfl := List.mem_singleton.mp hother
        exact iff_of_true (List.mem_append_right added hother) hdeclares

/-- The spans of placeholders, their calls being made from parameters that have all of them. -/
def spansOf (ps : Parameters) (naming : Naming) (found : List (String × String)) : List UrlSpan :=
  found.map fun (name, literal) => ⟨.member (memberCall ps naming .path (.str name)), literal⟩

theorem pathSpans_runs {found : List (String × String)} {placed : Parameters × List UrlSpan} (hps : ps.Grouped naming)
    (h : Runs (pathSpans document naming location ps found) s placed t) :
    placed.1.Grouped naming ∧ placed.2 = spansOf placed.1 naming found ∧
      ∃ added, placed.1.declared = ps.declared ++ added.map implied ∧ Completes ps.declared (found.map Prod.fst) added := by
  refine Runs.foldlM_done (fun done (placed : Parameters × List UrlSpan) =>
    placed.1.Grouped naming ∧ placed.2 = spansOf placed.1 naming done ∧
      ∃ added, placed.1.declared = ps.declared ++ added.map implied ∧ Completes ps.declared (done.map Prod.fst) added)
    ?_ ?_ h
  · intro done x acc u acc' v hacc hstep
    obtain ⟨name, literal⟩ := x
    obtain ⟨ps₁, spans⟩ := acc
    obtain ⟨hgrouped, hspans, added, hadded, hcompletes⟩ := hacc
    dsimp only at hgrouped hspans hadded
    simp only [Runs.bind_iff, Runs.pure_iff] at hstep
    obtain ⟨ps₂, _, hrun, rfl, rfl⟩ := hstep
    obtain ⟨hgrouped', more, hmore, hcompletes'⟩ := addPlaceholder_runs hgrouped hadded hcompletes hrun
    refine ⟨hgrouped', ?_, added ++ more, ?_, by simpa using hcompletes'⟩
    · have hkept : spansOf ps₂ naming done = spansOf ps₁ naming done := by
        refine List.map_congr_left fun e he => ?_
        have hdeclares : DeclaresPath ps₁.declared e.1 := hadded ▸ hcompletes.declaresPath (List.mem_map_of_mem he)
        dsimp only
        rw [memberCall_append hgrouped hgrouped' hmore hdeclares]
      show spans ++ [_] = spansOf ps₂ naming (done ++ [(name, literal)])
      rw [hspans, ← hkept, spansOf, spansOf, List.map_append, List.map_singleton]
    · rw [hmore, hadded, List.map_append, List.append_assoc]
  · exact ⟨hps, rfl, [], by simp, List.Sublist.refl _, List.nodup_nil, by simp⟩

/-- The URL with all its calls made from parameters that have all placeholders. -/
def urlOf (ps : Parameters) (naming : Naming) (scanned : String × List (String × String))
    (schemes : List (Scalar × SecurityBinding)) : UrlTemplate :=
  urlWith scanned.1 (spansOf ps naming scanned.2) (queryOf ps naming schemes)

end OperationBinding
end ClientBindings

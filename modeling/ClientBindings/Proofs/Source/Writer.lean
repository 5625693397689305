import ClientBindings.Proofs.Source.Drafting
import ClientBindings.Proofs.Source.Opening

/-! The writer keeps the invariant of the draft. Whatever it writes for a type is an annotation of known
names, and whatever it declares for an alias is closed; both at every depth of nesting. -/

namespace ClientBindings

open Draft

namespace Scope

/-- Aliases stand under their names and say what can be written. -/
structure WellScoped (scope : Scope) (naming : Naming) (words : List String) : Prop where
  keyed : ∀ e ∈ scope.aliases, e.1 = e.2.name
  fits : ∀ e ∈ scope.aliases, ∀ leaf ∈ e.2.leaves, scope.FitsLeaf naming words leaf

section
variable {scope : Scope} {naming : Naming} {words : List String}

theorem Fits.items {items : TypeNode} (h : scope.Fits naming words (.array items)) : scope.Fits naming words items := h

theorem Fits.field {fields : List Field} {index : Option TypeNode} (h : scope.Fits naming words (.object fields index)) :
    ∀ f ∈ fields, scope.Fits naming words f.type :=
  fun f hf leaf hleaf => h leaf (List.mem_append_left _ (TypeNode.mem_leavesOfFields.mpr ⟨f, hf, hleaf⟩))

theorem Fits.values {fields : List Field} {values : TypeNode}
    (h : scope.Fits naming words (.object fields (some values))) : scope.Fits naming words values :=
  fun leaf hleaf => h leaf (List.mem_append_right _ hleaf)

theorem Fits.members {ts : List TypeNode} (h : scope.Fits naming words (.union ts)) :
    ∀ t ∈ ts, scope.Fits naming words t :=
  fun t ht leaf hleaf => h leaf (TypeNode.mem_leavesOfAll.mpr ⟨t, ht, hleaf⟩)

theorem fits_intersection_iff {ts : List TypeNode} :
    scope.Fits naming words (.intersection ts) ↔ ∀ t ∈ ts, scope.Fits naming words t := by
  constructor
  · exact fun h t ht leaf hleaf => h leaf (TypeNode.mem_leavesOfAll.mpr ⟨t, ht, hleaf⟩)
  · intro h leaf hleaf
    obtain ⟨t, ht, hleaf⟩ := TypeNode.mem_leavesOfAll.mp hleaf
    exact h t ht leaf hleaf

theorem passesDown_fits : TypeNode.PassesDown (scope.Fits naming words) where
  field _ _ h := h.field
  member _ h := fits_intersection_iff.mp h

theorem WellScoped.fits_fieldsFor (h : scope.WellScoped naming words) {barred : List String} {turns : Nat}
    {t : TypeNode} {fields : List Field} (ht : scope.Fits naming words t)
    (heq : scope.fieldsFor barred turns t = some fields) : ∀ f ∈ fields, scope.Fits naming words f.type :=
  passesDown_fits.fieldsFor (fun _ _ _ _ _ hlookup => h.fits _ (Entries.mem_of_lookup hlookup)) ht heq

end

end Scope

theorem Field.mem_of_mem_distinct {fields kept : List Field} (h : Field.distinct fields = .ok kept) {f : Field}
    (hf : f ∈ kept) : f ∈ fields := by
  simp only [Field.distinct, Result.bind_eq_ok_iff, Result.pure_eq_ok_iff] at h
  obtain ⟨keyed, hkeyed, rfl⟩ := h
  obtain ⟨e, he, rfl⟩ := List.mem_map.mp hf
  obtain ⟨g, hg, heq⟩ := List.mem_map.mp (Entries.snd_mem_of_mem_merge he)
  obtain ⟨field, hfield, hkey⟩ := Result.exists_of_mem_mapM hkeyed hg
  simp only [Result.bind_eq_ok_iff, Result.pure_eq_ok_iff] at hkey
  obtain ⟨key, _, rfl⟩ := hkey
  exact heq ▸ hfield

/-! ## Members of an intersection -/

/-- What an intersection is taken apart into: bases that are aliases, and fields that can be written. -/
def SplitFits (scope : Scope) (naming : Naming) (words : List String) (found : Option (List String × List Field)) : Prop :=
  ∀ bases fields, found = some (bases, fields) →
    (∀ base ∈ bases, ∃ e ∈ scope.aliases, base = scope.nameOf e.1) ∧ ∀ f ∈ fields, scope.Fits naming words f.type

section
variable {scope : Scope} {naming : Naming} {words : List String} {found : Option (List String × List Field)}

theorem splitFits_nil : SplitFits scope naming words (some ([], [])) := by
  intro bases fields heq
  obtain ⟨rfl, rfl⟩ := Prod.mk.inj (Option.some.inj heq)
  exact ⟨fun _ hb => absurd hb List.not_mem_nil, fun _ hf => absurd hf List.not_mem_nil⟩

theorem SplitFits.consBase (h : SplitFits scope naming words found) {e : String × Alias} (he : e ∈ scope.aliases) :
    SplitFits scope naming words (found.map fun p => (scope.nameOf e.1 :: p.1, p.2)) := by
  intro bases fields hmap
  obtain ⟨p, rfl, heq⟩ := Option.map_eq_some_iff.mp hmap
  obtain ⟨rfl, rfl⟩ := Prod.mk.inj heq
  obtain ⟨hbases, hfields⟩ := h _ _ rfl
  refine ⟨?_, hfields⟩
  intro base hmem
  rcases List.mem_cons.mp hmem with rfl | hmem
  · exact ⟨e, he, rfl⟩
  · exact hbases base hmem

theorem SplitFits.consFields (h : SplitFits scope naming words found) {own : List Field}
    (hown : ∀ f ∈ own, scope.Fits naming words f.type) :
    SplitFits scope naming words (found.map fun p => (p.1, own ++ p.2)) := by
  intro bases fields hmap
  obtain ⟨p, rfl, heq⟩ := Option.map_eq_some_iff.mp hmap
  obtain ⟨rfl, rfl⟩ := Prod.mk.inj heq
  obtain ⟨hbases, hfields⟩ := h _ _ rfl
  refine ⟨hbases, ?_⟩
  intro f hf
  rcases List.mem_append.mp hf with hf | hf
  · exact hown f hf
  · exact hfields f hf

end

namespace TypeWriter

open TypeText

variable {scope : Scope} {naming : Naming} {words : List String} {w : TypeWriter} {s t : Draft} {used : List String}

/-- A writer that keeps the invariant, whatever names are in use, and names nothing unknown. -/
structure Keeps (scope : Scope) (naming : Naming) (words : List String) (w : TypeWriter) : Prop where
  render : ∀ type hint s text t used, scope.Fits naming words type → Sound scope naming words s used →
    Runs (w.render type hint) s text t →
    Sound scope naming words t used ∧ s.inline <+: t.inline ∧ Annotation (Beside (scope.Knows naming t) words) text
  declaration : ∀ e ∈ scope.aliases, ∀ s d t used, Sound scope naming words s used →
    Runs (w.declaration e.2) s d t →
    Sound scope naming words t used ∧ s.inline <+: t.inline ∧
      d.name = scope.nameOf e.1 ∧ d.Closed (scope.Knows naming t) words

section
variable (h : w.Keeps scope naming words)
include h

theorem Keeps.field {owner : String} {isQuoted : Bool} {f : Field} {d : FieldDeclaration}
    (hf : scope.Fits naming words f.type) (hs : Sound scope naming words s used)
    (hrun : Runs (w.field owner isQuoted f) s d t) :
    Sound scope naming words t used ∧ s.inline <+: t.inline ∧ Annotation (Beside (scope.Knows naming t) words) d.type := by
  obtain ⟨part, text, doc, -, hrender, rfl⟩ := runs_field hrun
  obtain ⟨ht, hgrows, htext⟩ := h.render _ _ _ _ _ _ hf hs hrender
  refine ⟨ht, hgrows, Annotation.optional knows_imported ?_ f.required⟩
  split
  · exact .quoted htext
  · exact htext

/-- The record is closed but for its bases, which are up to the caller. -/
theorem Keeps.record {name : String} {fields : List Field} {doc : Data} {bases : List String}
    {d : RecordDeclaration} (hfields : ∀ f ∈ fields, scope.Fits naming words f.type) (hs : Sound scope naming words s used)
    (hrun : Runs (w.record name fields doc bases) s d t) :
    Sound scope naming words t used ∧ s.inline <+: t.inline ∧ d.name = name ∧ d.bases = bases ∧
      ∀ text ∈ d.annotations, Annotation (Beside (scope.Knows naming t) words) text := by
  simp only [TypeWriter.record, Runs.bind_iff, Runs.pure_iff, Runs.lift_iff] at hrun
  obtain ⟨_, _, ⟨_, rfl⟩, declared, _, hdeclared, rfl, rfl⟩ := hrun
  obtain ⟨ht, hgrows, hannotations⟩ := Runs.mapM_induct (fun u => Sound scope naming words u used)
    Draft.inline (fun u (f : FieldDeclaration) => Annotation (Beside (scope.Knows naming u) words) f.type)
    (fun _ _ _ huv hf => hf.mono (Beside.mono (knows_mono huv)))
    (fun f hf u d v hu hfield => h.field (hfields f hf) hu hfield) hs hdeclared
  refine ⟨ht, hgrows, rfl, rfl, ?_⟩
  intro text htext
  obtain ⟨f, hf, rfl⟩ := List.mem_map.mp htext
  exact hannotations f hf

theorem Keeps.recordAlone {name : String} {fields : List Field} {doc : Data} {d : RecordDeclaration}
    (hfields : ∀ f ∈ fields, scope.Fits naming words f.type) (hs : Sound scope naming words s used)
    (hrun : Runs (w.record name fields doc []) s d t) :
    Sound scope naming words t used ∧ s.inline <+: t.inline ∧ d.name = name ∧
      (Declaration.record d).Closed (scope.Knows naming t) words := by
  obtain ⟨ht, hgrows, hname, hbases, hannotations⟩ := h.record hfields hs hrun
  refine ⟨ht, hgrows, hname, hannotations, fun base hbase => ?_⟩
  rw [Declaration.bases, hbases] at hbase
  exact absurd hbase List.not_mem_nil

/-- Only aliases are bases. -/
theorem Keeps.isBase {type : TypeNode} {found : Bool} (hs : Sound scope naming words s used)
    (hrun : Runs (w.isBase scope type) s found t) :
    Sound scope naming words t used ∧ s.inline <+: t.inline ∧
      (found = true → ∃ e ∈ scope.aliases, ∃ pointer, type = .reference e.1 pointer) := by
  unfold TypeWriter.isBase at hrun
  split at hrun
  case h_2 =>
    obtain ⟨rfl, rfl⟩ := Runs.pure_iff.mp hrun
    exact ⟨hs, List.prefix_refl _, fun hfound => nomatch hfound⟩
  rename_i name pointer
  split at hrun
  case h_2 =>
    obtain ⟨rfl, rfl⟩ := Runs.pure_iff.mp hrun
    exact ⟨hs, List.prefix_refl _, fun hfound => nomatch hfound⟩
  rename_i a _ _ _ _ hlookup
  have hmem := Entries.mem_of_lookup hlookup
  obtain ⟨d, u, hd, hrun⟩ := Runs.bind_iff.mp hrun
  obtain ⟨hu, hgrows, _⟩ := h.declaration _ hmem s d u used hs hd
  have hstate : t = u := by
    cases d <;> exact (Runs.pure_iff.mp hrun).2
  exact ⟨hstate ▸ hu, hstate ▸ hgrows, fun _ => ⟨_, hmem, pointer, rfl⟩⟩

theorem Keeps.split {members : List TypeNode} {found : Option (List String × List Field)}
    (hmembers : ∀ m ∈ members, scope.Fits naming words m) (hs : Sound scope naming words s used)
    (hrun : Runs (w.split scope members) s found t) :
    Sound scope naming words t used ∧ s.inline <+: t.inline ∧ SplitFits scope naming words found := by
  induction members generalizing s found with
  | nil =>
    obtain ⟨rfl, rfl⟩ := Runs.pure_iff.mp hrun
    exact ⟨hs, List.prefix_refl _, splitFits_nil⟩
  | cons m ms ih =>
    have hms : ∀ n ∈ ms, scope.Fits naming words n := fun n hn => hmembers n (List.mem_cons_of_mem m hn)
    obtain ⟨isBase, u, hbase, hrun⟩ := Runs.bind_iff.mp hrun
    obtain ⟨hu, hgrows, halias⟩ := h.isBase hs hbase
    split at hrun
    case isTrue hfound =>
      obtain ⟨e, he, pointer, rfl⟩ := halias hfound
      obtain ⟨below, v, hbelow, hpure⟩ := Runs.bind_iff.mp hrun
      obtain ⟨rfl, rfl⟩ := Runs.pure_iff.mp hpure
      obtain ⟨ht, hgrows', hfits⟩ := ih hms hu hbelow
      exact ⟨ht, hgrows.trans hgrows', hfits.consBase he⟩
    case isFalse =>
      split at hrun
      · obtain ⟨below, v, hbelow, hpure⟩ := Runs.bind_iff.mp hrun
        obtain ⟨rfl, rfl⟩ := Runs.pure_iff.mp hpure
        obtain ⟨ht, hgrows', hfits⟩ := ih hms hu hbelow
        exact ⟨ht, hgrows.trans hgrows', hfits.consFields (hmembers _ List.mem_cons_self).field⟩
      · obtain ⟨rfl, rfl⟩ := Runs.pure_iff.mp hrun
        exact ⟨hu, hgrows, fun _ _ heq => nomatch heq⟩

/-- Without bases a record is closed as soon as its annotations are. -/
theorem Keeps.merged {name : String} {type : TypeNode} {doc : Data} {found : Option RecordDeclaration}
    (hscope : scope.WellScoped naming words) (htype : scope.Fits naming words type) (hs : Sound scope naming words s used)
    (hrun : Runs (w.merged scope name type doc) s found t) :
    Sound scope naming words t used ∧ s.inline <+: t.inline ∧
      ∀ d, found = some d → d.name = name ∧ (Declaration.record d).Closed (scope.Knows naming t) words := by
  simp only [TypeWriter.merged, Runs.bind_iff, Runs.get_iff] at hrun
  obtain ⟨_, _, ⟨rfl, rfl⟩, hrun⟩ := hrun
  split at hrun
  case h_3 =>
    rename_i fields hne heq
    simp only [Runs.bind_iff, Runs.pure_iff, Runs.lift_iff] at hrun
    obtain ⟨kept, _, ⟨hkept, rfl⟩, d, _, hrecord, rfl, rfl⟩ := hrun
    have hfits := hscope.fits_fieldsFor htype heq
    obtain ⟨ht, hgrows, hrecord⟩ :=
      h.recordAlone (fun f hf => hfits f (Field.mem_of_mem_distinct hkept hf)) hs hrecord
    refine ⟨ht, hgrows, ?_⟩
    rintro _ ⟨⟩
    exact hrecord
  all_goals
    obtain ⟨rfl, rfl⟩ := Runs.pure_iff.mp hrun
    refine ⟨hs, List.prefix_refl _, ?_⟩
    rintro _ ⟨⟩

theorem Keeps.compose {name : String} {members : List TypeNode} {doc : Data} {found : Option RecordDeclaration}
    (hscope : scope.WellScoped naming words) (hmembers : ∀ m ∈ members, scope.Fits naming words m)
    (hs : Sound scope naming words s used) (hrun : Runs (w.compose scope name members doc) s found t) :
    Sound scope naming words t used ∧ s.inline <+: t.inline ∧
      ∀ d, found = some d → d.name = name ∧ (Declaration.record d).Closed (scope.Knows naming t) words := by
  obtain ⟨parts, u, hsplit, hrun⟩ := Runs.bind_iff.mp hrun
  obtain ⟨hu, hgrows, hparts⟩ := h.split hmembers hs hsplit
  have hmerged : ∀ {v : Draft}, Sound scope naming words v used → u.inline <+: v.inline →
      Runs (w.merged scope name (.intersection members) doc) v found t → _ := fun hv huv hrun =>
    let ⟨ht, hvt, hfound⟩ := h.merged hscope (Scope.fits_intersection_iff.mpr hmembers) hv hrun
    And.intro ht (And.intro (hgrows.trans (huv.trans hvt)) hfound)
  split at hrun
  case h_3 =>
    rename_i bases fields _
    obtain ⟨hbases, hfields⟩ := hparts bases fields rfl
    obtain ⟨d, v, hrecord, hrun⟩ := Runs.bind_iff.mp hrun
    obtain ⟨hv, huv, hname, hdbases, hannotations⟩ := h.record hfields hu hrecord
    split at hrun
    -- The attempt with bases is given up, but the records it declared on the way stay.
    · exact hmerged hv huv hrun
    · obtain ⟨rfl, rfl⟩ := Runs.pure_iff.mp hrun
      refine ⟨hv, hgrows.trans huv, ?_⟩
      rintro _ ⟨⟩
      refine ⟨hname, hannotations, ?_⟩
      intro base hbase
      rw [Declaration.bases, hdbases] at hbase
      exact Or.inr (Or.inl (hbases base hbase))
  all_goals exact hmerged hu (List.prefix_refl _) hrun

theorem Keeps.union {members : List TypeNode} {hint text : String} (hfits : scope.Fits naming words (.union members))
    (hs : Sound scope naming words s used) (hrun : Runs (w.union members hint) s text t) :
    Sound scope naming words t used ∧ s.inline <+: t.inline ∧ Annotation (Beside (scope.Knows naming t) words) text := by
  obtain ⟨u, _, hrun, hpure⟩ := Runs.bind_iff.mp hrun
  obtain ⟨rfl, rfl⟩ := Runs.pure_iff.mp hpure
  have hempty : Union.Closed (Beside (scope.Knows naming s) words) {} :=
    ⟨fun p hp => absurd hp List.not_mem_nil, fun p hp => absurd hp List.not_mem_nil⟩
  suffices hfold : Sound scope naming words t used ∧ s.inline <+: t.inline ∧ u.Closed (Beside (scope.Knows naming t) words) from
    ⟨hfold.1, hfold.2.1, hfold.2.2.text knows_imported⟩
  refine Runs.foldlM_induct (fun u => Sound scope naming words u used) Draft.inline
    (fun s u => u.Closed (Beside (scope.Knows naming s) words)) ?_ hs hempty hrun
  intro m hmem u s v r hs hu hstep
  have hm := TypeNode.forall_mem_flattenAll (fun _ h => Scope.Fits.members h) hfits.members hmem
  split at hstep
  · rename_i literal
    obtain ⟨-, rfl, rfl⟩ := Runs.guarded_iff.mp hstep
    obtain ⟨hplain, hword⟩ := hm _ (List.mem_singleton_self _)
    exact ⟨hs, List.prefix_refl _, hu.withLiteral hplain fun n hn => .inr (hword n hn)⟩
  · simp only [Runs.bind_iff, Runs.pure_iff] at hstep
    obtain ⟨part, _, hrender, rfl, rfl⟩ := hstep
    obtain ⟨hr, hgrows, hpart⟩ := h.render _ _ _ _ _ _ hm hs hrender
    exact ⟨hr, hgrows, (hu.mono (Beside.mono (knows_mono hgrows))).addPart hpart⟩

end

/-- A hint becomes the name of a record that is declared where it stands. -/
theorem runs_claimHint {hint n : String} (hs : Sound scope naming words s used) (h : Runs (claimHint hint) s n t) :
    Sound scope naming words t (n :: used) ∧ t.inline = s.inline := by
  refine runs_claim hs ?_ h
  exact Identifier.isValid_nonEmpty (Identifier.normalize_isNameOrEmpty hint) (by decide +kernel)

theorem runs_declareInline {d : RecordDeclaration} {text : String} (hs : Sound scope naming words s (d.name :: used))
    (hd : (Declaration.record d).Closed (scope.Knows naming s) words) (h : Runs (declareInline d) s text t) :
    Sound scope naming words t used ∧ s.inline <+: t.inline ∧ Annotation (Beside (scope.Knows naming t) words) text := by
  obtain ⟨_, u, hadd, hpure⟩ := Runs.bind_iff.mp h
  obtain ⟨rfl, rfl⟩ := Runs.pure_iff.mp hpure
  obtain ⟨ht, hgrows, hmem⟩ := runs_addInline hs hd hadd
  exact ⟨ht, hgrows, .name (.inl (Or.inr (Or.inr (List.mem_map_of_mem hmem))))⟩

/-- A placeholder names nothing. -/
theorem runs_placeholder {name : String} {a : Alias} {d : Declaration} (hs : Sound scope naming words s used)
    (hrun : Runs (placeholder name a) s d t) :
    Sound scope naming words t used ∧ s.inline <+: t.inline ∧ d.name = name ∧ d.Closed (scope.Knows naming t) words := by
  unfold placeholder at hrun
  split at hrun
  · simp only [Runs.bind_iff, Runs.pure_iff, Runs.lift_iff] at hrun
    obtain ⟨_, _, ⟨_, rfl⟩, rfl, rfl⟩ := hrun
    exact ⟨hs, List.prefix_refl _, rfl, fun _ htext => absurd htext List.not_mem_nil,
      fun _ hbase => absurd hbase List.not_mem_nil⟩
  · obtain ⟨rfl, rfl⟩ := Runs.pure_iff.mp hrun
    refine ⟨hs, List.prefix_refl _, rfl, ?_, fun _ hbase => absurd hbase List.not_mem_nil⟩
    intro text htext
    obtain rfl : text = "Any" := List.mem_singleton.mp htext
    exact .name (knows_imported _ (by decide))

theorem closed_synonym {name text : String} {doc : Data} (h : Annotation (Beside (scope.Knows naming t) words) text) :
    (Declaration.synonym ⟨name, text, doc⟩).Closed (scope.Knows naming t) words where
  annotations _ htext := List.mem_singleton.mp htext ▸ h
  bases _ hbase := absurd hbase List.not_mem_nil

section
variable (h : w.Keeps scope naming words) (hscope : scope.WellScoped naming words)
include h hscope

theorem Keeps.renderWith {type : TypeNode} {hint text : String} (htype : scope.Fits naming words type)
    (hs : Sound scope naming words s used) (hrun : Runs (w.renderWith scope type hint) s text t) :
    Sound scope naming words t used ∧ s.inline <+: t.inline ∧ Annotation (Beside (scope.Knows naming t) words) text := by
  have hpure : ∀ {u : Draft} {name : String}, Sound scope naming words u used → s.inline <+: u.inline →
      Annotation (Beside (scope.Knows naming u) words) name → Runs (pure name : M String) u text t →
      Sound scope naming words t used ∧ s.inline <+: t.inline ∧ Annotation (Beside (scope.Knows naming t) words) text := by
    intro u name hu hgrows hname hrun
    obtain ⟨rfl, rfl⟩ := Runs.pure_iff.mp hrun
    exact ⟨hu, hgrows, hname⟩
  have hplain : ∀ {name : String}, Annotation (Beside (scope.Knows naming s) words) name → Runs (pure name : M String) s text t →
      _ := fun hname hrun => hpure hs (List.prefix_refl _) hname hrun
  unfold TypeWriter.renderWith at hrun
  split at hrun
  case h_1 => exact hplain (.name (knows_imported _ (by decide))) hrun
  case h_2 => exact hplain (.name (knows_imported _ (by decide))) hrun
  case h_3 p => exact hplain (.primitive knows_imported p) hrun
  case h_4 v =>
    obtain ⟨-, rfl, rfl⟩ := Runs.guarded_iff.mp hrun
    obtain ⟨hv, hword⟩ := htype _ (List.mem_singleton_self _)
    exact ⟨hs, List.prefix_refl _, .literal knows_imported hv fun n hn => .inr (hword n hn)⟩
  case h_5 items =>
    obtain ⟨inner, u, hinner, hrun⟩ := Runs.bind_iff.mp hrun
    obtain ⟨hu, hgrows, hinner⟩ := h.render _ _ _ _ _ _ htype.items hs hinner
    exact hpure hu hgrows (.listOf knows_imported hinner) hrun
  case h_6 values =>
    obtain ⟨inner, u, hinner, hrun⟩ := Runs.bind_iff.mp hrun
    obtain ⟨hu, hgrows, hinner⟩ := h.render _ _ _ _ _ _ htype.values hs hinner
    exact hpure hu hgrows (.mappingTo knows_imported hinner) hrun
  case h_7 => exact hplain (.mapping knows_imported) hrun
  case h_8 fields index _ _ =>
    split at hrun
    · exact hplain (.mapping knows_imported) hrun
    · simp only [Runs.bind_iff] at hrun
      obtain ⟨name, u, hclaim, d, v, hrecord, hdeclare⟩ := hrun
      obtain ⟨hu, hinline⟩ := runs_claimHint hs hclaim
      obtain ⟨hv, hgrows, rfl, hclosed⟩ := h.recordAlone htype.field hu hrecord
      obtain ⟨ht, hgrows', htext⟩ := runs_declareInline hv hclosed hdeclare
      exact ⟨ht, hinline ▸ hgrows.trans hgrows', htext⟩
  case h_9 members =>
    split at hrun
    · exact hplain (.mapping knows_imported) hrun
    · simp only [Runs.bind_iff] at hrun
      obtain ⟨name, u, hclaim, found, v, hcompose, hrun⟩ := hrun
      obtain ⟨hu, hinline⟩ := runs_claimHint hs hclaim
      obtain ⟨hv, hgrows, hfound⟩ :=
        h.compose hscope (Scope.fits_intersection_iff.mp htype) hu hcompose
      rw [hinline] at hgrows
      cases found with
      -- The name was claimed for a record that there is none of.
      | none => exact hpure hv.drop hgrows (.mapping knows_imported) hrun
      | some d =>
        obtain ⟨rfl, hclosed⟩ := hfound d rfl
        obtain ⟨ht, hgrows', htext⟩ := runs_declareInline hv hclosed hrun
        exact ⟨ht, hgrows.trans hgrows', htext⟩
  case h_10 members => exact h.union htype hs hrun
  case h_11 name pointer =>
    have hmem : name ∈ scope.aliases.map Prod.fst := (htype _ (List.mem_singleton_self _)).1
    obtain ⟨e, he, rfl⟩ := List.mem_map.mp hmem
    exact hplain (.name (.inl (Or.inr (Or.inl ⟨e, he, rfl⟩)))) hrun
  case h_12 name =>
    obtain rfl : name = naming.requestConfigType := (htype _ (List.mem_singleton_self _)).1
    have hprovided : naming.requestConfigType ∈ Module.providedNames naming :=
      List.mem_append_right _ List.mem_cons_self
    exact hplain (.name (.inl (Or.inl hprovided))) hrun

theorem Keeps.make {name : String} {a : Alias} {d : Declaration}
    (ha : ∀ leaf ∈ a.leaves, scope.FitsLeaf naming words leaf) (hs : Sound scope naming words s used)
    (hrun : Runs (w.make scope name a) s d t) :
    Sound scope naming words t used ∧ s.inline <+: t.inline ∧ d.name = name ∧ d.Closed (scope.Knows naming t) words := by
  unfold TypeWriter.make at hrun
  split at hrun
  case h_1 =>
    obtain ⟨rfl, rfl⟩ := runs_enumeration hrun
    exact ⟨hs, List.prefix_refl _, rfl, fun _ htext => absurd htext List.not_mem_nil,
      fun _ hbase => absurd hbase List.not_mem_nil⟩
  case h_2 f fields index comment =>
    simp only [Runs.bind_iff, Runs.pure_iff] at hrun
    obtain ⟨r, _, hrecord, rfl, rfl⟩ := hrun
    have hfits : scope.Fits naming words (.object (f :: fields) index) := ha
    exact h.recordAlone hfits.field hs hrecord
  case h_3 members comment =>
    simp only [Runs.bind_iff] at hrun
    obtain ⟨found, u, hcompose, hrun⟩ := hrun
    obtain ⟨hu, hgrows, hfound⟩ := h.compose hscope (Scope.fits_intersection_iff.mp ha) hs hcompose
    cases found with
    | none =>
      obtain ⟨rfl, rfl⟩ := Runs.pure_iff.mp hrun
      exact ⟨hu, hgrows, rfl, closed_synonym (.mapping knows_imported)⟩
    | some r =>
      obtain ⟨rfl, rfl⟩ := Runs.pure_iff.mp hrun
      obtain ⟨hname, hclosed⟩ := hfound r rfl
      exact ⟨hu, hgrows, hname, hclosed⟩
  case h_4 type comment _ _ =>
    simp only [Runs.bind_iff, Runs.pure_iff] at hrun
    obtain ⟨text, _, hrender, rfl, rfl⟩ := hrun
    obtain ⟨ht, hgrows, htext⟩ := h.render _ _ _ _ _ _ ha hs hrender
    exact ⟨ht, hgrows, rfl, closed_synonym htext⟩

theorem Keeps.declare {e : String × Alias} {d : Declaration} (he : e ∈ scope.aliases)
    (hs : Sound scope naming words s used) (hrun : Runs (w.declare scope e.2) s d t) :
    Sound scope naming words t used ∧ s.inline <+: t.inline ∧
      d.name = scope.nameOf e.1 ∧ d.Closed (scope.Knows naming t) words := by
  have hkey := hscope.keyed e he
  obtain ⟨_, s, hget, hdeclare⟩ := Runs.bind_iff.mp hrun
  obtain ⟨rfl, rfl⟩ := Runs.get_iff.mp hget
  split at hdeclare
  · rename_i hlookup
    obtain ⟨rfl, rfl⟩ := Runs.pure_iff.mp hdeclare
    obtain ⟨hname, hclosed⟩ := hs.declared _ (Entries.mem_of_lookup hlookup)
    exact ⟨hs, List.prefix_refl _, hkey ▸ hname, hclosed⟩
  rw [hkey]
  split at hdeclare
  · exact runs_placeholder hs hdeclare
  simp only [Runs.bind_iff, Runs.modify_iff, Runs.pure_iff] at hdeclare
  obtain ⟨made, _, hmake, _, _, rfl, rfl, rfl⟩ := hdeclare
  obtain ⟨u, hinner, rfl⟩ := runs_whileDeclaring_iff.mp hmake
  have hopen : Sound scope naming words { s with declaring := e.2.name :: s.declaring } used := hs.congr rfl rfl rfl
  obtain ⟨hu, hgrows, hname, hclosed⟩ := h.make hscope (hscope.fits e he) hopen hinner
  exact ⟨hu.addDeclared hname hclosed, hgrows, hname, hclosed⟩

end

theorem atDepth_keeps (hscope : scope.WellScoped naming words) (depth : Nat) : (atDepth scope depth).Keeps scope naming words := by
  induction depth with
  | zero => exact ⟨fun _ _ _ _ _ _ _ _ h => absurd h Runs.throw_iff, fun _ _ _ _ _ _ _ h => absurd h Runs.throw_iff⟩
  | succ depth ih =>
    constructor
    · exact fun _ _ _ _ _ _ htype hs hrun => ih.renderWith hscope htype hs hrun
    · exact fun _ he _ _ _ _ hs hrun => ih.declare hscope he hs hrun

end TypeWriter

end ClientBindings

import ClientBindings.Proofs.Binding.Coherence
import ClientBindings.Proofs.Binding.Regrouping

/-! Placeholders that no parameter declares are bound when the path is read, after all parameters have been
grouped. Such a placeholder becomes one more member of the path; all other groups, the types that are known
and the reports stay as they are. So the places of parameters that belong to no group are reported once,
however many placeholders follow, and the path decides about nothing but its own group. -/

namespace ClientBindings

/-! ## Runs that differ in their reports -/

theorem Compilation.Knows.of_schema_eq {s t : Compilation} (h : t.schema = s.schema) : s.Knows t := by
  show s.schema.refs <+: t.schema.refs
  exact h ▸ List.prefix_refl _

/-- Computations that yield the same and know the same types after it, whatever else they note. -/
def Compilation.Mirrors {α : Type} (m m' : Compilation.M α) : Prop :=
  ∀ s s' a t, s'.schema = s.schema → Runs m s a t → ∃ t', Runs m' s' a t' ∧ t'.schema = t.schema

namespace Compilation.Mirrors
variable {α β γ : Type}

theorem pure (a : α) : Mirrors (Pure.pure a) (Pure.pure a) := by
  intro s s' b t hs h
  obtain ⟨rfl, rfl⟩ := Runs.pure_iff.mp h
  exact ⟨s', Runs.pure_iff.mpr ⟨rfl, rfl⟩, hs⟩

theorem lift (r : Result α) : Mirrors (liftM r) (liftM r) := by
  intro s s' a t hs h
  obtain ⟨ha, rfl⟩ := Runs.lift_iff.mp h
  exact ⟨s', Runs.lift_iff.mpr ⟨ha, rfl⟩, hs⟩

theorem synthesize (m : Schema.M α) : Mirrors (Compilation.synthesize m) (Compilation.synthesize m) := by
  intro s s' a t hs h
  obtain ⟨schema, hm, rfl⟩ := runs_synthesize_iff.mp h
  exact ⟨{ s' with schema }, runs_synthesize_iff.mpr ⟨schema, hs ▸ hm, rfl⟩, rfl⟩

theorem warn (d d' : Diagnostic) : Mirrors (Compilation.warn d) (Compilation.warn d') := by
  intro s s' a t hs h
  obtain rfl := runs_warn_iff.mp h
  exact ⟨_, runs_warn_iff.mpr rfl, hs⟩

theorem bind {m m' : Compilation.M α} {f f' : α → Compilation.M β} (hm : Mirrors m m') (hf : ∀ a, Mirrors (f a) (f' a)) :
    Mirrors (m >>= f) (m' >>= f') := by
  intro s s' b t hs h
  obtain ⟨a, u, hma, hfa⟩ := Runs.bind_iff.mp h
  obtain ⟨u', hma', hu⟩ := hm s s' a u hs hma
  obtain ⟨t', hfa', ht⟩ := hf a u u' b t hu hfa
  exact ⟨t', Runs.bind_iff.mpr ⟨a, u', hma', hfa'⟩, ht⟩

theorem map {m m' : Compilation.M α} (hm : Mirrors m m') (f : α → β) : Mirrors (f <$> m) (f <$> m') := by
  rw [map_eq_pure_bind, map_eq_pure_bind]
  exact hm.bind fun a => pure (f a)

theorem mapM {f f' : γ → Compilation.M α} (hf : ∀ x, Mirrors (f x) (f' x)) (xs : List γ) :
    Mirrors (xs.mapM f) (xs.mapM f') := by
  induction xs with
  | nil => exact pure []
  | cons x xs ih =>
    rw [List.mapM_cons, List.mapM_cons]
    exact (hf x).bind fun b => ih.bind fun bs => pure (b :: bs)

theorem foldlM {f f' : α → γ → Compilation.M α} (hf : ∀ a x, Mirrors (f a x) (f' a x)) (xs : List γ) (a : α) :
    Mirrors (xs.foldlM f a) (xs.foldlM f' a) := by
  induction xs generalizing a with
  | nil => exact pure a
  | cons x xs ih =>
    rw [List.foldlM_cons, List.foldlM_cons]
    exact (hf a x).bind fun b => ih b

end Compilation.Mirrors

namespace Parameters
variable {document : Data} {naming : Naming} {location : String} {s t u : Compilation} {ps ps' : Parameters}

open Compilation (Mirrors)

theorem mirrors_typeOf (p : Data) : Mirrors (typeOf document p) (typeOf document p) := by
  unfold typeOf
  refine (Mirrors.lift _).bind fun content => ?_
  split
  · exact (Mirrors.lift _).bind fun _ => .synthesize _
  · exact (Mirrors.lift _).bind fun _ => .synthesize _

theorem mirrors_memberOf (key : GroupKey) (placed : List Data) (p : Data) :
    Mirrors (memberOf document key placed p) (memberOf document key placed p) :=
  (Mirrors.lift _).bind fun _ => (Mirrors.lift _).bind fun _ => (mirrors_typeOf p).bind fun _ => .pure _

theorem mirrors_groupOne (other : String) (g : Grouping) (e : Scalar × List Data) :
    Mirrors (groupOne document naming location g e) (groupOne document naming other g e) := by
  unfold groupOne
  split
  · exact (Mirrors.mapM (mirrors_memberOf _ _) _).bind fun _ => .pure _
  · split
    · exact .pure g
    · exact (Mirrors.lift _).bind fun _ => (Mirrors.warn _ _).bind fun _ => .pure _

theorem mirrors_group (other : String) (parameters : List Data) (g : Grouping) :
    Mirrors (group document naming location parameters g) (group document naming other parameters g) :=
  (Mirrors.lift _).bind fun placed => .foldlM (mirrors_groupOne other) placed g

theorem mirrors_bodyGroup (body : Data) : Mirrors (bodyGroup document naming body) (bodyGroup document naming body) :=
  (Mirrors.lift _).bind fun _ => (Mirrors.lift _).bind fun _ => (Mirrors.lift _).bind fun _ =>
    (Mirrors.synthesize _).bind fun _ => .pure _

/-- Where an operation stands decides about nothing but the reports. -/
theorem mirrors_classify (other : String) (operation pathItem : Data) :
    Mirrors (classify document naming location operation pathItem) (classify document naming other operation pathItem) := by
  unfold classify
  refine (Mirrors.lift _).bind fun shared => (Mirrors.lift _).bind fun own => (Mirrors.lift _).bind fun declared =>
    (Mirrors.lift _).bind fun body => (Mirrors.lift _).bind fun bodyFormat =>
    (mirrors_group other declared {}).bind fun located => ?_
  split
  · exact (Mirrors.pure _).bind fun _ => .pure _
  · exact ((mirrors_bodyGroup body).map _).bind fun _ => .pure _

/-! ## Unknown places -/

theorem diagnostics_members {key : GroupKey} {placed ps : List Data} {members : List Member}
    (h : Runs (ps.mapM (memberOf document key placed)) s members t) : t.diagnostics = s.diagnostics := by
  refine Runs.mapM_keeps (fun u => u.diagnostics = s.diagnostics) ?_ rfl h
  intro p _ u m v hu hm
  simp only [memberOf, Runs.bind_iff, Runs.lift_iff, Runs.pure_iff] at hm
  obtain ⟨_, _, ⟨_, rfl⟩, _, _, ⟨_, rfl⟩, type, _, htype, rfl, rfl⟩ := hm
  obtain ⟨_, _, _, _, rfl⟩ := runs_typeOf_iff.mp htype
  exact hu

/-- The first grouping reports the places that it keeps as reported, each of them once. -/
structure Reports (location : String) (places : List Scalar) (g : Grouping) (s t : Compilation) : Prop where
  distinct : g.reported.Pairwise fun a b => ¬ a.same b = true
  given : ∀ place ∈ g.reported, keyOf place = none ∧ place ∈ places
  diagnostics : t.diagnostics =
    s.diagnostics ++ g.reported.map fun place => .unknownParameterLocation place.text location

theorem reports_groups {placed : List (Scalar × List Data)} {g : Grouping}
    (h : Runs (placed.foldlM (groupOne document naming location) {}) s g t) :
    Reports location (placed.map Prod.fst) g s t := by
  refine Runs.foldlM_trace (fun done g u => Reports location (done.map Prod.fst) g s u) ?_
    ⟨.nil, by simp, (List.append_nil _).symm⟩ h
  intro done e g u g' v hg hround
  have hsub : ∀ place, place ∈ done.map Prod.fst → place ∈ (done ++ [e]).map Prod.fst := by simp_all
  cases hkey : keyOf e.1 with
  | some key =>
    obtain ⟨members, hmembers, rfl⟩ := (runs_groupOne_of_place hkey).mp hround
    constructor
    all_goals rw [Grouping.reported_put]
    · exact hg.distinct
    · exact fun place hplace => ⟨(hg.given place hplace).1, hsub place (hg.given place hplace).2⟩
    · rw [diagnostics_members hmembers, hg.diagnostics]
  | none =>
    have hround := (runs_groupOne_of_unknown hkey).mp hround
    split at hround
    case isTrue =>
      obtain ⟨rfl, rfl⟩ := hround
      exact ⟨hg.distinct, fun place hplace => ⟨(hg.given place hplace).1, hsub place (hg.given place hplace).2⟩, hg.diagnostics⟩
    case isFalse hnew =>
      obtain ⟨_, rfl, rfl⟩ := hround
      have hnew : ∀ place ∈ g.reported, ¬ place.same e.1 = true := by simpa using hnew
      refine ⟨?_, ?_, ?_⟩
      · exact List.pairwise_append.mpr ⟨hg.distinct, List.pairwise_singleton _ _, by simpa using hnew⟩
      · intro place hplace
        rcases List.mem_append.mp hplace with hplace | hplace
        · exact ⟨(hg.given place hplace).1, hsub place (hg.given place hplace).2⟩
        · obtain rfl := List.mem_singleton.mp hplace
          exact ⟨hkey, by simp⟩
      · show u.diagnostics ++ _ = s.diagnostics ++ (g.reported ++ [e.1]).map _
        rw [hg.diagnostics, List.map_append, List.append_assoc, List.map_singleton]

/-- The places among those of parameters that belong to no group, and their reports. -/
def ReportsUnknown (location : String) (parameters : List Data) (s t : Compilation) : Prop :=
  ∃ places : List Scalar, places.Pairwise (fun a b => ¬ a.same b = true) ∧
    (∀ place, (∃ other ∈ places, other.same place = true) ↔ keyOf place = none ∧ ∃ p ∈ parameters, isAt place p = true) ∧
    t.diagnostics = s.diagnostics ++ places.map fun place => .unknownParameterLocation place.text location

theorem isAt_of_same {a b : Scalar} {p : Data} (h : isAt a p = true) (hab : a.same b = true) : isAt b p = true :=
  Data.same_trans h (by rwa [Data.same])

theorem reportsUnknown_group {parameters : List Data} {g : Grouping}
    (h : Runs (group document naming location parameters {}) s g t) : ReportsUnknown location parameters s t := by
  simp only [group, Runs.bind_iff, Runs.lift_iff] at h
  obtain ⟨placed, _, ⟨hplaced, rfl⟩, h⟩ := h
  have hreports := reports_groups h
  refine ⟨g.reported, hreports.distinct, fun place => ⟨?_, ?_⟩, hreports.diagnostics⟩
  · rintro ⟨other, hother, hsame⟩
    obtain ⟨hkey, hmem⟩ := hreports.given other hother
    obtain ⟨e, he, rfl⟩ := List.mem_map.mp hmem
    refine ⟨(keyOf_congr hsame).symm.trans hkey, ?_⟩
    obtain ⟨p, hp⟩ := List.exists_mem_of_ne_nil _ (ne_nil_of_mem_byLocation hplaced he)
    rw [snd_eq_of_mem_byLocation hplaced he, List.mem_filter] at hp
    exact ⟨p, hp.1, isAt_of_same hp.2 hsame⟩
  · rintro ⟨hkey, p, hp, hat⟩
    obtain ⟨e, he, hsame⟩ := exists_mem_byLocation hplaced (List.ne_nil_of_mem (List.mem_filter.mpr ⟨hp, hat⟩))
    obtain ⟨other, hother, hsame'⟩ := List.any_eq_true.mp ((reported_groups h).2 e he ((keyOf_congr hsame).trans hkey))
    exact ⟨other, hother, Scalar.same_equivalence.trans hsame' hsame⟩

/-! ## Classified parameters -/

/-- Parameters that an operation was classified into, with placeholders that have come in since, at any later
time of the compilation. -/
inductive Classified (document : Data) (naming : Naming) (location : String) : Parameters → Compilation → Prop
  | classify {operation pathItem : Data} {ps : Parameters} {s t : Compilation}
      (h : Runs (classify document naming location operation pathItem) s ps t) : Classified document naming location ps t
  | addPath {ps ps' : Parameters} {name : String} {s t : Compilation} (hps : Classified document naming location ps s)
      (h : Runs (addPath document naming location ps name) s ps' t) : Classified document naming location ps' t
  | later {ps : Parameters} {s t : Compilation} (hps : Classified document naming location ps s) (h : s.Knows t) :
      Classified document naming location ps t

theorem classify_settled {operation pathItem : Data}
    (h : Runs (classify document naming location operation pathItem) s ps t) :
    Settled document naming ps.declared ps.grouping t ∧ ReportsUnknown location ps.declared s t := by
  simp only [classify, Runs.bind_iff, Runs.lift_iff] at h
  obtain ⟨shared, _, ⟨_, rfl⟩, own, _, ⟨_, rfl⟩, declared, _, ⟨_, rfl⟩, body, _, ⟨_, rfl⟩, _, s, ⟨_, rfl⟩, located, u,
    hgroup, h⟩ := h
  have hnone : MadeOf naming [] {} := fun _ _ => ⟨[], .nil, rfl⟩
  obtain ⟨_, hlocated⟩ := settled_group (madeOf_group hnone hgroup) hgroup
  obtain ⟨places, hdistinct, hgiven, hdiagnostics⟩ := reportsUnknown_group hgroup
  have hconfig : ∀ key, IsPlace key → (configGroup naming).key ≠ key := fun _ hkey => (ne_of_isPlace hkey).2
  split at h
  · simp only [Runs.bind_iff, Runs.pure_iff] at h
    obtain ⟨_, _, ⟨rfl, rfl⟩, rfl, rfl⟩ := h
    exact ⟨hlocated.put hconfig, places, hdistinct, hgiven, hdiagnostics⟩
  · simp only [Runs.bind_iff, Runs.map_iff, Runs.pure_iff, bodyGroup, Runs.lift_iff, Compilation.runs_synthesize_iff] at h
    obtain ⟨_, _, ⟨g, ⟨_, _, ⟨_, rfl⟩, _, _, ⟨_, rfl⟩, _, _, ⟨_, rfl⟩, type, _, ⟨schema, htype, rfl⟩, rfl, rfl⟩, rfl⟩,
      rfl, rfl⟩ := h
    have hbody : ∀ key, IsPlace key → GroupKey.body ≠ key := fun _ hkey => (ne_of_isPlace hkey).1
    refine ⟨((hlocated.later ?_).put hbody).put hconfig, places, hdistinct, hgiven, hdiagnostics⟩
    exact Schema.typeOfAt_grows document _ _ _ _ _ htype

theorem addPath_settled {name : String} (hps : Settled document naming ps.declared ps.grouping s)
    (h : Runs (addPath document naming location ps name) s ps' t) :
    Settled document naming ps'.declared ps'.grouping t := by
  simp only [addPath, Runs.bind_iff, Runs.pure_iff] at h
  obtain ⟨grouping, _, hgroup, rfl, rfl⟩ := h
  exact (settled_group (madeOf_group hps.madeOf hgroup) hgroup).2

theorem Classified.settled (h : Classified document naming location ps s) :
    Settled document naming ps.declared ps.grouping s := by
  induction h with
  | classify h => exact (classify_settled h).1
  | later _ hknows ih => exact ih.later hknows
  | addPath _ h ih => exact addPath_settled ih h

/-! ## A placeholder that comes late -/

/-- Parameters that differ in the path only. -/
structure SameBesidesPath (ps ps' : Parameters) : Prop where
  groups : ∀ key, key ≠ .path → ps'.group? key = ps.group? key
  body : ps'.body = ps.body
  bodyFormat : ps'.bodyFormat = ps.bodyFormat

/-- Parameters with one more member of the path. -/
structure Gains (naming : Naming) (name : String) (ps ps' : Parameters) : Prop extends SameBesidesPath ps ps' where
  path : ∃ before, ps.group? .path = (if before = [] then none else some (.ofMembers naming .path before)) ∧
    ps'.group? .path = some (.ofMembers naming .path (before ++ [placeholder name]))

theorem addPath_gains (h : Settled document naming ps.declared ps.grouping s) {name : String}
    (hnew : .str name ∉ ps.names .path) :
    ∃ ps', Runs (addPath document naming location ps name) s ps' s ∧ ps.Gains naming name ps' := by
  have hfresh : ∀ m ∈ ps.grouping.members .path, m.name ≠ .str name := fun m hm hname =>
    hnew (List.mem_map.mpr ⟨m, hm, hname⟩)
  obtain ⟨g', hrun, hothers, hpath⟩ := h.group_implied hfresh
  refine ⟨{ ps with declared := ps.declared ++ [implied name], grouping := g' }, ?_, ⟨hothers, rfl, rfl⟩, ?_⟩
  · simp only [addPath, Runs.bind_iff, Runs.pure_iff]
    exact ⟨g', s, hrun, rfl, rfl⟩
  · exact ⟨ps.grouping.members .path, (h.membersOf OperationBinding.isPlace_path).1, hpath⟩

theorem SameBesidesPath.refl (ps : Parameters) : ps.SameBesidesPath ps := ⟨fun _ _ => rfl, rfl, rfl⟩

theorem SameBesidesPath.trans {ps₁ ps₂ ps₃ : Parameters} (h : ps₁.SameBesidesPath ps₂) (h' : ps₂.SameBesidesPath ps₃) :
    ps₁.SameBesidesPath ps₃ where
  groups key hkey := (h'.groups key hkey).trans (h.groups key hkey)
  body := h'.body.trans h.body
  bodyFormat := h'.bodyFormat.trans h.bodyFormat

end Parameters

namespace OperationBinding
variable {document : Data} {naming : Naming} {location : String} {security : List SecurityBinding} {s t : Compilation}
variable {ps : Parameters} {site : Site} {operation pathItem : Data} {b : OperationBinding}

open Parameters (Settled SameBesidesPath ReportsUnknown Listed)
open Compilation (Mirrors)

theorem exists_addPlaceholder (h : Settled document naming ps.declared ps.grouping s) (name : String) :
    ∃ ps', Runs (addPlaceholder document naming location ps name) s ps' s ∧ ps.SameBesidesPath ps' ∧
      Settled document naming ps'.declared ps'.grouping s := by
  unfold addPlaceholder
  split
  case isTrue => exact ⟨ps, Runs.pure_iff.mpr ⟨rfl, rfl⟩, .refl ps, h⟩
  case isFalse hnew =>
    have hnew : .str name ∉ ps.names .path := fun hmem =>
      hnew (List.any_eq_true.mpr ⟨.str name, hmem, Item.same_str_iff.mpr rfl⟩)
    obtain ⟨ps', hrun, hgains⟩ : ∃ ps', Runs (Parameters.addPath document naming location ps name) s ps' s ∧
        ps.Gains naming name ps' := Parameters.addPath_gains h hnew
    exact ⟨ps', hrun, hgains.toSameBesidesPath, Parameters.addPath_settled h hrun⟩

/-- All placeholders of any path can be bound, which changes nothing but the group of the path. -/
theorem exists_pathSpans (h : Settled document naming ps.declared ps.grouping s) (found : List (String × String)) :
    ∃ placed, Runs (pathSpans document naming location ps found) s placed s ∧ ps.SameBesidesPath placed.1 := by
  let Bound (placed : Parameters × List UrlSpan) : Prop :=
    ps.SameBesidesPath placed.1 ∧ Settled document naming placed.1.declared placed.1.grouping s
  have hstart : Bound (ps, []) := ⟨.refl ps, h⟩
  have hbound : ∃ placed, Runs (pathSpans document naming location ps found) s placed s ∧ Bound placed := by
    refine Runs.exists_foldlM Bound ?_ hstart
    rintro ⟨name, literal⟩ _ ⟨ps₁, spans⟩ ⟨hsame, hsettled⟩
    obtain ⟨ps₂, hadd, hsame', hsettled'⟩ := exists_addPlaceholder hsettled name
    simp only [Runs.bind_iff, Runs.pure_iff]
    exact ⟨_, ⟨ps₂, s, hadd, rfl, rfl⟩, hsame.trans hsame', hsettled'⟩
  obtain ⟨placed, hrun, hsame, _⟩ := hbound
  exact ⟨placed, hrun, hsame⟩

/-- Whatever the path of an operation is, the bindings of the operation differ in the group of the path only. -/
theorem bind_besides_path (h : Runs (bind document naming security site operation pathItem) s b t) :
    (∃ listed, Listed document operation pathItem listed ∧ ReportsUnknown site.location listed s t) ∧
      ∀ other path s', other.path = .str path → s'.schema = s.schema → ∃ b' t',
        Runs (bind document naming security other operation pathItem) s' b' t' ∧ t'.schema = t.schema ∧
          (∀ key, key ≠ .path → b'.group? key = b.group? key) ∧ b'.bodyFormat = b.bodyFormat := by
  simp only [bind, Runs.bind_iff, Runs.lift_iff, Runs.pure_iff] at h
  obtain ⟨ps, _, hclassify, required, _, ⟨hrequired, rfl⟩, path, u, ⟨hpath, rfl⟩, ⟨ps₁, spans⟩, _, hspans, names, _,
    ⟨hnames, rfl⟩, responses, _, ⟨hresponses, rfl⟩, kind, v, ⟨hkind, rfl⟩, type, _, htype, summary, _, ⟨hsummary, rfl⟩,
    description, _, ⟨hdescription, rfl⟩, deprecated, _, ⟨hdeprecated, rfl⟩, tags, _, ⟨htags, rfl⟩, rfl, rfl⟩ := h
  obtain ⟨hsettled, places, hdistinct, hgiven, hdiagnostics⟩ := Parameters.classify_settled hclassify
  obtain ⟨placed, hrun, hsame⟩ := exists_pathSpans hsettled (Placeholder.scan path).2
  obtain ⟨rfl, rfl⟩ := hspans.eq_of_runs hrun
  obtain ⟨schema, _, heq⟩ := Compilation.runs_synthesize_iff.mp htype
  refine ⟨⟨ps.declared, (Parameters.classify_runs hclassify).2, places, hdistinct, hgiven, heq ▸ hdiagnostics⟩, ?_⟩
  intro other path' s' hother hs
  obtain ⟨u', hclassify', hu⟩ := Parameters.mirrors_classify other.location operation pathItem _ s' ps v hs hclassify
  have hsettled' : Settled document naming ps.declared ps.grouping u' := hsettled.later (.of_schema_eq hu)
  obtain ⟨placed', hrun', hsame'⟩ : ∃ placed', Runs (pathSpans document naming other.location ps
      (Placeholder.scan path').2) u' placed' u' ∧ ps.SameBesidesPath placed'.1 := exists_pathSpans hsettled' _
  obtain ⟨t', htype', ht⟩ := Mirrors.synthesize _ v u' type _ hu htype
  have hpath' : (Data.scalar other.path).asText = .ok path' := by rw [hother]; rfl
  simp only [bind, Runs.bind_iff, Runs.lift_iff, Runs.pure_iff]
  refine ⟨_, t', ⟨ps, u', hclassify', required, _, ⟨hrequired, rfl⟩, path', _, ⟨hpath', rfl⟩, placed', u', hrun', names, _,
    ⟨hnames, rfl⟩, responses, _, ⟨hresponses, rfl⟩, kind, _, ⟨hkind, rfl⟩, type, t', htype', summary, _, ⟨hsummary, rfl⟩,
    description, _, ⟨hdescription, rfl⟩, deprecated, _, ⟨hdeprecated, rfl⟩, tags, _, ⟨htags, rfl⟩, rfl, rfl⟩, ht, ?_, ?_⟩
  · intro key hkey
    show (placed'.1.ordered.find? fun g => g.key == key) = ps₁.ordered.find? fun g => g.key == key
    rw [Parameters.find?_ordered, Parameters.find?_ordered, hsame'.groups key hkey, hsame.groups key hkey]
  · exact hsame'.bodyFormat.trans hsame.bodyFormat.symm

theorem late_binding_local (document : Data) (naming : Naming) :
    (∀ location ps s, Parameters.Classified document naming location ps s → ∀ name, .str name ∉ ps.names .path →
      ∃ ps', Runs (Parameters.addPath document naming location ps name) s ps' s ∧ ps.Gains naming name ps') ∧
    ∀ security site operation pathItem s b t, Runs (bind document naming security site operation pathItem) s b t →
      (∃ listed, Listed document operation pathItem listed ∧ ReportsUnknown site.location listed s t) ∧
      ∀ other path s', other.path = .str path → s'.schema = s.schema → ∃ b' t',
        Runs (bind document naming security other operation pathItem) s' b' t' ∧ t'.schema = t.schema ∧
          (∀ key, key ≠ .path → b'.group? key = b.group? key) ∧ b'.bodyFormat = b.bodyFormat :=
  ⟨fun _ _ _ h _ hnew => Parameters.addPath_gains h.settled hnew, fun _ _ _ _ _ _ _ h => bind_besides_path h⟩

/-- An operation with parameters of a circular type and two that belong nowhere. -/
def traverse : Data := .object [("parameters", .list [
  .object [("name", .str "from"), ("in", .str "query"), ("schema", Schema.refTo "#/a")],
  .object [("name", .str "tab"), ("in", .str "cookie"), ("schema", Schema.refTo "#/b")],
  .object [("name", .str "session"), ("in", .str "cookie")]])]

theorem late_binding_local_traverse :
    (∃ ps t, Runs (Parameters.classify Schema.circle {} "/{x}.get" traverse .null) {} ps t ∧
      t.schema.refs = [("#/a", "A"), ("#/b", "B"), ("#/A", "A2")] ∧
      ∃ ps', Runs (Parameters.addPath Schema.circle {} "/{x}.get" ps "x") t ps' t ∧ ps.Gains {} "x" ps') ∧
    ∃ b t, Runs (bind Schema.circle {} [] ⟨.str "go", .str "/{x}/{y}", "get"⟩ traverse .null) {} b t ∧
      t.diagnostics = [.unknownParameterLocation "cookie" "/{x}/{y}.get"] ∧
      ∃ b' t', Runs (bind Schema.circle {} [] ⟨.str "go", .str "/", "get"⟩ traverse .null) {} b' t' ∧
        t'.schema = t.schema ∧ (∀ key, key ≠ .path → b'.group? key = b.group? key) ∧ b'.bodyFormat = b.bodyFormat := by
  have hclassified : (fun r : Except Failure Parameters × Compilation =>
      (r.1.toOption.map fun ps => (ps.names .path).length, r.2.schema.refs))
      (Id.run ((Parameters.classify Schema.circle {} "/{x}.get" traverse .null).run {})) =
      (some 0, [("#/a", "A"), ("#/b", "B"), ("#/A", "A2")]) := by decide +kernel
  have hbound : (fun r : Except Failure OperationBinding × Compilation => (r.1.isOk, r.2.diagnostics))
      (Id.run ((bind Schema.circle {} [] ⟨.str "go", .str "/{x}/{y}", "get"⟩ traverse .null).run {})) =
      (true, [.unknownParameterLocation "cookie" "/{x}/{y}.get"]) := by decide +kernel
  obtain ⟨hclassified, hrefs⟩ := Prod.mk.inj hclassified
  obtain ⟨hbound, hreported⟩ := Prod.mk.inj hbound
  obtain ⟨ps, t, hrun, hnone⟩ := Runs.exists_of_toOption hclassified
  obtain ⟨b, u, hbind⟩ := Runs.exists_of_isOk hbound
  have hnew : Data.str "x" ∉ ps.names .path := by
    rw [List.length_eq_zero_iff.mp hnone]
    exact List.not_mem_nil
  obtain ⟨hclasses, hbindings⟩ := late_binding_local Schema.circle {}
  refine ⟨⟨ps, t, hrun, ?_, hclasses _ ps t (.classify hrun) "x" hnew⟩, b, u, hbind, ?_,
    (hbindings [] _ traverse .null {} b u hbind).2 ⟨.str "go", .str "/", "get"⟩ "/" {} rfl rfl⟩
  · rw [← hrefs, hrun]
  · rw [← hreported, hbind]

end OperationBinding
end ClientBindings

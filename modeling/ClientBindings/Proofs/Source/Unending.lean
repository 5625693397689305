import ClientBindings.Proofs.Source.Finishing
import ClientBindings.Proofs.Source.Writer

/-! Chains of intersections that do not end. Once all aliases are declared, writing leaves the tables of
aliases as they are, and what it leads to is certain: a type is written only if every intersection in it leads
to others only so often. -/

namespace ClientBindings

open Draft

theorem isEmpty_append {a b : String} (h : a.isEmpty = false) : (a ++ b).isEmpty = false := by
  simp only [String.isEmpty_eq_false_iff, ne_eq, String.append_eq_empty_iff, not_and] at h ⊢
  exact fun ha => absurd ha h

theorem isEmpty_extend_eq_false {hint : String} (part : String) (h : hint.isEmpty = false) :
    (TypeText.extend hint part).isEmpty = false := by
  rw [TypeText.extend, if_neg (Bool.eq_false_iff.mp h), isEmpty_append h]

/-- The tables of aliases are the same. -/
def Draft.SameAliases (s u : Draft) : Prop := u.declared = s.declared ∧ u.declaring = s.declaring

section
variable {s u v : Draft}

theorem Draft.SameAliases.claimHint {hint name : String} (hu : SameAliases s u) (h : Runs (TypeWriter.claimHint hint) u name v) :
    SameAliases s v := by
  obtain ⟨rfl, _⟩ := runs_claim_state h
  exact hu

theorem Draft.SameAliases.declareInline {d : RecordDeclaration} {text : String} (hu : SameAliases s u)
    (h : Runs (TypeWriter.declareInline d) u text v) : SameAliases s v := by
  obtain ⟨_, x, hadd, hpure⟩ := Runs.bind_iff.mp h
  obtain ⟨rfl, rfl⟩ := Runs.pure_iff.mp hpure
  obtain rfl := Runs.modify_iff.mp hadd
  exact hu

end

/-- There is nothing left to declare. -/
def Scope.AllDeclared (scope : Scope) (s : Draft) : Prop :=
  ∀ key a, scope.aliases.lookup key = some a → ∃ d, s.declared.lookup key = some d

namespace TypeWriter

variable {scope : Scope} {s u v : Draft} {w : TypeWriter}

theorem isEmpty_of_runs_claimHint {hint name : String} (h : Runs (claimHint hint) u name v) : name.isEmpty = false := by
  have hvalid : Identifier.isValid name = true := by
    rw [runs_claim_eq h]
    refine Identifier.isValid_freshName (Identifier.isValid_nonEmpty ?_ (by decide +kernel)) _
    exact Identifier.normalize_isNameOrEmpty hint
  rw [Bool.eq_false_iff]
  intro hempty
  rw [String.isEmpty_iff.mp hempty] at hvalid
  cases hvalid

/-- What is done with one member of a union. -/
def unionRound (w : TypeWriter) (hint : String) (u : TypeText.Union) (t : TypeNode) : M TypeText.Union := do
  match t with
  | .literal v => (u.addLiteral v : Result _)
  | t => return u.addPart (← w.render t hint)

/-- A writer that succeeds only with types in which every intersection leads to others only so often. -/
structure Traces (scope : Scope) (s : Draft) (w : TypeWriter) : Prop where
  render : ∀ t hint u text v, SameAliases s u → Runs (w.render t hint) u text v →
    SameAliases s v ∧ (hint.isEmpty = false → scope.Ends s t)
  declaration : ∀ key a, scope.aliases.lookup key = some a → ∀ u d v, SameAliases s u →
    Runs (w.declaration a) u d v → v = u ∧ s.declared.lookup key = some d

section
variable (h : w.Traces scope s)
include h

theorem Traces.record {name : String} {fields : List Field} {doc : Data} {bases : List String} {d : RecordDeclaration}
    (hname : name.isEmpty = false) (hu : SameAliases s u) (hrun : Runs (w.record name fields doc bases) u d v) :
    SameAliases s v ∧ (∀ f ∈ fields, scope.Ends s f.type) ∧ Field.allAttributes fields = .ok (!d.functional) := by
  simp only [TypeWriter.record, Runs.bind_iff, Runs.pure_iff, Runs.lift_iff] at hrun
  obtain ⟨isClass, _, ⟨hclass, rfl⟩, written, _, hwritten, rfl, rfl⟩ := hrun
  have hfield : ∀ (f : Field) x g y, SameAliases s x → Runs (w.field name (!isClass) f) x g y →
      SameAliases s y ∧ scope.Ends s f.type := by
    intro f x g y hx hrun
    obtain ⟨part, text, doc, -, hrender, rfl⟩ := runs_field hrun
    obtain ⟨hy, hends⟩ := h.render _ _ _ _ _ hx hrender
    exact ⟨hy, hends (isEmpty_extend_eq_false part hname)⟩
  refine ⟨Runs.mapM_keeps (SameAliases s) (fun f _ x g y hx hrun => (hfield f x g y hx hrun).1) hu hwritten, ?_, ?_⟩
  · intro f hf
    obtain ⟨x, g, y, hx, hrun⟩ :=
      Runs.exists_round_of_mapM (SameAliases s) (fun f _ x g y hx hrun => (hfield f x g y hx hrun).1) hu hwritten hf
    exact (hfield f x g y hx hrun).2
  · rw [hclass, Bool.not_not]

theorem Traces.isBase {t : TypeNode} {isBase : Bool} (hu : SameAliases s u)
    (hrun : Runs (w.isBase scope t) u isBase v) : v = u ∧ scope.formOf s t = some isBase := by
  unfold TypeWriter.isBase at hrun
  split at hrun
  case h_2 hother =>
    obtain ⟨rfl, rfl⟩ := Runs.pure_iff.mp hrun
    refine ⟨rfl, ?_⟩
    cases t with
    | reference name pointer => exact absurd rfl (hother name pointer)
    | _ => rfl
  rename_i name pointer
  change v = u ∧ scope.form s name = some isBase
  split at hrun
  case h_2 hother =>
    obtain ⟨rfl, rfl⟩ := Runs.pure_iff.mp hrun
    refine ⟨rfl, ?_⟩
    cases hlookup : scope.aliases.lookup name with
    | none => rw [Scope.form, hlookup]
    | some a =>
      rw [Scope.form_eq hlookup]
      cases a with
      | synonym key pointer type comment => exact absurd hlookup (hother _ _ _ _)
      | enumeration => cases s.declared.lookup name <;> rfl
  rename_i a key pointer' type comment hlookup
  obtain ⟨d, x, hd, hrun⟩ := Runs.bind_iff.mp hrun
  obtain ⟨rfl, hdeclared⟩ := h.declaration name _ hlookup u d x hu hd
  rw [Scope.form_eq hlookup, hdeclared]
  cases d with
  | record r =>
    obtain ⟨rfl, rfl⟩ := Runs.pure_iff.mp hrun
    exact ⟨rfl, rfl⟩
  | enumeration | synonym =>
    obtain ⟨rfl, rfl⟩ := Runs.pure_iff.mp hrun
    exact ⟨rfl, rfl⟩

end

/-- What an intersection is taken apart into when all forms are certain. -/
structure SplitIs (scope : Scope) (s : Draft) (ts : List TypeNode) (found : Option (List String × List Field)) :
    Prop where
  unfit : found = none → ¬ scope.MayCompose s ts
  members : ∀ bases fields, found = some (bases, fields) → ∀ t ∈ ts, scope.formOf s t = some true ∨
    ∃ own index, t = .object own index ∧ own ⊆ fields
  nonempty : ∀ bases fields, found = some (bases, fields) → bases ≠ [] ∨ fields ≠ [] →
    ∃ t ∈ ts, scope.formOf s t = some true ∨ ∃ f own index, t = .object (f :: own) index

namespace SplitIs
variable {ts : List TypeNode} {found : Option (List String × List Field)}

theorem nil : SplitIs scope s [] (some ([], [])) where
  unfit h := nomatch h
  members _ _ _ t ht := absurd ht List.not_mem_nil
  nonempty := by
    rintro _ _ ⟨⟩ hne
    exact hne.elim (absurd rfl) (absurd rfl)

theorem consBase (h : SplitIs scope s ts found) {t : TypeNode} (base : String) (ht : scope.formOf s t = some true) :
    SplitIs scope s (t :: ts) (found.map fun p => (base :: p.1, p.2)) where
  unfit hnone hmay := h.unfit (Option.map_eq_none_iff.mp hnone) (List.forall_mem_cons.mp hmay).2
  members bases fields hmap := by
    obtain ⟨p, rfl, hp⟩ := Option.map_eq_some_iff.mp hmap
    obtain ⟨rfl, rfl⟩ := Prod.mk.inj hp
    exact List.forall_mem_cons.mpr ⟨Or.inl ht, h.members _ _ rfl⟩
  nonempty _ _ _ _ := ⟨t, List.mem_cons_self, Or.inl ht⟩

theorem consFields (h : SplitIs scope s ts found) (own : List Field) (index : Option TypeNode) :
    SplitIs scope s (.object own index :: ts) (found.map fun p => (p.1, own ++ p.2)) where
  unfit hnone hmay := h.unfit (Option.map_eq_none_iff.mp hnone) (List.forall_mem_cons.mp hmay).2
  members bases fields hmap := by
    obtain ⟨p, rfl, hp⟩ := Option.map_eq_some_iff.mp hmap
    obtain ⟨rfl, rfl⟩ := Prod.mk.inj hp
    refine List.forall_mem_cons.mpr ⟨Or.inr ⟨own, index, rfl, List.subset_append_left _ _⟩, fun t ht => ?_⟩
    refine (h.members _ _ rfl t ht).imp_right ?_
    rintro ⟨own', index', rfl, hsub⟩
    exact ⟨own', index', rfl, List.Subset.trans hsub (List.subset_append_right _ _)⟩
  nonempty bases fields hmap hne := by
    obtain ⟨p, rfl, hp⟩ := Option.map_eq_some_iff.mp hmap
    obtain ⟨rfl, rfl⟩ := Prod.mk.inj hp
    cases own with
    | cons f own => exact ⟨_, List.mem_cons_self, Or.inr ⟨f, own, index, rfl⟩⟩
    | nil =>
      obtain ⟨t, ht, hsome⟩ := h.nonempty _ _ rfl hne
      exact ⟨t, List.mem_cons_of_mem _ ht, hsome⟩

theorem neither {t : TypeNode} (ht : scope.formOf s t = some false) (hobject : ∀ own index, t ≠ .object own index) :
    SplitIs scope s (t :: ts) none where
  unfit _ hmay := by
    rcases (List.forall_mem_cons.mp hmay).1 with hform | ⟨own, index, heq⟩
    · exact hform ht
    · exact hobject own index heq
  members _ _ h := nomatch h
  nonempty _ _ h := nomatch h

theorem subset_fields (h : SplitIs scope s ts found) {bases : List String} {fields own : List Field}
    {index : Option TypeNode} (hfound : found = some (bases, fields)) (hmem : .object own index ∈ ts) : own ⊆ fields := by
  obtain ⟨own', index', heq, hsub⟩ := (h.members bases fields hfound _ hmem).resolve_left fun h => nomatch h
  cases heq
  exact hsub

/-- What is taken apart into a record in class form is certain to be one. -/
theorem composes (h : SplitIs scope s ts found) {bases : List String} {fields : List Field}
    (hfound : found = some (bases, fields)) (hne : bases ≠ [] ∨ fields ≠ [])
    (hclass : Field.allAttributes fields = .ok true) : scope.Composes s ts where
  members t ht := by
    refine (h.members bases fields hfound t ht).imp_right ?_
    rintro ⟨own, index, rfl, hsub⟩
    rw [Field.allAttributes_eq_ok_true_iff] at hclass
    exact ⟨own, index, rfl, Field.allAttributes_eq_ok_true_iff.mpr fun f hf => hclass f (hsub hf)⟩
  nonempty := h.nonempty bases fields hfound hne

end SplitIs

section
variable (h : w.Traces scope s)
include h

theorem Traces.split {ts : List TypeNode} {found : Option (List String × List Field)} (hu : SameAliases s u)
    (hrun : Runs (w.split scope ts) u found v) : v = u ∧ SplitIs scope s ts found := by
  induction ts generalizing found v with
  | nil =>
    obtain ⟨rfl, rfl⟩ := Runs.pure_iff.mp hrun
    exact ⟨rfl, .nil⟩
  | cons t ts ih =>
    obtain ⟨isBase, x, hbase, hrun⟩ := Runs.bind_iff.mp hrun
    obtain ⟨rfl, hform⟩ := h.isBase hu hbase
    cases isBase with
    | true =>
      cases t with
      | reference name pointer =>
        obtain ⟨below, y, hbelow, hpure⟩ := Runs.bind_iff.mp hrun
        obtain ⟨rfl, rfl⟩ := Runs.pure_iff.mp hpure
        obtain ⟨rfl, hrest⟩ := ih hbelow
        exact ⟨rfl, hrest.consBase _ hform⟩
      | _ => cases hform
    | false =>
      cases t with
      | object own index =>
        obtain ⟨below, y, hbelow, hpure⟩ := Runs.bind_iff.mp hrun
        obtain ⟨rfl, rfl⟩ := Runs.pure_iff.mp hpure
        obtain ⟨rfl, hrest⟩ := ih hbelow
        exact ⟨rfl, hrest.consFields own index⟩
      | _ =>
        obtain ⟨rfl, rfl⟩ := Runs.pure_iff.mp hrun
        exact ⟨rfl, .neither hform fun _ _ heq => nomatch heq⟩

theorem Traces.merged {name : String} {ts : List TypeNode} {doc : Data} {found : Option RecordDeclaration}
    (hname : name.isEmpty = false) (hu : SameAliases s u)
    (hrun : Runs (w.merged scope name (.intersection ts) doc) u found v) : SameAliases s v ∧
      ∀ fields kept, scope.fieldsOf s.declaring (.intersection ts) = some fields → Field.distinct fields = .ok kept →
        ∀ f ∈ kept, scope.Ends s f.type := by
  simp only [TypeWriter.merged, Runs.bind_iff, Runs.get_iff] at hrun
  obtain ⟨_, _, ⟨rfl, rfl⟩, hrun⟩ := hrun
  rw [hu.2] at hrun
  split at hrun
  case h_1 hfound =>
    obtain ⟨rfl, rfl⟩ := Runs.pure_iff.mp hrun
    exact ⟨hu, fun _ _ hsome => absurd (hfound.symm.trans hsome) (by simp)⟩
  case h_2 hfound =>
    obtain ⟨rfl, rfl⟩ := Runs.pure_iff.mp hrun
    refine ⟨hu, fun fields kept hsome hkept f hf => ?_⟩
    obtain rfl := Option.some.inj (hfound.symm.trans hsome)
    exact absurd (Field.mem_of_mem_distinct hkept hf) List.not_mem_nil
  case h_3 fields _ hfound =>
    simp only [Runs.bind_iff, Runs.pure_iff, Runs.lift_iff] at hrun
    obtain ⟨kept, _, ⟨hkept, rfl⟩, d, _, hrecord, rfl, rfl⟩ := hrun
    obtain ⟨hv, hends, _⟩ := h.record hname hu hrecord
    refine ⟨hv, fun fields' kept' hsome hkept' => ?_⟩
    obtain rfl := Option.some.inj (hfound.symm.trans hsome)
    obtain rfl := Except.ok.inj (hkept.symm.trans hkept')
    exact hends

/-- An intersection is written only if those are that it leads to. -/
theorem Traces.compose {name : String} {ts : List TypeNode} {doc : Data} {found : Option RecordDeclaration}
    (hname : name.isEmpty = false) (hu : SameAliases s u) (hrun : Runs (w.compose scope name ts doc) u found v) :
    SameAliases s v ∧ Acc (fun us ts => scope.Opens s ts us) ts := by
  have hmerged : ∀ {y}, SameAliases s y → Runs (w.merged scope name (.intersection ts) doc) y found v →
      (∀ fields index f, scope.MayCompose s ts → .object fields index ∈ ts → f ∈ fields → scope.Ends s f.type) →
      SameAliases s v ∧ Acc (fun us ts => scope.Opens s ts us) ts := by
    intro y hy hrun hown
    obtain ⟨hv, hends⟩ := h.merged hname hy hrun
    refine ⟨hv, Acc.intro _ fun us hopens => ?_⟩
    cases hopens with
    | own hmay hmem hf hus => exact hown _ _ _ hmay hmem hf us hus
    | merged _ hfields hkept hf hus => exact hends _ _ hfields hkept _ hf us hus
  obtain ⟨parts, x, hsplit, hrest⟩ := Runs.bind_iff.mp hrun
  obtain ⟨rfl, hparts⟩ := h.split hu hsplit
  split at hrest
  case h_1 => exact hmerged hu hrest fun _ _ _ hmay => absurd hmay (hparts.unfit rfl)
  case h_2 =>
    refine hmerged hu hrest fun fields index f _ hmem hf => ?_
    exact absurd (hparts.subset_fields rfl hmem hf) List.not_mem_nil
  case h_3 bases fields hne =>
    obtain ⟨d, y, hrecord, hrest⟩ := Runs.bind_iff.mp hrest
    obtain ⟨hy, hends, hclass⟩ := h.record hname hu hrecord
    have hown : ∀ own index f, scope.MayCompose s ts → .object own index ∈ ts → f ∈ own → scope.Ends s f.type :=
      fun own index f _ hmem hf => hends f (hparts.subset_fields rfl hmem hf)
    split at hrest
    · exact hmerged hy hrest hown
    case isFalse hfunctional =>
      obtain ⟨rfl, rfl⟩ := Runs.pure_iff.mp hrest
      refine ⟨hy, Acc.intro _ fun us hopens => ?_⟩
      cases hopens with
      | own hmay hmem hf hus => exact hown _ _ _ hmay hmem hf us hus
      | merged hnot =>
        refine absurd (hparts.composes rfl ?_ (by simpa [hfunctional] using hclass)) hnot
        by_contra hnone
        simp only [not_or, not_not] at hnone
        obtain ⟨rfl, rfl⟩ := hnone
        exact hne rfl rfl

theorem Traces.unionRound {hint : String} {a b : TypeText.Union} {t : TypeNode} (hu : SameAliases s u)
    (hrun : Runs (w.unionRound hint a t) u b v) : SameAliases s v ∧ (hint.isEmpty = false → scope.Ends s t) := by
  unfold TypeWriter.unionRound at hrun
  split at hrun
  · obtain ⟨-, rfl, rfl⟩ := Runs.guarded_iff.mp hrun
    exact ⟨hu, fun _ us hus => absurd hus List.not_mem_nil⟩
  · obtain ⟨part, x, hrender, hpure⟩ := Runs.bind_iff.mp hrun
    obtain ⟨rfl, rfl⟩ := Runs.pure_iff.mp hpure
    exact h.render _ _ _ _ _ hu hrender

theorem Traces.union {members : List TypeNode} {hint text : String} (hu : SameAliases s u)
    (hrun : Runs (w.union members hint) u text v) :
    SameAliases s v ∧ (hint.isEmpty = false → scope.Ends s (.union members)) := by
  obtain ⟨all, x, hfold, hpure⟩ := Runs.bind_iff.mp hrun
  obtain ⟨rfl, rfl⟩ := Runs.pure_iff.mp hpure
  have hkeeps : ∀ t ∈ TypeNode.flattenAll members, ∀ a x b y, SameAliases s x →
      Runs (w.unionRound hint a t) x b y → SameAliases s y := fun _ _ _ _ _ _ hx hrun => (h.unionRound hx hrun).1
  refine ⟨Runs.foldlM_keeps (SameAliases s) hkeeps hu hfold, fun hhint us hus => ?_⟩
  obtain ⟨part, hmem, hus⟩ := TypeNode.exists_part_of_intersectionsOfAll members hus
  obtain ⟨a, x, b, y, hx, hrun⟩ := Runs.exists_round_of_foldlM (SameAliases s) hkeeps hu hfold hmem
  exact (h.unionRound hx hrun).2 hhint us hus

theorem Traces.renderWith {t : TypeNode} {hint text : String} (hu : SameAliases s u)
    (hrun : Runs (w.renderWith scope t hint) u text v) :
    SameAliases s v ∧ (hint.isEmpty = false → scope.Ends s t) := by
  have hplain : ∀ {name : String} {x : Draft}, SameAliases s x → Runs (pure name : M String) x text v → SameAliases s v :=
    fun hx hrun => (Runs.pure_iff.mp hrun).2 ▸ hx
  have hpart : ∀ (part : TypeNode) {ending : String} {wrap : String → String},
      Runs (do return wrap (← w.render part (TypeText.extend hint ending)) : M String) u text v →
      SameAliases s v ∧ (hint.isEmpty = false → scope.Ends s part) := by
    intro part ending wrap hrun
    obtain ⟨inner, x, hinner, hpure⟩ := Runs.bind_iff.mp hrun
    obtain ⟨hx, hends⟩ := h.render _ _ _ _ _ hu hinner
    exact ⟨hplain hx hpure, fun hhint => hends (isEmpty_extend_eq_false ending hhint)⟩
  unfold TypeWriter.renderWith at hrun
  split at hrun
  case h_4 =>
    obtain ⟨-, rfl, rfl⟩ := Runs.guarded_iff.mp hrun
    exact ⟨hu, fun _ us hus => absurd hus List.not_mem_nil⟩
  case h_5 items => exact hpart items hrun
  case h_6 values => exact hpart values hrun
  case h_8 fields index hvalues hempty =>
    split at hrun
    case isTrue hempty => exact ⟨hplain hu hrun, fun hhint => absurd (hempty.symm.trans hhint) (by simp)⟩
    obtain ⟨name, x, hclaim, hrest⟩ := Runs.bind_iff.mp hrun
    obtain ⟨d, y, hrecord, hdeclare⟩ := Runs.bind_iff.mp hrest
    obtain ⟨hy, hends, _⟩ := h.record (isEmpty_of_runs_claimHint hclaim) (hu.claimHint hclaim) hrecord
    refine ⟨hy.declareInline hdeclare, fun _ us hus => ?_⟩
    cases fields with
    | nil =>
      cases index with
      | none => exact absurd rfl (hempty rfl)
      | some values => exact absurd rfl (hvalues values rfl)
    | cons f fields =>
      obtain ⟨g, hg, hus⟩ := TypeNode.mem_intersectionsOfFields.mp hus
      exact hends g hg us hus
  case h_9 members =>
    split at hrun
    case isTrue hempty => exact ⟨hplain hu hrun, fun hhint => absurd (hempty.symm.trans hhint) (by simp)⟩
    obtain ⟨name, x, hclaim, hrest⟩ := Runs.bind_iff.mp hrun
    obtain ⟨found, y, hcompose, hrest⟩ := Runs.bind_iff.mp hrest
    obtain ⟨hy, hends⟩ := h.compose (isEmpty_of_runs_claimHint hclaim) (hu.claimHint hclaim) hcompose
    refine ⟨?_, fun _ us hus => List.mem_singleton.mp hus ▸ hends⟩
    cases found with
    | none => exact hplain hy hrest
    | some d => exact hy.declareInline hrest
  case h_10 members => exact h.union hu hrun
  all_goals exact ⟨hplain hu hrun, fun _ us hus => absurd hus List.not_mem_nil⟩

end

theorem atDepth_traces (hkeyed : scope.Keyed) (hall : scope.AllDeclared s) (depth : Nat) :
    (atDepth scope depth).Traces scope s := by
  induction depth with
  | zero => exact ⟨fun _ _ _ _ _ _ h => absurd h Runs.throw_iff, fun _ _ _ _ _ _ _ h => absurd h Runs.throw_iff⟩
  | succ depth ih =>
    constructor
    · exact fun _ _ _ _ _ hu hrun => ih.renderWith hu hrun
    · intro key a hlookup u d v hu hrun
      obtain rfl := hkeyed key a hlookup
      obtain ⟨kept, hkept⟩ := hall a.name a hlookup
      obtain ⟨_, _, hget, hdeclare⟩ := Runs.bind_iff.mp hrun
      obtain ⟨rfl, rfl⟩ := Runs.get_iff.mp hget
      rw [hu.1, hkept] at hdeclare
      obtain ⟨rfl, rfl⟩ := Runs.pure_iff.mp hdeclare
      exact ⟨rfl, hkept⟩

/-- Where chains of intersections end, types are written, aliases declared and records made, unless a field is
unwritable, whatever depth beyond some is allowed. Once all aliases are declared nothing is written elsewhere.
Merging always ends. -/
theorem writing_ends (hkeyed : scope.Keyed) (s : Draft) :
    (scope.Pending s →
      (∀ type hint, (hint.isEmpty = false → scope.Ends s type) →
        Settles (fun _ _ => True) Unwritable (fun depth => (atDepth scope depth).render type hint) s) ∧
      (∀ key a, scope.aliases.lookup key = some a →
        Settles (fun _ _ => True) Unwritable (fun depth => (atDepth scope depth).declaration a) s) ∧
      ∀ name fields doc bases, (∀ f ∈ fields, scope.Ends s f.type) →
        Settles (fun _ _ => True) Unwritable (fun depth => (atDepth scope depth).record name fields doc bases) s) ∧
    (scope.AllDeclared s → ∀ depth type hint text t, hint.isEmpty = false →
      Runs ((atDepth scope depth).render type hint) s text t → scope.Ends s type) ∧
    ∀ barred turns type, scope.aliases.length < turns →
      scope.fieldsFor barred turns type = scope.fieldsOf barred type := by
  have hstart := after_self scope s
  refine ⟨fun hpending => ⟨?render, ?declaration, ?record⟩, ?written, fun _ _ _ => Scope.fieldsFor_eq_fieldsOf⟩
  case render =>
    intro type hint hends
    refine (finishes_render ?_ s hstart).mono (fun _ _ _ => trivial) fun _ he => he
    intro ts hts more hmore
    cases hhint : hint.isEmpty with
    | true => exact finishes_intersection_of_isEmpty (hmore hhint)
    | false => exact finishes_intersection (declares_atDepth hkeyed hpending) (hends hhint ts hts) more
  case declaration =>
    intro key a hlookup
    exact (declares_atDepth hkeyed hpending key a hlookup s hstart).mono (fun _ _ _ => trivial) fun _ he => he
  case record =>
    intro name fields doc bases hends
    have hfields : ∀ f ∈ fields, ∀ hint, Finishes scope s s.declaring (scope.untouched s).length fun depth =>
        (atDepth scope depth).render f.type hint := fun f hf hint =>
      finishes_render fun ts hts more _ =>
        finishes_intersection (declares_atDepth hkeyed hpending) (hends f hf ts hts) more
    exact (settles_record hfields name doc bases hstart).mono (fun _ _ _ => trivial) fun _ he => he
  case written =>
    intro hall depth type hint text t hhint hrun
    exact ((atDepth_traces hkeyed hall depth).render type hint s text t ⟨rfl, rfl⟩ hrun).2 hhint

end TypeWriter

/-- A record with a field that is the record again, and a record based on it. -/
def dogFields : List Field := [{ name := .str "mother", type := .intersection [.reference "Dog" (some "#/Dog")] }]

def ageFields : List Field := [{ name := .str "age", type := .number }]

def puppyMembers : List TypeNode := [.reference "Dog" (some "#/Dog"), .object ageFields none]

def kennelScope : Scope where
  aliases := [("Dog", .synonym "Dog" (some "#/Dog") (.object dogFields none) .null),
    ("Puppy", .synonym "Puppy" (some "#/Puppy") (.intersection puppyMembers) .null)]
  names := [("Dog", "Dog"), ("Puppy", "Puppy")]

/-- Until puppies are declared it is uncertain whether a litter is built on them or merged. -/
def litter : TypeNode := .intersection [.reference "Puppy" (some "#/Puppy")]

theorem acc_dog : Acc (fun us ts => kennelScope.Opens {} ts us) [.reference "Dog" (some "#/Dog")] := by
  have hcomposes : kennelScope.Composes {} [.reference "Dog" (some "#/Dog")] :=
    ⟨fun t ht => Or.inl (List.mem_singleton.mp ht ▸ by decide +kernel),
      ⟨_, List.mem_singleton_self _, Or.inl (by decide +kernel)⟩⟩
  refine Acc.intro _ fun us hopens => ?_
  cases hopens with
  | own _ hmem => exact nomatch List.mem_singleton.mp hmem
  | merged hnot => exact absurd hcomposes hnot

theorem acc_puppy : Acc (fun us ts => kennelScope.Opens {} ts us) puppyMembers := by
  have hage : Field.allAttributes ageFields = .ok true := Result.eq_ok_of_toOption (by decide +kernel)
  have hcomposes : kennelScope.Composes {} puppyMembers :=
    ⟨List.forall_mem_cons.mpr ⟨Or.inl (by decide +kernel),
      fun t ht => Or.inr ⟨ageFields, none, List.mem_singleton.mp ht, hage⟩⟩,
      ⟨_, List.mem_cons_self, Or.inl (by decide +kernel)⟩⟩
  refine Acc.intro _ fun us hopens => ?_
  cases hopens with
  | own _ hmem hf hus =>
    rcases List.mem_cons.mp hmem with heq | hmem
    · cases heq
    · cases List.mem_singleton.mp hmem
      exact absurd (List.mem_singleton.mp hf ▸ hus) List.not_mem_nil
  | merged hnot => exact absurd hcomposes hnot

theorem ends_litter : kennelScope.Ends {} litter := by
  intro ts hts
  obtain rfl := List.mem_singleton.mp hts
  refine Acc.intro _ fun us hopens => ?_
  cases hopens with
  | own _ hmem => exact nomatch List.mem_singleton.mp hmem
  | merged _ hfields hkept hf hus =>
    have hmem := Field.mem_of_mem_distinct hkept hf
    have hmerged : kennelScope.fieldsOf [] litter = some (dogFields ++ ageFields) := rfl
    obtain rfl := Option.some.inj (hfields.symm.trans hmerged)
    simp only [dogFields, ageFields, List.mem_append, List.mem_singleton] at hmem
    rcases hmem with rfl | rfl
    · exact List.mem_singleton.mp hus ▸ acc_dog
    · exact absurd hus List.not_mem_nil

theorem pending_kennel : kennelScope.Pending {} := by
  intro key name pointer type comment hlookup _ _ ts hts
  have hmem := Entries.mem_of_lookup hlookup
  simp only [kennelScope, List.mem_cons, List.not_mem_nil, or_false, Prod.mk.injEq, Alias.synonym.injEq] at hmem
  rcases hmem with ⟨rfl, rfl, rfl, rfl, rfl⟩ | ⟨rfl, rfl, rfl, rfl, rfl⟩
  · exact List.mem_singleton.mp hts ▸ acc_dog
  · exact List.mem_singleton.mp hts ▸ acc_puppy

theorem keyed_kennel : kennelScope.Keyed := by
  intro key a hlookup
  have hmem := Entries.mem_of_lookup hlookup
  simp only [kennelScope, List.mem_cons, List.not_mem_nil, or_false, Prod.mk.injEq] at hmem
  rcases hmem with ⟨rfl, rfl⟩ | ⟨rfl, rfl⟩ <;> rfl

theorem writing_ends_kennel :
    Settles (fun _ _ => True) Unwritable (fun depth => (TypeWriter.atDepth kennelScope depth).render litter "Litter") {} ∧
    Settles (fun _ _ => True) Unwritable (fun depth => (TypeWriter.atDepth kennelScope depth).declaration
      (.synonym "Puppy" (some "#/Puppy") (.intersection puppyMembers) .null)) {} ∧
    Settles (fun _ _ => True) Unwritable (fun depth =>
      (TypeWriter.atDepth kennelScope depth).record "Pack" [{ name := .str "pup", type := litter }] .null []) {} := by
  obtain ⟨hends, _⟩ := TypeWriter.writing_ends keyed_kennel {}
  obtain ⟨hrender, hdeclaration, hrecord⟩ := hends pending_kennel
  refine ⟨hrender _ _ fun _ => ends_litter, hdeclaration "Puppy" _ rfl, hrecord _ _ _ _ fun f hf => ?_⟩
  obtain rfl := List.mem_singleton.mp hf
  exact ends_litter

/-- A record written as a call, with a field that is the record again. -/
def loopField : Field := { name := .str "a-b", type := .intersection [.reference "A" (some "#/A")] }

def loopAlias : Alias := .synonym "A" (some "#/A") (.object [loopField] none) .null

def loopScope : Scope where
  aliases := [("A", loopAlias)]
  names := [("A", "A")]

section
open TypeWriter
variable {u : Draft} {r : RecordDeclaration}

theorem runs_split_loop (hu : u.declared.lookup "A" = some (.record r)) (hr : r.functional = true) (depth : Nat) :
    Runs ((atDepth loopScope (depth + 1)).split loopScope [.reference "A" (some "#/A")]) u none u := by
  have hdeclaration : Runs ((atDepth loopScope (depth + 1)).declaration loopAlias) u (.record r) u := by
    refine Runs.bind_iff.mpr ⟨u, u, Runs.get_iff.mpr ⟨rfl, rfl⟩, ?_⟩
    rw [show loopAlias.name = "A" from rfl, hu]
    exact Runs.pure_iff.mpr ⟨rfl, rfl⟩
  have hbase : Runs ((atDepth loopScope (depth + 1)).isBase loopScope (.reference "A" (some "#/A"))) u false u :=
    Runs.bind_iff.mpr ⟨.record r, u, hdeclaration, Runs.pure_iff.mpr ⟨by rw [hr]; rfl, rfl⟩⟩
  exact Runs.bind_iff.mpr ⟨false, u, hbase, Runs.pure_iff.mpr ⟨rfl, rfl⟩⟩

theorem compose_loop (hu : u.declared.lookup "A" = some (.record r)) (hr : r.functional = true)
    (hdeclaring : u.declaring = []) {name : String} (hname : name.isEmpty = false) {depth : Nat}
    (hrender : ∀ hint, hint.isEmpty = false →
      (Id.run (((atDepth loopScope depth).render loopField.type hint).run u)).1 = .error .tooDeep) :
    (Id.run (((atDepth loopScope depth).compose loopScope name [.reference "A" (some "#/A")] .null).run u)).1 =
      .error .tooDeep := by
  cases depth with
  | zero => rfl
  | succ depth =>
    have hfields : loopScope.fieldsOf u.declaring (.intersection [.reference "A" (some "#/A")]) = some [loopField] := by
      rw [hdeclaring]
      rfl
    have hfield : (Id.run (((atDepth loopScope (depth + 1)).field name true loopField).run u)).1 = .error .tooDeep := by
      have hpart : Runs (liftM loopField.hintPart : M String) u "AB" u :=
        Runs.lift_iff.mpr ⟨Result.eq_ok_of_toOption (by decide +kernel), rfl⟩
      rw [TypeWriter.field, Runs.run_bind_of_runs hpart]
      refine Runs.run_bind_error (hrender _ ?_)
      rw [TypeText.extend, hname]
      exact isEmpty_append hname
    have hattributes : Runs (liftM (Field.allAttributes [loopField]) : M Bool) u false u :=
      Runs.lift_iff.mpr ⟨Result.eq_ok_of_toOption (by decide +kernel), rfl⟩
    rw [compose, Runs.run_bind_of_runs (runs_split_loop hu hr depth)]
    show (Id.run ((merged _ loopScope name _ _).run u)).1 = _
    rw [merged, Runs.run_bind_of_runs (Runs.get_iff.mpr ⟨rfl, rfl⟩), hfields]
    have hdistinct : Runs (liftM (Field.distinct [loopField]) : M (List Field)) u [loopField] u := rfl
    rw [Runs.run_bind_of_runs hdistinct]
    refine Runs.run_bind_error ?_
    rw [TypeWriter.record, Runs.run_bind_of_runs hattributes]
    exact Runs.run_bind_error (Runs.run_bind_error hfield)

theorem render_loop (hr : r.functional = true) {hint : String} (hhint : hint.isEmpty = false)
    (hu : u.declared.lookup "A" = some (.record r)) (hdeclaring : u.declaring = []) (depth : Nat) :
    (Id.run (((atDepth loopScope depth).render loopField.type hint).run u)).1 = .error .tooDeep := by
  induction depth generalizing u hint with
  | zero => rfl
  | succ depth ih =>
    have hclaim : Runs (claimHint hint) u _ { u with taken := _ :: u.taken } := rfl
    have hname := isEmpty_of_runs_claimHint hclaim
    show (Id.run (((atDepth loopScope depth).renderWith loopScope loopField.type hint).run u)).1 = _
    rw [loopField, renderWith, hhint, if_neg Bool.false_ne_true, Runs.run_bind_of_runs hclaim]
    refine Runs.run_bind_error (compose_loop (u := { u with taken := _ :: u.taken }) hu hr hdeclaring hname ?_)
    exact fun _ hmore => ih hmore hu hdeclaring

end

/-- The names of the aliases declared, and whether they are written as calls. -/
def Draft.calls (s : Draft) : List (String × Option Bool) := s.declared.map fun e => (e.1, match e.2 with
  | .record r => some r.functional
  | _ => none)

theorem exists_writing_endless : ∃ depth d s,
    Runs ((TypeWriter.atDepth loopScope depth).declaration loopAlias) { taken := ["A"] } d s ∧
    ∀ depth, (Id.run (((TypeWriter.atDepth loopScope depth).render loopField.type "H").run s)).1 = .error .tooDeep := by
  obtain ⟨d, s, h⟩ : ∃ d s, Runs ((TypeWriter.atDepth loopScope 4).declaration loopAlias) { taken := ["A"] } d s :=
    Runs.exists_of_isOk (by decide +kernel)
  have htables : (Id.run (((TypeWriter.atDepth loopScope 4).declaration loopAlias).run { taken := ["A"] })).2.calls =
      [("A", some true)] ∧
      (Id.run (((TypeWriter.atDepth loopScope 4).declaration loopAlias).run { taken := ["A"] })).2.declaring = [] := by
    decide +kernel
  rw [show Id.run (((TypeWriter.atDepth loopScope 4).declaration loopAlias).run { taken := ["A"] }) = (.ok d, s)
    from h] at htables
  obtain ⟨hcalls, hdeclaring⟩ := htables
  obtain ⟨e, hdeclared, he⟩ := List.map_eq_singleton_iff.mp hcalls
  obtain ⟨hname, hr⟩ := Prod.mk.inj he
  obtain ⟨name, made⟩ := e
  obtain rfl : name = "A" := hname
  cases made with
  | enumeration | synonym => cases hr
  | record r =>
    have hlookup : s.declared.lookup "A" = some (.record r) := by
      rw [show s.declared = _ from hdeclared]
      rfl
    exact ⟨4, _, s, h, render_loop (Option.some.inj hr) (by decide) hlookup hdeclaring⟩

end ClientBindings

import ClientBindings.Proofs.Source.Composition
import ClientBindings.Proofs.Source.Recorded

/-! Records that are declared where they stand. Whatever is asked of a draft, what it adds to the draft is what is made
on the way, so every record that is added is named by an annotation. The annotation is one that was given up only if an
intersection mixes keys that are no attributes with records in its own fields. -/

namespace ClientBindings

open Draft TypeText

namespace Draft

/-- What a run adds to a draft: names, records where they stand, and declarations of aliases. -/
structure Adds (s t : Draft) (made : List Made) : Prop where
  taken : s.taken ⊆ t.taken
  inline : t.inline = s.inline ++ made.filterMap Made.inline?
  declared : t.declared = (made.filterMap Made.declared?).reverse ++ s.declared

namespace Adds

variable {s t u : Draft} {made more : List Made}

theorem refl (s : Draft) : Adds s s [] := ⟨List.Subset.refl _, (List.append_nil _).symm, rfl⟩

theorem trans (hst : Adds s t made) (htu : Adds t u more) : Adds s u (made ++ more) where
  taken := List.Subset.trans hst.taken htu.taken
  inline := by rw [htu.inline, hst.inline, List.filterMap_append, List.append_assoc]
  declared := by rw [htu.declared, hst.declared, List.filterMap_append, List.reverse_append, List.append_assoc]

/-- Annotations that are given up leave the draft as it is. -/
theorem drop (h : Adds s t made) (annotations : List String) : Adds s t (made ++ [.dropped annotations]) :=
  h.trans ⟨List.Subset.refl _, (List.append_nil _).symm, rfl⟩

end Adds

/-- All records that a run adds are named by an annotation that it returns, or by one of a declaration that it adds. -/
def NoOrphans (texts : List String) (s t : Draft) : Prop :=
  ∃ added declared, t.inline = s.inline ++ added ∧ t.declared = declared ++ s.declared ∧
    ∀ d ∈ added, ∃ text ∈ texts ++ (added ++ declared.map Prod.snd).flatMap Declaration.annotations,
      Annotation.NamedIn d.name text

/-- Where nothing is given up all annotations that name records belong to what is added. -/
theorem Adds.noOrphans {s t : Draft} {texts : List String} {made : List Made} (h : s.Adds t made)
    (hcovered : Covered texts made) (hkept : ∀ annotations, .dropped annotations ∉ made) : s.NoOrphans texts t := by
  refine ⟨_, _, h.inline, h.declared, fun d hd => ?_⟩
  obtain ⟨m, hm, hinline⟩ := List.mem_filterMap.mp hd
  cases m with
  | declared | dropped => cases hinline
  | inline r =>
    obtain rfl := Option.some.inj hinline
    rcases (hcovered r hm).2 with ⟨text, htext, hnamed⟩ | ⟨m, hm, text, htext, hnamed⟩
    · exact ⟨text, List.mem_append_left _ htext, hnamed⟩
    · refine ⟨text, List.mem_append_right _ (List.mem_flatMap.mpr ?_), hnamed⟩
      cases m with
      | inline other => exact ⟨_, List.mem_append_left _ (List.mem_filterMap.mpr ⟨_, hm, rfl⟩), htext⟩
      | declared key other =>
        have hother : (key, other) ∈ (made.filterMap Made.declared?).reverse :=
          List.mem_reverse.mpr (List.mem_filterMap.mpr ⟨_, hm, rfl⟩)
        exact ⟨other, List.mem_append_right _ (List.mem_map_of_mem hother), htext⟩
      | dropped annotations => exact absurd hm (hkept annotations)

end Draft

namespace TypeText.Union

theorem mem_insert_self (texts : List String) (text : String) : text ∈ insert texts text := by
  unfold insert
  split
  case isTrue h => exact List.contains_iff_mem.mp h
  case isFalse => exact List.mem_concat_self

theorem subset_insert (texts : List String) (text : String) : texts ⊆ insert texts text := by
  unfold insert
  split
  · exact List.Subset.refl _
  · exact List.subset_append_left _ _

theorem parts_subset_withLiteral (u : Union) (v : Scalar) : u.parts ⊆ (u.withLiteral v).parts := by
  cases v with
  | null => exact List.Subset.refl _
  | _ => exact subset_insert _ _

/-- All parts of a union stand in its text, but for the mark of its literals. -/
theorem exists_text_eq (u : Union) : ∃ parts, u.text = String.intercalate " | " parts ∧
    ∀ part ∈ u.parts, part ≠ literalMark → part ∈ parts := by
  generalize hall : (if u.nullable then
      u.parts.map (fun p => if p == literalMark then TypeText.literals u.literals else p) ++ ["None"]
    else u.parts.map fun p => if p == literalMark then TypeText.literals u.literals else p) = all
  have hparts : ∀ part ∈ u.parts, part ≠ literalMark → part ∈ all := by
    intro part hpart hmark
    have hmem : part ∈ u.parts.map fun p => if p == literalMark then TypeText.literals u.literals else p :=
      List.mem_map.mpr ⟨part, hpart, if_neg (by rwa [beq_iff_eq])⟩
    rw [← hall]
    split
    · exact List.mem_append_left _ hmem
    · exact hmem
  have htext : u.text = if all.isEmpty then "NoReturn" else String.intercalate " | " all := by
    rw [← hall]
    rfl
  cases all with
  | nil => exact ⟨["NoReturn"], by rw [htext, String.intercalate_singleton]; rfl, fun part hpart hmark =>
      absurd (hparts part hpart hmark) List.not_mem_nil⟩
  | cons first rest => exact ⟨first :: rest, htext, hparts⟩

end TypeText.Union

namespace TypeWriter

variable {scope : Scope} {w : TypeWriter} {s t u : Draft} {name : String} {doc : Data}

/-- A record with a hint is written under a name that is claimed for it, and added then. -/
theorem adds_claimHint {hint : String} (hmark : literalMark ∈ s.taken) (hrun : Runs (claimHint hint) s name t) :
    s.Adds t [] ∧ name ≠ literalMark := by
  obtain ⟨rfl, hfresh⟩ := runs_claim_state hrun
  refine ⟨⟨List.subset_cons_self _ _, (List.append_nil _).symm, rfl⟩, ?_⟩
  rintro rfl
  exact hfresh hmark

theorem adds_declareInline {d : RecordDeclaration} {text : String} (hrun : Runs (declareInline d) s text t) :
    text = d.name ∧ s.Adds t [.inline d] := by
  obtain ⟨_, u, hadd, hpure⟩ := Runs.bind_iff.mp hrun
  obtain ⟨rfl, rfl⟩ := Runs.pure_iff.mp hpure
  obtain rfl := Runs.modify_iff.mp hadd
  exact ⟨rfl, List.Subset.refl _, rfl, rfl⟩

/-- A writer adds to a draft what is made on the way. -/
structure Accounts (scope : Scope) (w : TypeWriter) : Prop where
  render : ∀ type hint s text t, literalMark ∈ s.taken → Runs (w.render type hint) s text t →
    ∃ made, Written scope (.type type hint) [text] made ∧ s.Adds t made
  declaration : ∀ a s d t, literalMark ∈ s.taken → Runs (w.declaration a) s d t →
    ∃ made, Written scope (.declaration a) [] made ∧ s.Adds t made

/-- Asking whether a member can be a base declares its alias, or nothing. -/
def Asked (scope : Scope) (type : TypeNode) (s t : Draft) : Prop :=
  t = s ∨ ∃ key pointer a made, type = .reference key pointer ∧ scope.aliases.lookup key = some a ∧
    Written scope (.declaration a) [] made ∧ s.Adds t made

theorem Asked.taken {type : TypeNode} (h : Asked scope type s t) : s.taken ⊆ t.taken := by
  rcases h with rfl | ⟨_, _, _, _, _, _, _, hadds⟩
  · exact List.Subset.refl _
  · exact hadds.taken

theorem Asked.bases {type : TypeNode} {ts : List TypeNode} {more : List Made} (h : Asked scope type s t)
    (hmore : Written scope (.bases ts) [] more) (hadds : t.Adds u more) :
    ∃ made, Written scope (.bases (type :: ts)) [] made ∧ s.Adds u made := by
  rcases h with rfl | ⟨key, pointer, a, made, rfl, hlookup, hwritten, hbefore⟩
  · exact ⟨more, .passed hmore, hadds⟩
  · exact ⟨_, .base hlookup hwritten hmore, hbefore.trans hadds⟩

/-- Taking an intersection apart declares aliases among its members, and finds its own fields if all others are
objects. -/
structure TakenApart (scope : Scope) (ts : List TypeNode) (s t : Draft) (found : Option (List String × List Field)) :
    Prop where
  bases : ∃ made, Written scope (.bases ts) [] made ∧ s.Adds t made
  fields : ∀ parts, found = some parts → parts.2 = TypeNode.ownFields ts ∧ ∀ type ∈ ts, type.isPart = true

/-- Nothing is found as soon as a member is no part. -/
theorem Asked.stop {type : TypeNode} {ts : List TypeNode} {found : Option (List String × List Field)}
    (h : Asked scope type s u) (hrun : Runs (pure none : M (Option (List String × List Field))) u found t) :
    TakenApart scope (type :: ts) s t found := by
  obtain ⟨rfl, rfl⟩ := Runs.pure_iff.mp hrun
  exact ⟨h.bases .noBases (.refl _), nofun⟩

theorem Asked.goOn {type : TypeNode} {ts : List TypeNode} {below : Option (List String × List Field)}
    {grow : List String × List Field → List String × List Field} (h : Asked scope type s u)
    (hbelow : TakenApart scope ts u t below) (hpart : type.isPart = true)
    (hgrow : ∀ parts, parts.2 = TypeNode.ownFields ts → (grow parts).2 = TypeNode.ownFields (type :: ts)) :
    TakenApart scope (type :: ts) s t (below.map grow) := by
  obtain ⟨⟨more, hmore, hadds⟩, hfields⟩ := hbelow
  refine ⟨h.bases hmore hadds, fun parts hparts => ?_⟩
  obtain ⟨before, hbefore, rfl⟩ := Option.map_eq_some_iff.mp hparts
  obtain ⟨hown, hothers⟩ := hfields before hbefore
  exact ⟨hgrow before hown, List.forall_mem_cons.mpr ⟨hpart, hothers⟩⟩

/-- What a composition yields and what is made for it: nothing, after an attempt, or a record. -/
def Composes (scope : Scope) (name : String) (ts : List TypeNode) (s t : Draft) (found : Option RecordDeclaration) :
    Prop :=
  ∃ made, s.Adds t made ∧ (found = none ∧ scope.Fieldless ts ∧ Written scope (.attempt name ts) [] made ∨
    ∃ d fields, found = some d ∧ d.name = name ∧ d.fields.map FieldDeclaration.name = fields.map FieldOf.name ∧
      Written scope (.composition name ts fields) d.annotations made)

section
variable (h : w.Accounts scope)
include h

theorem Accounts.fields {isQuoted : Bool} {fields : List Field} {ds : List FieldDeclaration}
    (hmark : literalMark ∈ s.taken) (hrun : Runs (fields.mapM (w.field name isQuoted)) s ds t) :
    ∃ made, Written scope (.fields name fields) (ds.map FieldDeclaration.type) made ∧ s.Adds t made := by
  induction fields generalizing s ds with
  | nil =>
    obtain ⟨rfl, rfl⟩ := Runs.mapM_nil_iff.mp hrun
    exact ⟨[], .noFields, .refl _⟩
  | cons f fields ih =>
    obtain ⟨d, u, ds, hfield, hfields, rfl⟩ := Runs.mapM_cons_iff.mp hrun
    obtain ⟨part, text, doc, hpart, hrender, rfl⟩ := runs_field hfield
    obtain ⟨made, hwritten, hadds⟩ := h.render _ _ _ _ _ hmark hrender
    obtain ⟨more, hrest, hmore⟩ := ih (hadds.taken hmark) hfields
    refine ⟨made ++ more, .field hpart hwritten ?_ hrest, hadds.trans hmore⟩
    cases isQuoted with
    | true => exact .inr rfl
    | false => exact .inl rfl

theorem Accounts.record {fields : List Field} {bases : List String} {d : RecordDeclaration}
    (hmark : literalMark ∈ s.taken) (hrun : Runs (w.record name fields doc bases) s d t) :
    ∃ made, Written scope (.fields name fields) d.annotations made ∧ s.Adds t made := by
  simp only [TypeWriter.record, Runs.bind_iff, Runs.pure_iff, Runs.lift_iff] at hrun
  obtain ⟨_, _, ⟨_, rfl⟩, ds, _, hfields, rfl, rfl⟩ := hrun
  exact h.fields hmark hfields

theorem Accounts.isBase {type : TypeNode} {isBase : Bool} (hmark : literalMark ∈ s.taken)
    (hrun : Runs (w.isBase scope type) s isBase t) : Asked scope type s t := by
  unfold TypeWriter.isBase at hrun
  split at hrun
  case h_2 => exact .inl (Runs.pure_iff.mp hrun).2
  rename_i key pointer
  split at hrun
  case h_2 => exact .inl (Runs.pure_iff.mp hrun).2
  rename_i hlookup
  obtain ⟨d, u, hdeclare, hrun⟩ := Runs.bind_iff.mp hrun
  obtain rfl : t = u := by
    split at hrun <;> exact (Runs.pure_iff.mp hrun).2
  obtain ⟨made, hwritten, hadds⟩ := h.declaration _ _ _ _ hmark hdeclare
  exact .inr ⟨key, pointer, _, made, rfl, hlookup, hwritten, hadds⟩

theorem Accounts.split {ts : List TypeNode} {found : Option (List String × List Field)}
    (hmark : literalMark ∈ s.taken) (hrun : Runs (w.split scope ts) s found t) : TakenApart scope ts s t found := by
  induction ts generalizing s found with
  | nil =>
    obtain ⟨rfl, rfl⟩ := Runs.pure_iff.mp hrun
    refine ⟨⟨[], .noBases, .refl _⟩, ?_⟩
    rintro _ ⟨⟩
    exact ⟨rfl, fun _ htype => absurd htype List.not_mem_nil⟩
  | cons type ts ih =>
    obtain ⟨isBase, u, hbase, hrun⟩ := Runs.bind_iff.mp hrun
    have hasked := h.isBase hmark hbase
    cases isBase with
    | true =>
      cases type with
      | reference key pointer =>
        obtain ⟨below, v, hbelow, hpure⟩ := Runs.bind_iff.mp hrun
        obtain ⟨rfl, rfl⟩ := Runs.pure_iff.mp hpure
        exact hasked.goOn (ih (hasked.taken hmark) hbelow) rfl fun _ hown => hown
      | _ => exact hasked.stop hrun
    | false =>
      cases type with
      | object own index =>
        obtain ⟨below, v, hbelow, hpure⟩ := Runs.bind_iff.mp hrun
        obtain ⟨rfl, rfl⟩ := Runs.pure_iff.mp hpure
        exact hasked.goOn (ih (hasked.taken hmark) hbelow) rfl fun _ hown => congrArg (own ++ ·) hown
      | _ => exact hasked.stop hrun

theorem Accounts.merged {ts : List TypeNode} {found : Option RecordDeclaration} {made : List Made}
    (hmark : literalMark ∈ s.taken) (hattempt : Written scope (.attempt name ts) [] made) (hadds : s.Adds u made)
    (hrun : Runs (w.merged scope name (.intersection ts) doc) u found t) : Composes scope name ts s t found := by
  simp only [TypeWriter.merged, Runs.bind_iff, Runs.get_iff] at hrun
  obtain ⟨_, _, ⟨rfl, rfl⟩, hrun⟩ := hrun
  split at hrun
  case h_3 all _ hfields =>
    simp only [Runs.bind_iff, Runs.pure_iff, Runs.lift_iff] at hrun
    obtain ⟨kept, _, ⟨hkept, rfl⟩, d, _, hrecord, rfl, rfl⟩ := hrun
    obtain ⟨more, hmore, hadds'⟩ := h.record (hadds.taken hmark) hrecord
    exact ⟨_, hadds.trans hadds', .inr ⟨d, kept, rfl, name_of_runs_record hrecord, names_of_runs_record hrecord,
      .merged hattempt hfields hkept hmore⟩⟩
  all_goals
    rename_i hfields
    obtain ⟨rfl, rfl⟩ := Runs.pure_iff.mp hrun
    exact ⟨made, hadds, .inl ⟨rfl, ⟨_, by rw [hfields]; rfl⟩, hattempt⟩⟩

theorem Accounts.compose {ts : List TypeNode} {found : Option RecordDeclaration} (hmark : literalMark ∈ s.taken)
    (hrun : Runs (w.compose scope name ts doc) s found t) : Composes scope name ts s t found := by
  obtain ⟨parts, u, hsplit, hrun⟩ := Runs.bind_iff.mp hrun
  obtain ⟨⟨made, hbases, hadds⟩, hown⟩ := h.split hmark hsplit
  split at hrun
  case h_3 bases fields _ =>
    obtain ⟨rfl, hparts⟩ := hown (bases, fields) rfl
    obtain ⟨d, v, hrecord, hrun⟩ := Runs.bind_iff.mp hrun
    obtain ⟨more, hmore, hadds'⟩ := h.record (hadds.taken hmark) hrecord
    have hform := allAttributes_of_runs_record hrecord
    split at hrun
    case isTrue hcall =>
      rw [hcall] at hform
      -- An attempt that has made nothing is not counted as one.
      by_cases hnothing : more = []
      · rw [hnothing] at hadds'
        exact h.merged hmark (.attempt hbases) ((List.append_nil made) ▸ hadds.trans hadds') hrun
      · exact h.merged hmark (.givenUp hbases hparts hform hmore hnothing) ((hadds.trans hadds').drop d.annotations)
          hrun
    case isFalse hclass =>
      obtain ⟨rfl, rfl⟩ := Runs.pure_iff.mp hrun
      rw [Bool.eq_false_iff.mpr hclass] at hform
      exact ⟨_, hadds.trans hadds', .inr ⟨d, _, rfl, name_of_runs_record hrecord, names_of_runs_record hrecord,
        .joined hbases hform hmore⟩⟩
  all_goals exact h.merged hmark (.attempt hbases) hadds hrun

/-- The members of a union are written one after the other. -/
theorem Accounts.members {ts : List TypeNode} {hint : String} {a b : Union} (hmark : literalMark ∈ s.taken)
    (hrun : Runs (ts.foldlM (fun (u : Union) t => do
      match t with
      | .literal v => (u.addLiteral v : Result _)
      | t => return u.addPart (← w.render t hint)) a) s b t) :
    ∃ texts made, Written scope (.members ts hint) texts made ∧ s.Adds t made ∧ a.parts ⊆ b.parts ∧
      texts ⊆ b.parts := by
  induction ts generalizing s a with
  | nil =>
    obtain ⟨rfl, rfl⟩ := Runs.foldlM_nil_iff.mp hrun
    exact ⟨[], [], .noMembers, .refl _, List.Subset.refl _, List.nil_subset _⟩
  | cons type ts ih =>
    obtain ⟨c, u, hround, hrest⟩ := Runs.foldlM_cons_iff.mp hrun
    split at hround
    case h_1 v =>
      obtain ⟨-, rfl, rfl⟩ := Runs.guarded_iff.mp hround
      obtain ⟨texts, made, hwritten, hadds, hparts, htexts⟩ := ih hmark hrest
      exact ⟨texts, made, .literal hwritten, hadds, List.Subset.trans (a.parts_subset_withLiteral v) hparts, htexts⟩
    case h_2 =>
      obtain ⟨text, _, hrender, hpure⟩ := Runs.bind_iff.mp hround
      obtain ⟨rfl, rfl⟩ := Runs.pure_iff.mp hpure
      obtain ⟨made, hwritten, hadds⟩ := h.render _ _ _ _ _ hmark hrender
      obtain ⟨texts, more, hmore, hadds', hparts, htexts⟩ := ih (hadds.taken hmark) hrest
      refine ⟨text :: texts, made ++ more, .member hwritten hmore, hadds.trans hadds', ?_, ?_⟩
      · exact List.Subset.trans (Union.subset_insert a.parts text) hparts
      · exact List.cons_subset.mpr ⟨hparts (Union.mem_insert_self a.parts text), htexts⟩

theorem Accounts.union {ts : List TypeNode} {hint text : String} (hmark : literalMark ∈ s.taken)
    (hrun : Runs (w.union ts hint) s text t) :
    ∃ made, Written scope (.type (.union ts) hint) [text] made ∧ s.Adds t made := by
  obtain ⟨u, _, hfold, hpure⟩ := Runs.bind_iff.mp hrun
  obtain ⟨rfl, rfl⟩ := Runs.pure_iff.mp hpure
  obtain ⟨texts, made, hwritten, hadds, -, htexts⟩ := h.members hmark hfold
  obtain ⟨parts, htext, hparts⟩ := u.exists_text_eq
  rw [htext]
  exact ⟨made, .union hwritten fun text htext => hparts text (htexts htext), hadds⟩

/-- A record with a hint is declared where it stands. -/
theorem Accounts.object {fields : List Field} {index : Option TypeNode} {hint text : String}
    (hhint : hint.isEmpty = false) (hfields : fields ≠ []) (hmark : literalMark ∈ s.taken)
    (hrun : Runs (do declareInline (← w.record (← claimHint hint) fields .null [])) s text t) :
    ∃ made, Written scope (.type (.object fields index) hint) [text] made ∧ s.Adds t made := by
  obtain ⟨name, u, hclaim, hrun⟩ := Runs.bind_iff.mp hrun
  obtain ⟨d, v, hrecord, hdeclare⟩ := Runs.bind_iff.mp hrun
  obtain ⟨hclaimed, hname⟩ := adds_claimHint hmark hclaim
  obtain ⟨made, hwritten, hadds⟩ := h.record (hclaimed.taken hmark) hrecord
  obtain ⟨rfl, hadded⟩ := adds_declareInline hdeclare
  obtain rfl := name_of_runs_record hrecord
  exact ⟨_, .record hhint (isEmpty_of_runs_claimHint hclaim) hname hfields (names_of_runs_record hrecord) hwritten,
    (hclaimed.trans hadds).trans hadded⟩

/-- An intersection with a hint is declared where it stands if it makes a record. -/
theorem Accounts.intersection {ts : List TypeNode} {hint text : String} (hhint : hint.isEmpty = false)
    (hmark : literalMark ∈ s.taken)
    (hrun : Runs (do
      match ← w.compose scope (← claimHint hint) ts .null with
      | some d => declareInline d
      | none => return mapping) s text t) :
    ∃ made, Written scope (.type (.intersection ts) hint) [text] made ∧ s.Adds t made := by
  obtain ⟨name, u, hclaim, hcomposed⟩ := Runs.bind_iff.mp hrun
  obtain ⟨found, v, hcompose, hfound⟩ := Runs.bind_iff.mp hcomposed
  obtain ⟨hclaimed, hname⟩ := adds_claimHint hmark hclaim
  obtain ⟨made, hadds, ⟨rfl, hfieldless, hwritten⟩ | ⟨d, fields, rfl, rfl, hkeys, hwritten⟩⟩ :=
    h.compose (hclaimed.taken hmark) hcompose
  · obtain ⟨rfl, rfl⟩ := Runs.pure_iff.mp hfound
    exact ⟨made, .unjoined hhint hfieldless hwritten, hclaimed.trans hadds⟩
  · obtain ⟨rfl, hadded⟩ := adds_declareInline hfound
    exact ⟨_, .intersection hhint hname hkeys hwritten, (hclaimed.trans hadds).trans hadded⟩

theorem Accounts.renderWith {type : TypeNode} {hint text : String} (hmark : literalMark ∈ s.taken)
    (hrun : Runs (w.renderWith scope type hint) s text t) :
    ∃ made, Written scope (.type type hint) [text] made ∧ s.Adds t made := by
  have hatomic : type.isAtomic = true → ∀ {name : String}, Runs (pure name : M String) s text t →
      ∃ made, Written scope (.type type hint) [text] made ∧ s.Adds t made := by
    intro htype name hpure
    obtain ⟨rfl, rfl⟩ := Runs.pure_iff.mp hpure
    exact ⟨[], .atomic htype, .refl _⟩
  unfold TypeWriter.renderWith at hrun
  split at hrun
  case h_4 =>
    obtain ⟨-, rfl, rfl⟩ := Runs.guarded_iff.mp hrun
    exact ⟨[], .atomic rfl, .refl _⟩
  case h_5 items =>
    obtain ⟨inner, u, hinner, hpure⟩ := Runs.bind_iff.mp hrun
    obtain ⟨rfl, rfl⟩ := Runs.pure_iff.mp hpure
    obtain ⟨made, hwritten, hadds⟩ := h.render _ _ _ _ _ hmark hinner
    exact ⟨made, .array hwritten, hadds⟩
  case h_6 values =>
    obtain ⟨inner, u, hinner, hpure⟩ := Runs.bind_iff.mp hrun
    obtain ⟨rfl, rfl⟩ := Runs.pure_iff.mp hpure
    obtain ⟨made, hwritten, hadds⟩ := h.render _ _ _ _ _ hmark hinner
    exact ⟨made, .values hwritten, hadds⟩
  case h_8 fields index hvalues hempty =>
    have hfields : fields ≠ [] := by
      rintro rfl
      cases index with
      | none => exact hempty rfl rfl
      | some values => exact hvalues values rfl rfl
    split at hrun
    case isTrue hhint =>
      obtain ⟨rfl, rfl⟩ := Runs.pure_iff.mp hrun
      exact ⟨[], .unhinted (by simpa [TypeNode.isRecord] using hfields) hhint, .refl _⟩
    case isFalse hhint => exact h.object (Bool.eq_false_iff.mpr hhint) hfields hmark hrun
  case h_9 members =>
    split at hrun
    case isTrue hhint =>
      obtain ⟨rfl, rfl⟩ := Runs.pure_iff.mp hrun
      exact ⟨[], .unhinted rfl hhint, .refl _⟩
    case isFalse hhint => exact h.intersection (Bool.eq_false_iff.mpr hhint) hmark hrun
  case h_10 members => exact h.union hmark hrun
  all_goals exact hatomic rfl hrun

theorem Accounts.make {a : Alias} {d : Declaration} (hmark : literalMark ∈ s.taken)
    (hrun : Runs (w.make scope name a) s d t) :
    ∃ made, Written scope (.alias name a) d.annotations made ∧ s.Adds t made := by
  unfold TypeWriter.make at hrun
  split at hrun
  case h_1 =>
    obtain ⟨rfl, rfl⟩ := runs_enumeration hrun
    exact ⟨[], .enumeration, .refl _⟩
  case h_2 =>
    obtain ⟨r, u, hrecord, hpure⟩ := Runs.bind_iff.mp hrun
    obtain ⟨rfl, rfl⟩ := Runs.pure_iff.mp hpure
    obtain ⟨made, hwritten, hadds⟩ := h.record hmark hrecord
    exact ⟨made, .recordAlias (List.cons_ne_nil _ _) hwritten, hadds⟩
  case h_3 =>
    obtain ⟨found, u, hcompose, hrun⟩ := Runs.bind_iff.mp hrun
    obtain ⟨made, hadds, ⟨rfl, hfieldless, hwritten⟩ | ⟨r, fields, rfl, -, -, hwritten⟩⟩ := h.compose hmark hcompose
    · obtain ⟨rfl, rfl⟩ := Runs.pure_iff.mp hrun
      exact ⟨made, .unjoinedAlias hfieldless hwritten, hadds⟩
    · obtain ⟨rfl, rfl⟩ := Runs.pure_iff.mp hrun
      exact ⟨made, .intersectionAlias hwritten, hadds⟩
  case h_4 type comment hobject hintersection =>
    obtain ⟨text, u, hrender, hpure⟩ := Runs.bind_iff.mp hrun
    obtain ⟨rfl, rfl⟩ := Runs.pure_iff.mp hpure
    obtain ⟨made, hwritten, hadds⟩ := h.render _ _ _ _ _ hmark hrender
    have hrecord : type.isRecord = false := by
      cases type with
      | object fields index =>
        cases fields with
        | nil => rfl
        | cons f fields => exact absurd rfl (hobject f fields index)
      | intersection ts => exact absurd rfl (hintersection ts)
      | _ => rfl
    exact ⟨made, .synonym hrecord hwritten, hadds⟩

/-- An alias is declared already, or its declaration is made and kept. -/
theorem Accounts.declares {a : Alias} {d : Declaration} (hmark : literalMark ∈ s.taken)
    (hrun : Runs (w.declare scope a) s d t) :
    t = s ∨ ∃ made u, Written scope (.alias (scope.nameOf a.name) a) d.annotations made ∧ s.Adds u made ∧
      t = { u with declared := (a.name, d) :: u.declared } := by
  obtain ⟨_, s, hget, hdeclare⟩ := Runs.bind_iff.mp hrun
  obtain ⟨rfl, rfl⟩ := Runs.get_iff.mp hget
  split at hdeclare
  · exact .inl (Runs.pure_iff.mp hdeclare).2
  split at hdeclare
  case isTrue =>
    have hplaceholder : Runs (placeholder (scope.nameOf a.name) a) s d t := hdeclare
    exact .inl (runs_placeholder_plain hplaceholder).1
  case isFalse =>
    simp only [Runs.bind_iff, Runs.modify_iff, Runs.pure_iff] at hdeclare
    obtain ⟨d, _, hmake, _, _, rfl, rfl, rfl⟩ := hdeclare
    obtain ⟨u, hinner, rfl⟩ := runs_whileDeclaring_iff.mp hmake
    obtain ⟨made, hwritten, hadds⟩ := h.make (s := { s with declaring := a.name :: s.declaring }) hmark hinner
    exact .inr ⟨made, { u with declaring := u.declaring.filter (· != a.name) }, hwritten,
      ⟨hadds.taken, hadds.inline, hadds.declared⟩, rfl⟩

theorem Accounts.declare {a : Alias} {d : Declaration} (hmark : literalMark ∈ s.taken)
    (hrun : Runs (w.declare scope a) s d t) : ∃ made, Written scope (.declaration a) [] made ∧ s.Adds t made := by
  rcases h.declares hmark hrun with rfl | ⟨made, u, hwritten, hadds, rfl⟩
  · exact ⟨[], .known, .refl _⟩
  · exact ⟨_, .declared hwritten, hadds.trans ⟨List.Subset.refl _, (List.append_nil _).symm, rfl⟩⟩

end

theorem atDepth_accounts (scope : Scope) (depth : Nat) : (atDepth scope depth).Accounts scope := by
  induction depth with
  | zero => exact ⟨fun _ _ _ _ _ _ h => absurd h Runs.throw_iff, fun _ _ _ _ _ h => absurd h Runs.throw_iff⟩
  | succ depth ih =>
    constructor
    · exact fun _ _ _ _ _ hmark hrun => ih.renderWith hmark hrun
    · exact fun _ _ _ _ hmark hrun => ih.declare hmark hrun

/-- What a run that writes annotations adds to a draft is what is made on the way. All records that are made are named
by an annotation, be it one that was given up. If all intersections in reach are unmixed, no record is an orphan, and
each that is asked for is made once. Where there is no intersection in what is asked for, these are the records that
stand in the type. -/
structure Accounted (scope : Scope) (job : Job) (texts : List String) (s t : Draft) (made : List Made) : Prop where
  written : Written scope job texts made
  adds : s.Adds t made
  referred : ∀ d, .inline d ∈ made → Referred texts made d.name
  clear : scope.Clear → job.Clear → s.NoOrphans texts t ∧ Recorded scope job (keysMade made)
  straight : job.Straight → s.NoOrphans texts t ∧ keysMade made = job.records

theorem accounted {job : Job} {texts : List String} {made : List Made} (hwritten : Written scope job texts made)
    (hadds : s.Adds t made) : Accounted scope job texts s t made where
  written := hwritten
  adds := hadds
  referred d hd := (hwritten.covered d hd).2
  clear hscope hjob :=
    have hkept := hwritten.dropped_not_mem hscope hjob
    ⟨hadds.noOrphans hwritten.covered hkept, hwritten.recorded hkept⟩
  straight hjob :=
    ⟨hadds.noOrphans hwritten.covered (hwritten.dropped_not_mem_of_straight hjob), hwritten.keysMade_eq hjob⟩

/-- All records that are added to a draft are accounted for, whether a type is written, an alias is declared that is not
yet, or a record. -/
theorem inline_records_accounted (scope : Scope) (depth : Nat) (s t : Draft) (hmark : literalMark ∈ s.taken) :
    (∀ type hint text, Runs ((atDepth scope depth).render type hint) s text t →
      ∃ made, Accounted scope (.type type hint) [text] s t made) ∧
    (∀ a d, Runs ((atDepth scope depth).declaration a) s d t →
      t = s ∨ ∃ u made, Accounted scope (.alias (scope.nameOf a.name) a) d.annotations s u made ∧
        t = { u with declared := (a.name, d) :: u.declared }) ∧
    ∀ name fields doc bases d, Runs ((atDepth scope depth).record name fields doc bases) s d t →
      ∃ made, Accounted scope (.fields name fields) d.annotations s t made := by
  refine ⟨fun type hint text hrun => ?_, fun a d hrun => ?_, fun name fields doc bases d hrun => ?_⟩
  · obtain ⟨made, hwritten, hadds⟩ := (atDepth_accounts scope depth).render _ _ _ _ _ hmark hrun
    exact ⟨made, accounted hwritten hadds⟩
  · cases depth with
    | zero => exact absurd hrun Runs.throw_iff
    | succ depth =>
      rcases (atDepth_accounts scope depth).declares hmark hrun with rfl | ⟨made, u, hwritten, hadds, rfl⟩
      · exact .inl rfl
      · exact .inr ⟨u, made, accounted hwritten hadds, rfl⟩
  · obtain ⟨made, hwritten, hadds⟩ := (atDepth_accounts scope depth).record hmark hrun
    exact ⟨made, accounted hwritten hadds⟩

/-- A pet with tags, and with a name besides. -/
def petType : TypeNode := .intersection [
  .object [{
    name := .str "tags", required := true,
    type := .array (.object [{ name := .str "label", type := .primitive .string, required := true }] none) }] none,
  .object [{ name := .str "name", type := .primitive .string }] none]

theorem petType_clear : petType.Clear := by
  refine .intersection (.inr (.inl rfl)) (List.forall_mem_cons.mpr ⟨?_, List.forall_mem_singleton.mpr ?_⟩)
  · refine .object (List.forall_mem_singleton.mpr (.array ?_)) nofun
    exact .object (List.forall_mem_singleton.mpr (.atomic rfl)) nofun
  · exact .object (List.forall_mem_singleton.mpr (.atomic rfl)) nofun

theorem inline_records_accounted_pet : ∃ t made,
    Runs ((Scope.writer default).render petType "Pet") { taken := [literalMark] } "Pet" t ∧
    Accounted default (.type petType "Pet") ["Pet"] { taken := [literalMark] } t made ∧
    t.inline.map Declaration.name = ["PetTagsItem", "Pet"] ∧ NoOrphans ["Pet"] { taken := [literalMark] } t ∧
    Recorded default (.type petType "Pet") (keysMade made) := by
  have hrun : Runs ((Scope.writer default).render petType "Pet") { taken := [literalMark] } "Pet" {
      taken := ["PetTagsItem", "Pet", literalMark]
      inline := [
        .record { name := "PetTagsItem", fields := [⟨.str "label", "str", .null⟩] },
        .record { name := "Pet", fields := [
          ⟨.str "tags", "list[PetTagsItem]", .null⟩, ⟨.str "name", "NotRequired[str]", .null⟩] }] } := rfl
  obtain ⟨made, haccounted⟩ :=
    (inline_records_accounted default depthLimit _ _ (List.mem_singleton_self _)).1 petType "Pet" "Pet" hrun
  obtain ⟨horphans, hrecorded⟩ := haccounted.clear nofun petType_clear
  exact ⟨_, made, hrun, haccounted, rfl, horphans, hrecorded⟩

/-- A record under a key that is no attribute, in an intersection. -/
def mixedType : TypeNode := .intersection [.object [{
  name := .str "x-y", type := .object [{ name := .str "name", type := .primitive .string }] none }] none]

/-- A record in a mixed intersection is declared under two names, and nothing names the first. -/
theorem exists_orphan : ∃ t,
    Runs ((Scope.writer default).render mixedType "Pet") { taken := ["PetXY", literalMark] } "Pet" t ∧
    t.inline.map Declaration.name = ["PetXY2", "PetXY3", "Pet"] ∧
    ¬ NoOrphans ["Pet"] { taken := ["PetXY", literalMark] } t := by
  refine ⟨{
      taken := ["PetXY3", "PetXY2", "Pet", "PetXY", literalMark]
      inline := [
        .record { name := "PetXY2", fields := [⟨.str "name", "NotRequired[str]", .null⟩] },
        .record { name := "PetXY3", fields := [⟨.str "name", "NotRequired[str]", .null⟩] },
        .record { name := "Pet", functional := true, fields := [⟨.str "x-y", "NotRequired[\"PetXY3\"]", .null⟩] }] },
    rfl, rfl, ?_⟩
  rintro ⟨added, declared, hadded, hdeclared, hnamed⟩
  rw [List.nil_append] at hadded
  subst hadded
  have hdeclared : declared = [] := (List.append_nil declared).symm.trans hdeclared.symm
  subst hdeclared
  obtain ⟨text, htext, hnamed⟩ := hnamed _ List.mem_cons_self
  have hinfix := hnamed.isInfix (by decide +kernel)
  have hnowhere : ∀ text ∈ ["Pet", "NotRequired[str]", "NotRequired[str]", "NotRequired[\"PetXY3\"]"],
      ¬ "PetXY2".toList <:+: text.toList := by decide +kernel
  exact hnowhere text htext hinfix

end TypeWriter
end ClientBindings

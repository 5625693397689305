import ClientBindings.Proofs.Source.Bases
import ClientBindings.Proofs.Source.WellNamed

/-! Records of generated modules that are built on others. A record may be printed only behind its bases.
The draft declares everything behind its bases but for plain aliases, which have none themselves, so that
no record is built on itself and the order in which a module is printed exists. -/

namespace ClientBindings

open Draft

section
variable {scope : Scope} {t : Draft} {used : List String} {made : List Declaration}

/-! ## Bases among all that is declared -/

/-- What a draft has made when every alias is declared. -/
structure Draft.Complete (scope : Scope) (t : Draft) (used : List String) (made : List Declaration) : Prop where
  stacked : Stacked scope t used
  aliases : ∀ key a, scope.aliases.lookup key = some a → ∃ d, (key, d) ∈ t.declared
  declared : ∀ e ∈ t.declared, e.2 ∈ made
  mem : ∀ d ∈ made, (∃ key, (key, d) ∈ t.declared) ∨ d ∈ t.inline
  names : (made.map Declaration.name).Nodup

namespace Draft.Complete

variable (h : t.Complete scope used made)
include h

theorem declares {key : String} {a : Alias} {d : Declaration} (hlookup : scope.aliases.lookup key = some a)
    (hd : (key, d) ∈ t.declared) : scope.Declares key a d := by
  obtain ⟨b, hb, hdeclares⟩ := h.stacked.declared _ hd
  obtain rfl : a = b := Option.some.inj (hlookup.symm.trans hb)
  exact hdeclares

/-- A base is declared as a record in class form. -/
theorem exists_record {base : String} (hbase : scope.Based t.declared base) :
    ∃ r, Declaration.record r ∈ made ∧ r.name = base ∧ r.functional = false := by
  obtain ⟨key, a, hlookup, rfl, hplain | ⟨r, hr, hclass⟩⟩ := hbase
  · obtain ⟨d, hd⟩ := h.aliases key a hlookup
    obtain ⟨r, rfl, hclass, _⟩ := (h.declares hlookup hd).plain hplain
    exact ⟨r, h.declared _ hd, (h.declares hlookup hd).name, hclass⟩
  · exact ⟨r, h.declared _ hr, (h.declares hlookup hr).name, hclass⟩

/-- A base is either plain, so that it has no bases itself, or it was declared before. -/
theorem acc_of_based {before : List (String × Declaration)} (hsub : before ⊆ t.declared)
    (hbefore : ∀ e ∈ before, Acc (Declaration.IsBase made) e.2) {b : Declaration} (hb : b ∈ made)
    (hbase : scope.Based before b.name) : Acc (Declaration.IsBase made) b := by
  obtain ⟨key, a, hlookup, hname, hplain | ⟨r, hr, _⟩⟩ := hbase
  · obtain ⟨d, hd⟩ := h.aliases key a hlookup
    have hdeclares := h.declares hlookup hd
    obtain rfl := List.inj_on_of_nodup_map h.names hb (h.declared _ hd) (hname.trans hdeclares.name.symm)
    obtain ⟨r, rfl, _, hnone⟩ := hdeclares.plain hplain
    refine Acc.intro _ fun c hc => ?_
    have hmem : c.name ∈ r.bases := hc.2.2
    rw [hnone] at hmem
    exact absurd hmem List.not_mem_nil
  · have hrecord := h.declares hlookup (hsub hr)
    obtain rfl := List.inj_on_of_nodup_map h.names hb (h.declared _ (hsub hr)) (hname.trans hrecord.name.symm)
    exact hbefore _ hr

theorem acc_declared {es : List (String × Declaration)} (hsub : es ⊆ t.declared) (hlayered : scope.Layered es) :
    ∀ e ∈ es, Acc (Declaration.IsBase made) e.2 := by
  induction es with
  | nil => exact fun e he => absurd he List.not_mem_nil
  | cons e before ih =>
    have hbefore := ih (fun _ hmem => hsub (List.mem_cons_of_mem e hmem)) hlayered.2
    intro other hother
    rcases List.mem_cons.mp hother with rfl | hother
    · refine Acc.intro _ fun b hb => ?_
      exact h.acc_of_based (fun _ hmem => hsub (List.mem_cons_of_mem _ hmem)) hbefore hb.1 (hlayered.1 _ hb.2.2)
    · exact hbefore other hother

theorem acyclic : Declaration.Acyclic made := by
  refine Declaration.acyclic_of_acc fun d hd => ?_
  have hdeclared := h.acc_declared (List.Subset.refl _) h.stacked.layered
  rcases h.mem d hd with ⟨key, hkey⟩ | hinline
  · exact hdeclared _ hkey
  · refine Acc.intro d fun b hb => ?_
    exact h.acc_of_based (List.Subset.refl _) hdeclared hb.1 (h.stacked.inline d hinline _ hb.2.2)

theorem based {d : Declaration} (hd : d ∈ made) : ∀ base ∈ d.bases,
    ∃ r, Declaration.record r ∈ made ∧ r.name = base ∧ r.functional = false := by
  have hlayered : ∀ {es : List (String × Declaration)}, scope.Layered es → ∀ e ∈ es, ∀ base ∈ e.2.bases,
      scope.Based es base := by
    intro es
    induction es with
    | nil => exact fun _ e he => absurd he List.not_mem_nil
    | cons e before ih =>
      intro hes other hother base hbase
      refine Scope.Based.mono (List.subset_cons_self _ _) ?_
      rcases List.mem_cons.mp hother with rfl | hother
      · exact hes.1 base hbase
      · exact ih hes.2 other hother base hbase
  intro base hbase
  refine h.exists_record ?_
  rcases h.mem d hd with ⟨key, hkey⟩ | hinline
  · exact hlayered h.stacked.layered _ hkey base hbase
  · exact h.stacked.inline d hinline base hbase

end Draft.Complete

end

/-! ## The whole module -/

namespace Module

section
variable {scope : Scope} {w : TypeWriter} {s t : Draft}

/-- The names of the aliases are the first ones that are claimed. -/
theorem stacked_ofAliases {naming : Naming} {aliases : List Alias} (hdistinct : (aliases.map Alias.name).Nodup)
    (h : Runs (Scope.ofAliases aliases) { taken := reservedNames naming } scope t) :
    scope.aliases = aliases.map (fun a => (a.name, a)) ∧
      Stacked scope t (aliases.map fun a => scope.nameOf a.name) ∧ t.declaring = [] := by
  obtain ⟨haliases, hsound, _⟩ := @runs_ofAliases _ [] _ _ _ hdistinct h
  have hstart : t.declared = [] ∧ t.declaring = [] ∧ t.inline = [] := by
    simp only [Scope.ofAliases, Runs.bind_iff, Runs.pure_iff] at h
    obtain ⟨names, _, hnames, _, rfl⟩ := h
    refine Runs.mapM_keeps (fun u : Draft => u.declared = [] ∧ u.declaring = [] ∧ u.inline = []) ?_ ⟨rfl, rfl, rfl⟩ hnames
    intro a _ u e v hu he
    simp only [Runs.bind_iff, Runs.pure_iff] at he
    obtain ⟨n, _, hclaim, rfl, rfl⟩ := he
    obtain ⟨rfl, _⟩ := runs_claim_state hclaim
    exact hu
  refine ⟨haliases, ?_, hstart.2.1⟩
  obtain ⟨hdeclared, hdeclaring, hinline⟩ := hstart
  constructor
  case distinct => exact hsound.distinct
  case taken => exact fun n hn => (hsound.names n hn).1
  case keys => simp [hdeclared]
  case apart => simp [hdeclared]
  case declared => simp [hdeclared]
  case layered => simp [hdeclared, Scope.Layered]
  case inline => simp [hinline]

theorem leads_serverEntry (h : w.Builds scope) {indexed : ServerBinding × Nat} {e : ServerEntry}
    (hrun : Runs (serverEntry w indexed) s e t) :
    Leads scope s t ∧ ∀ d, e.declaration = some d → d.bases = [] := by
  obtain ⟨server, index⟩ := indexed
  unfold serverEntry at hrun
  dsimp only at hrun
  split at hrun
  · obtain ⟨rfl, rfl⟩ := Runs.pure_iff.mp hrun
    exact ⟨.refl scope _, fun _ heq => nomatch heq⟩
  · simp only [Runs.bind_iff, Runs.pure_iff] at hrun
    obtain ⟨name, u, hclaim, d, v, hrecord, rfl, rfl⟩ := hrun
    obtain ⟨hut, _, hbases, _⟩ := h.record hrecord
    refine ⟨(leads_claim hclaim).trans hut, ?_⟩
    rintro _ ⟨⟩
    exact hbases

theorem leads_tokenSetter {naming : Naming} {b : SecurityBinding} {setter : TokenSetter}
    (hrun : Runs (tokenSetter naming b) s setter t) : Leads scope s t := by
  simp only [tokenSetter, Runs.bind_iff, Runs.lift_iff, Runs.pure_iff] at hrun
  obtain ⟨base, s, ⟨_, rfl⟩, name, u, hclaim, _, _, ⟨_, rfl⟩, rfl, rfl⟩ := hrun
  exact leads_claim hclaim

theorem leads_argument (h : w.Builds scope) {stem : String} {g : Group} {a : Argument × Option RecordDeclaration}
    (hrun : Runs (argument w stem g) s a t) : Leads scope s t ∧ ∀ d, a.2 = some d → d.bases = [] := by
  unfold argument at hrun
  dsimp only at hrun
  split at hrun
  · simp only [Runs.bind_iff, Runs.pure_iff] at hrun
    obtain ⟨name, u, hclaim, d, v, hrecord, rfl, rfl⟩ := hrun
    obtain ⟨hut, _, hbases, _⟩ := h.record hrecord
    refine ⟨(leads_claim hclaim).trans hut, ?_⟩
    rintro _ ⟨⟩
    exact hbases
  · simp only [Runs.bind_iff, Runs.pure_iff] at hrun
    obtain ⟨text, _, hrender, rfl, rfl⟩ := hrun
    refine ⟨h.render _ _ _ _ _ hrender, ?_⟩
    rintro _ ⟨⟩

theorem leads_operationFunctions (h : w.Builds scope) {naming : Naming} {b : OperationBinding} {f : OperationFunctions}
    (hrun : Runs (operationFunctions naming w b) s f t) : Leads scope s t ∧ ∀ d ∈ f.declarations, d.bases = [] := by
  simp only [operationFunctions, Runs.bind_iff, Runs.lift_iff, Runs.pure_iff] at hrun
  obtain ⟨base, s, ⟨_, rfl⟩, name, s₁, hname, urlName, s₂, hurl, configName, _, hconfig, stem, s₃, ⟨_, rfl⟩,
    arguments, s₄, harguments, result, _, hresult, _, _, ⟨_, rfl⟩, rfl, rfl⟩ := hrun
  have hnames : Leads scope s s₃ := ((leads_claim hname).trans (leads_claim hurl)).trans (leads_claim hconfig)
  have hall := Runs.mapM_keeps (Leads scope s) (fun g _ u a v hu ha => hu.trans (leads_argument h ha).1) hnames harguments
  refine ⟨hall.trans (h.render _ _ _ _ _ hresult), ?_⟩
  intro d hd
  obtain ⟨a, ha, hsome⟩ := List.mem_filterMap.mp hd
  obtain ⟨g, _, u, v, hrun⟩ := Runs.exists_of_mem_mapM harguments ha
  exact (leads_argument h hrun).2 d hsome

/-- Outside of all aliases nothing stands in for one, so what is asked for is declared. -/
theorem leads_aliases (h : w.Builds scope) {aliases : List Alias} {own : List Declaration}
    (haliases : ∀ a ∈ aliases, scope.aliases.lookup a.name = some a) (hs : s.declaring = [])
    (hrun : Runs (aliases.mapM w.declaration) s own t) :
    Leads scope s t ∧ List.Forall₂ (fun a d => (a.name, d) ∈ t.declared) aliases own := by
  induction aliases generalizing s own with
  | nil =>
    obtain ⟨rfl, rfl⟩ := Runs.mapM_nil_iff.mp hrun
    exact ⟨.refl scope _, .nil⟩
  | cons a aliases ih =>
    obtain ⟨d, u, rest, hd, hrest, rfl⟩ := Runs.mapM_cons_iff.mp hrun
    obtain ⟨hsu, hoffered⟩ := h.declaration a.name a (haliases a List.mem_cons_self) s d u hd
    obtain ⟨hut, hdeclared⟩ := ih (fun b hb => haliases b (List.mem_cons_of_mem a hb)) (hsu.declaring.trans hs) hrest
    refine ⟨hsu.trans hut, .cons (hut.declared.subset (hoffered.resolve_right ?_)) hdeclared⟩
    rw [hs]
    exact fun hopen => absurd hopen.1 List.not_mem_nil

end

/-- What is promised of the records of a module that are built on others. -/
structure WellBased (api : Api) (t : Draft) (m : Module) : Prop where
  /-- What was drafted is printed: the declaration of each alias, and the records declared where they stand. -/
  complete : ∃ own, List.Forall₂ (fun (a : Alias) d => t.declared.lookup a.name = some d) api.aliases own ∧
    m.declarations.Perm (own ++ t.inline)
  distinct : (m.declarations.map Declaration.name).Nodup
  bases : ∀ d ∈ m.allDeclarations, ∀ base ∈ d.bases,
    ∃ r, Declaration.record r ∈ m.declarations ∧ r.name = base ∧ r.functional = false
  acyclic : Declaration.Acyclic m.declarations
  ordered : ∀ before d after, m.declarations = before ++ d :: after → ∀ base ∈ d.bases, base ∈ before.map Declaration.name

/-- Once every alias has been declared, the aliases' declarations and the inline ones are all there are. -/
theorem complete_of_aliases {scope : Scope} {aliases : List Alias} {own : List Declaration} {t : Draft}
    (haliases : scope.aliases = aliases.map fun a => (a.name, a))
    (hstacked : Stacked scope t (aliases.map fun a => scope.nameOf a.name))
    (hown : List.Forall₂ (fun a d => (a.name, d) ∈ t.declared) aliases own) :
    t.Complete scope (aliases.map fun a => scope.nameOf a.name) (own ++ t.inline) := by
  have hmem : ∀ {key a}, scope.aliases.lookup key = some a → a ∈ aliases ∧ a.name = key := by
    intro key a hlookup
    obtain ⟨b, hb, heq⟩ := List.mem_map.mp (haliases ▸ Entries.mem_of_lookup hlookup)
    cases heq
    exact ⟨hb, rfl⟩
  have hdeclared : ∀ {key a}, scope.aliases.lookup key = some a → ∃ d ∈ own, (key, d) ∈ t.declared := by
    intro key a hlookup
    obtain ⟨ha, rfl⟩ := hmem hlookup
    exact exists_of_mem_forall₂ hown.flip ha
  have hnames : own.map Declaration.name = aliases.map fun a => scope.nameOf a.name := by
    rw [← List.forall₂_eq_eq_eq, List.forall₂_map_left_iff, List.forall₂_map_right_iff]
    refine hown.flip.imp fun d a hd => ?_
    obtain ⟨_, _, hdeclares⟩ := hstacked.declared _ hd
    exact hdeclares.name
  constructor
  case stacked => exact hstacked
  case aliases =>
    intro key a hlookup
    obtain ⟨d, _, hd⟩ := hdeclared hlookup
    exact ⟨d, hd⟩
  case declared =>
    rintro ⟨key, d⟩ hd
    obtain ⟨a, hlookup, _⟩ := hstacked.declared _ hd
    obtain ⟨other, hother, hotherDeclared⟩ := hdeclared hlookup
    have heq := (Entries.lookup_of_mem hstacked.keys hd).symm.trans (Entries.lookup_of_mem hstacked.keys hotherDeclared)
    obtain rfl : d = other := Option.some.inj heq
    exact List.mem_append_left _ hother
  case mem =>
    intro d hd
    rcases List.mem_append.mp hd with hd | hd
    · obtain ⟨a, _, hdeclared⟩ := exists_of_mem_forall₂ hown hd
      exact Or.inl ⟨a.name, hdeclared⟩
    · exact Or.inr hd
  case names =>
    rw [List.map_append, hnames]
    exact hstacked.distinct

theorem runs_draftAt_wellBased {api : Api} (hdistinct : (api.aliases.map Alias.name).Nodup) {naming : Naming}
    {depth : Nat} {m : Module} {t : Draft}
    (hrun : Runs (draftAt depth api naming) { taken := reservedNames naming } m t) : m.WellBased api t := by
  simp only [draftAt, Runs.bind_iff, Runs.get_iff, Runs.pure_iff] at hrun
  obtain ⟨scope, s₀, hscope, servers, s₁, hservers, setters, s₂, hsetters, own, s₃, hown, operations, _, hoperations,
    _, t, ⟨rfl, rfl⟩, rfl, rfl⟩ := hrun
  obtain ⟨haliases, hstart, hdeclaring⟩ := stacked_ofAliases hdistinct hscope
  have hkeys : (scope.aliases.map Prod.fst).Nodup := by
    rw [haliases, List.map_map]
    exact hdistinct
  have hlookup : ∀ a ∈ api.aliases, scope.aliases.lookup a.name = some a := fun a ha =>
    Entries.lookup_of_mem hkeys (haliases ▸ List.mem_map_of_mem ha)
  have hwriter := TypeWriter.atDepth_builds (Scope.keyed_of_aliases haliases) depth
  have h₁ := Runs.mapM_keeps (Leads scope s₀) (fun _ _ _ _ _ hu he => hu.trans (leads_serverEntry hwriter he).1)
    (.refl scope s₀) hservers
  have h₂ := Runs.mapM_keeps (Leads scope s₀) (fun _ _ _ _ _ hu he => hu.trans (leads_tokenSetter he)) h₁ hsetters
  obtain ⟨h₃, hdeclared⟩ := leads_aliases hwriter hlookup (h₂.declaring.trans hdeclaring) hown
  have h₄ := Runs.mapM_keeps (Leads scope s₃) (fun _ _ _ _ _ hu hf => hu.trans (leads_operationFunctions hwriter hf).1)
    (.refl scope s₃) hoperations
  have hstacked := ((h₂.trans h₃).trans h₄).stacked _ hstart
  have hdeclared := hdeclared.imp fun a d hd => h₄.declared.subset hd
  have hcomplete := complete_of_aliases haliases hstacked hdeclared
  have hperm := Declaration.ordered_perm hcomplete.names
  have hordered := Declaration.ordered_basesFirst hcomplete.names hcomplete.acyclic
  constructor
  case complete => exact ⟨own, hdeclared.imp fun a d hd => Entries.lookup_of_mem hstacked.keys hd, hperm⟩
  case distinct => exact (hperm.map Declaration.name).nodup_iff.mpr hcomplete.names
  case bases =>
    intro d hd base hbase
    simp only [allDeclarations, List.mem_append, List.mem_filterMap, List.mem_flatMap, List.mem_map,
      Option.map_eq_some_iff] at hd
    rcases hd with (⟨e, he, r, hr, rfl⟩ | hd) | ⟨f, hf, r, hr, rfl⟩
    · obtain ⟨_, _, _, _, hentry⟩ := Runs.exists_of_mem_mapM hservers he
      rw [Declaration.bases, (leads_serverEntry hwriter hentry).2 r hr] at hbase
      exact absurd hbase List.not_mem_nil
    · obtain ⟨r, hr, hname, hclass⟩ := hcomplete.based (hperm.mem_iff.mp hd) base hbase
      exact ⟨r, hperm.mem_iff.mpr hr, hname, hclass⟩
    · obtain ⟨_, _, _, _, hfunctions⟩ := Runs.exists_of_mem_mapM hoperations hf
      rw [Declaration.bases, (leads_operationFunctions hwriter hfunctions).2 r hr] at hbase
      exact absurd hbase List.not_mem_nil
  case acyclic => exact hcomplete.acyclic.perm hperm.symm
  case ordered =>
    intro before d after heq base hbase
    have hprinted : Declaration.ordered (own ++ t.inline) = before ++ d :: after := heq
    have hd : d ∈ own ++ t.inline := hperm.mem_iff.mp (hprinted ▸ List.mem_append_right before List.mem_cons_self)
    obtain ⟨r, hr, rfl, _⟩ := hcomplete.based hd base hbase
    exact List.mem_map_of_mem (hordered before d after hprinted _ ⟨hr, hd, hbase⟩)

/-- In a module made of a compiled document records are printed behind their bases, however deep its types
may be nested. -/
theorem ofApiAt_wellBased {document : Data} {item : Option Item} {naming moduleNaming : Naming} {api : Api}
    {depth : Nat} {m : Module} (hcompile : Api.compile document item naming = .ok api)
    (hbuild : ofApiAt depth api moduleNaming = .ok m) :
    ∃ t, Runs (draftAt depth api moduleNaming) { taken := reservedNames moduleNaming } m t ∧ m.WellBased api t := by
  have hrun : Runs (draftAt depth api moduleNaming) { taken := reservedNames moduleNaming } m _ := Prod.ext hbuild rfl
  exact ⟨_, hrun, runs_draftAt_wellBased (Api.compile_typed hcompile).distinct hrun⟩

/-- A record that is declared behind one that is built on it, and holds another one of these. -/
def kennel : Data := .object [
  ("openapi", .str "3.0.0"),
  ("paths", .object [("/kennel", .object [("get", .object [
    ("operationId", .str "kennel"),
    ("responses", .object [("200", .object [("content", .object [("application/json",
      .object [("schema", Schema.refTo "#/components/schemas/Pet")])])])])])])]),
  ("components", .object [("schemas", .object [
    ("Dog", .object [("allOf", .list [Schema.refTo "#/components/schemas/Pet",
      .object [("type", .str "object"), ("properties", .object [("tail", .object [])])]])]),
    ("Pet", .object [("type", .str "object"), ("properties", .object [
      ("guard", Schema.refTo "#/components/schemas/Dog"),
      ("twin", .object [("allOf", .list [Schema.refTo "#/components/schemas/Pet",
        .object [("type", .str "object"), ("properties", .object [("age", .object [])])]])])])])])])]

theorem ofApiAt_wellBased_kennel : ∃ api m t, Api.compile kennel none {} = .ok api ∧ ofApi api {} = .ok m ∧
    api.aliases.map Alias.name = ["Dog", "Pet"] ∧
    m.declarations.map (fun d => (d.name, d.bases)) = [("Pet", []), ("Dog", ["Pet"]), ("PetTwin", ["Pet"])] ∧
    m.WellBased api t := by
  have hrun : (do
      let api ← Api.compile kennel none {}
      let m ← ofApi api {}
      return (api.aliases.map Alias.name, m.declarations.map fun d => (d.name, d.bases)) : Result _).toOption =
      some (["Dog", "Pet"], [("Pet", []), ("Dog", ["Pet"]), ("PetTwin", ["Pet"])]) := by decide +kernel
  have hok := Result.eq_ok_of_toOption hrun
  simp only [Result.bind_eq_ok_iff, Result.pure_eq_ok_iff, Prod.mk.injEq] at hok
  obtain ⟨api, hcompile, m, hbuild, haliases, hdeclarations⟩ := hok
  obtain ⟨t, _, hbased⟩ := ofApiAt_wellBased hcompile hbuild
  exact ⟨api, m, t, hcompile, hbuild, haliases, hdeclarations, hbased⟩

end Module
end ClientBindings

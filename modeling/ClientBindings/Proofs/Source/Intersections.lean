import ClientBindings.Proofs.Source.Composition

/-! Intersections that become records. Whatever was asked of a draft before, and whatever failed of it, the record
made of an intersection has the keys of its members. Where nothing failed, all that it is built on is declared as
soon as no alias is being declared any more. -/

namespace ClientBindings

open Draft

/-! ## The names of aliases -/

section
variable {aliases : List Alias} {reserved : List String} {scope : Scope} {s t : Draft}

/-- Each alias claims a name that was free, whether or not it is the only one of its name. -/
theorem runs_claimNames {names : List (String × String)}
    (h : Runs (aliases.mapM fun a => do
      return (a.name, ← claim (Scope.nonEmpty (Identifier.normalize a.name) "Alias")) : M _) s names t) :
    names.map Prod.fst = aliases.map Alias.name ∧ (names.map Prod.snd).Nodup ∧
      (∀ e ∈ names, e.2 ∉ s.taken ∧ Identifier.isValid e.2 = true) ∧ t.declared = s.declared ∧
      t.declaring = s.declaring := by
  induction aliases generalizing s names with
  | nil =>
    obtain ⟨rfl, rfl⟩ := Runs.mapM_nil_iff.mp h
    exact ⟨rfl, List.nodup_nil, fun e he => absurd he List.not_mem_nil, rfl, rfl⟩
  | cons a aliases ih =>
    obtain ⟨e, u, rest, he, hrest, rfl⟩ := Runs.mapM_cons_iff.mp h
    simp only [Runs.bind_iff, Runs.pure_iff] at he
    obtain ⟨n, _, hclaim, rfl, rfl⟩ := he
    have hvalid : Identifier.isValid n = true := by
      rw [runs_claim_eq hclaim]
      exact Identifier.isValid_freshName (isValid_aliasName a.name) _
    obtain ⟨rfl, hfresh⟩ := runs_claim_state hclaim
    obtain ⟨hkeys, hdistinct, hnames, hdeclared, hdeclaring⟩ := ih hrest
    refine ⟨?_, ?_, ?_, hdeclared, hdeclaring⟩
    · rw [List.map_cons, List.map_cons, hkeys]
    · rw [List.map_cons, List.nodup_cons]
      refine ⟨fun hmem => ?_, hdistinct⟩
      obtain ⟨e, he, hsame⟩ := List.mem_map.mp hmem
      exact (hnames e he).1 (hsame ▸ List.mem_cons_self)
    · intro e he
      rcases List.mem_cons.mp he with rfl | he
      · exact ⟨hfresh, hvalid⟩
      · obtain ⟨hnew, hvalid⟩ := hnames e he
        exact ⟨fun hmem => hnew (List.mem_cons_of_mem _ hmem), hvalid⟩

/-- Of several aliases of one name the last one counts. -/
theorem lookup_ofList {ν : Type} {es : List (String × ν)} {key : String} :
    (Entries.ofList (· == ·) es).lookup key = Entries.find? (· == ·) es.reverse key := by
  rw [← Entries.find?_eq_lookup, Entries.find?_ofList Entries.beq_equivalence]

theorem mem_of_lookup_ofList {ν : Type} {es : List (String × ν)} {key : String} {v : ν}
    (h : (Entries.ofList (· == ·) es).lookup key = some v) : (key, v) ∈ es := by
  rw [lookup_ofList] at h
  obtain ⟨key', hmem, hkey⟩ := Entries.mem_of_find? h
  obtain rfl : key' = key := by simpa using hkey
  exact List.mem_reverse.mp hmem

theorem Scope.nameOf_mem {names : List (String × String)} (hscope : scope.names = Entries.ofList (· == ·) names)
    (hvalid : ∀ e ∈ names, Identifier.isValid e.2 = true) {name : String} (hname : name ∈ names.map Prod.fst) :
    (name, scope.nameOf name) ∈ names := by
  obtain ⟨e, he, rfl⟩ := List.mem_map.mp hname
  obtain ⟨key, n, hmem, hkey, hfound⟩ := Entries.exists_find?_ofList Entries.beq_equivalence he
  obtain rfl : key = e.1 := by simpa using hkey
  rw [Entries.find?_eq_lookup, ← hscope] at hfound
  have hne : ¬ n.isEmpty = true := by
    intro hempty
    have hvalid := hvalid _ hmem
    rw [String.isEmpty_iff.mp hempty] at hvalid
    cases hvalid
  rwa [Scope.nameOf, hfound, Option.getD_some, Scope.nonEmpty, if_neg hne]

/-- In the scope of any list of aliases they stand under their names and are declared under different ones. -/
theorem runs_ofAliases_apart (h : Runs (Scope.ofAliases aliases) { taken := reserved } scope t) :
    scope.Keyed ∧ scope.NamesApart ∧ t.declared = [] ∧ t.declaring = [] ∧
      ∀ name, scope.aliases.lookup name = Entries.find? (· == ·) (aliases.map fun a => (a.name, a)).reverse name := by
  simp only [Scope.ofAliases, Runs.bind_iff, Runs.pure_iff] at h
  obtain ⟨names, _, hnames, hscope, rfl⟩ := h
  obtain ⟨hkeys, hdistinct, hclaimed, hdeclared, hdeclaring⟩ := runs_claimNames hnames
  have halias : ∀ name a, scope.aliases.lookup name = some a → a ∈ aliases ∧ a.name = name := by
    intro name a hlookup
    rw [hscope] at hlookup
    obtain ⟨b, hb, heq⟩ := List.mem_map.mp (mem_of_lookup_ofList hlookup)
    cases heq
    exact ⟨hb, rfl⟩
  have hnamed : ∀ name a, scope.aliases.lookup name = some a → (name, scope.nameOf name) ∈ names := by
    intro name a hlookup
    obtain ⟨ha, rfl⟩ := halias name a hlookup
    refine Scope.nameOf_mem (by rw [hscope]) (fun e he => (hclaimed e he).2) ?_
    rw [hkeys]
    exact List.mem_map_of_mem ha
  refine ⟨fun name a hlookup => (halias name a hlookup).2, ?_, hdeclared, hdeclaring, fun name => ?_⟩
  · intro name a name' a' hlookup hlookup' hsame
    have heq := List.inj_on_of_nodup_map hdistinct (hnamed name a hlookup) (hnamed name' a' hlookup') hsame
    exact (Prod.mk.inj heq).1
  · rw [hscope, lookup_ofList]

end

namespace Draft

/-! ## Drafts that can be reached -/

/-- What may be asked of a draft. -/
inductive Request (scope : Scope) : {α : Type} → M α → Prop
  | render (depth : Nat) (t : TypeNode) (hint : String) : Request scope ((TypeWriter.atDepth scope depth).render t hint)
  | declaration (depth : Nat) {name : String} {a : Alias} : scope.aliases.lookup name = some a →
      Request scope ((TypeWriter.atDepth scope depth).declaration a)
  | record (depth : Nat) (name : String) (fields : List Field) (doc : Data) (bases : List String) :
      Request scope ((TypeWriter.atDepth scope depth).record name fields doc bases)
  | compose (depth : Nat) (name : String) (members : List TypeNode) (doc : Data) :
      Request scope ((TypeWriter.atDepth scope depth).compose scope name members doc)

/-- The drafts after `start`, and whether all that was asked succeeded. Between two requests names may be claimed and
records added, and the declaration of an alias may have begun inside of which more is asked. -/
inductive Drafted (scope : Scope) (start : Draft) : Bool → Draft → Prop
  | start : Drafted scope start true start
  | names {clean : Bool} {s t : Draft} : Drafted scope start clean s → t.declared = s.declared →
      t.declaring = s.declaring → Drafted scope start clean t
  | enter {clean : Bool} {s : Draft} {name : String} : Drafted scope start clean s →
      Drafted scope start clean { s with declaring := name :: s.declaring }
  | request {clean : Bool} {s : Draft} {α : Type} {m : M α} : Drafted scope start clean s → Request scope m →
      Drafted scope start (clean && (Id.run (m.run s)).1.isOk) (Id.run (m.run s)).2

section
variable {scope : Scope} {start s t : Draft} {clean : Bool} {α : Type} {m : M α}

theorem Request.advances (hkeyed : scope.Keyed) (h : Request scope m) : Advances scope m := by
  cases h with
  | render depth t hint => exact (TypeWriter.atDepth_advancing hkeyed depth).render t hint
  | declaration depth hlookup => exact (TypeWriter.atDepth_advancing hkeyed depth).declaration _ _ hlookup
  | record depth => exact (TypeWriter.atDepth_advancing hkeyed depth).record
  | compose depth => exact (TypeWriter.atDepth_advancing hkeyed depth).compose

theorem Drafted.runs (h : Drafted scope start clean s) (hm : Request scope m) {a : α} (hrun : Runs m s a t) :
    Drafted scope start clean t := by
  have ht := h.request hm
  rw [hrun] at ht
  simpa [Except.isOk, Except.toBool] using ht

/-- What is true of the declarations of all drafts, and of those where nothing failed. -/
theorem Drafted.recorded (hkeyed : scope.Keyed) (hstart : start.declared = []) (h : Drafted scope start clean s) :
    scope.Recorded s.declared ∧ (clean = true → scope.Upheld s) := by
  induction h with
  | start =>
    rw [Scope.Recorded, Scope.Upheld, hstart]
    exact ⟨fun e he => absurd he List.not_mem_nil, fun _ _ _ hr => absurd hr List.not_mem_nil⟩
  | names _ hdeclared hdeclaring ih =>
    have hst : Onward scope true _ _ := .of_eq hdeclared hdeclaring
    exact ⟨hst.recorded ih.1, fun hclean => hst.upheld rfl (ih.2 hclean)⟩
  | enter _ ih =>
    refine ⟨ih.1, fun hclean name r hr base hbase => ?_⟩
    exact (ih.2 hclean name r hr base hbase).mono (List.Subset.refl _) (List.subset_cons_self _ _)
  | @request clean s α m _ hm ih =>
    have hst := (hm.advances hkeyed).onward s
    refine ⟨hst.recorded ih.1, fun hclean => ?_⟩
    obtain ⟨hclean, hok⟩ := Bool.and_eq_true_iff.mp hclean
    exact hst.upheld hok (ih.2 hclean)

end
end Draft

/-! ## Keys of intersections -/

namespace Scope

variable {scope : Scope} {t u : Draft} {d : RecordDeclaration}

/-- What supports a base is declared once all aliases are that were being declared. -/
theorem Supported.exists_record {base : String} (h : scope.Supported t base) (hrecorded : scope.Recorded u.declared)
    (hsub : t.declared ⊆ u.declared) (hopened : ∀ name ∈ t.declaring, name ∈ u.declared.map Prod.fst) :
    ∃ name q, base = scope.nameOf name ∧ (name, .record q) ∈ u.declared := by
  obtain ⟨name, rfl, ⟨q, hq⟩ | ⟨hopen, a, hlookup, hplain⟩⟩ := h
  · exact ⟨name, q, rfl, hsub hq⟩
  · obtain ⟨⟨_, e⟩, he, rfl⟩ := List.mem_map.mp (hopened name hopen)
    obtain ⟨b, hrecords⟩ := hrecorded _ he
    obtain rfl : a = b := Option.some.inj (hlookup.symm.trans hrecords.lookup)
    obtain ⟨q, rfl⟩ := hrecords.plain hplain
    exact ⟨_, q, rfl, he⟩

theorem resolved_of_upheld (hu : scope.Upheld u) (hrecorded : scope.Recorded u.declared) (hdone : u.declaring = [])
    (hd : ∀ base ∈ d.bases, ∃ name q, base = scope.nameOf name ∧ (name, .record q) ∈ u.declared) :
    scope.Resolved u.declared d := by
  have hopened : ∀ name ∈ u.declaring, name ∈ u.declared.map Prod.fst := by
    rw [hdone]
    exact fun name hname => absurd hname List.not_mem_nil
  intro r hr base hbase
  rcases Relation.ReflTransGen.cases_tail hr with rfl | ⟨_, _, name, _, hdeclared⟩
  · exact hd base hbase
  · exact (hu name r hdeclared base hbase).exists_record hrecorded (List.Subset.refl _) hopened

end Scope

/-- What is promised of a record that was made of an intersection, from the draft `s` to the draft `t`. -/
structure Composed (scope : Scope) (start : Draft) (clean : Bool) (members : List TypeNode) (s : Draft)
    (d : RecordDeclaration) (t : Draft) : Prop where
  /-- With all that it is built on declared, it has the keys of the members. -/
  keys : ∀ {after u}, Drafted scope start after u → scope.Resolved u.declared d →
    ∀ key, scope.DeclaresKey u.declared d key ↔ ∃ m ∈ members, scope.HasKey m key
  /-- All that it is built on is declared when no alias is being declared any more. -/
  resolved : clean = true → ∀ {u}, Drafted scope start true u → t.declared ⊆ u.declared → u.declaring = [] →
    (∀ name ∈ t.declaring, name ∈ u.declared.map Prod.fst) → scope.Resolved u.declared d
  /-- Outside of all declarations that is at once. -/
  settled : clean = true → s.declaring = [] →
    ∀ key, scope.DeclaresKey t.declared d key ↔ ∃ m ∈ members, scope.HasKey m key
  /-- Merged into one record they are the same keys. -/
  merged : ∀ {depth name doc u r v},
    Runs ((TypeWriter.atDepth scope depth).merged scope name (.intersection members) doc) u (some r) v →
      r.bases = [] ∧ ∀ key, r.Owns key ↔ ∃ m ∈ members, scope.HasKey m key

/-- A record made of an intersection has the keys of the members, own or from the declarations it is based on. -/
theorem compose_keepsKeys {aliases : List Alias} {reserved : List String} {scope : Scope} {start : Draft}
    (hstart : Runs (Scope.ofAliases aliases) { taken := reserved } scope start) {clean : Bool} {s : Draft}
    (hs : Drafted scope start clean s) {depth : Nat} {name : String} {members : List TypeNode} {doc : Data}
    {d : RecordDeclaration} {t : Draft}
    (hrun : Runs ((TypeWriter.atDepth scope depth).compose scope name members doc) s (some d) t) :
    Composed scope start clean members s d t := by
  obtain ⟨hkeyed, hapart, hdeclared, _, _⟩ := runs_ofAliases_apart hstart
  obtain ⟨hmakes, hbases⟩ := (TypeWriter.atDepth_builds hkeyed depth).makes_compose hrun
  have hleads := ((TypeWriter.atDepth_builds hkeyed depth).compose hrun).1
  have ht := hs.runs (.compose depth name members doc) hrun
  have hkeys : ∀ {after u}, Drafted scope start after u → scope.Resolved u.declared d →
      ∀ key, scope.DeclaresKey u.declared d key ↔ ∃ m ∈ members, scope.HasKey m key := by
    intro after u hu hresolved key
    rw [← Scope.hasKey_intersection_iff]
    exact hmakes.declaresKey_iff (hu.recorded hkeyed hdeclared).1 hapart hresolved
  have hresolved : ∀ {u}, Drafted scope start true u → t.declared ⊆ u.declared → u.declaring = [] →
      (∀ name ∈ t.declaring, name ∈ u.declared.map Prod.fst) → scope.Resolved u.declared d := by
    intro u hu hsub hdone hopened
    obtain ⟨hrecorded, hupheld⟩ := hu.recorded hkeyed hdeclared
    apply Scope.resolved_of_upheld (hupheld rfl) hrecorded hdone
    exact fun base hbase => (hbases base hbase).exists_record hrecorded hsub hopened
  constructor
  case keys => exact hkeys
  case resolved => exact fun _ => hresolved
  case settled =>
    intro hclean hdone
    subst hclean
    have hdone : t.declaring = [] := hleads.declaring.trans hdone
    refine hkeys ht (hresolved ht (List.Subset.refl _) hdone ?_)
    rw [hdone]
    exact fun name hname => absurd hname List.not_mem_nil
  case merged =>
    intro depth name doc u r v hmerged
    obtain ⟨hbases, howns⟩ := (TypeWriter.atDepth_builds hkeyed depth).makes_merged hmerged
    refine ⟨hbases, fun key => ?_⟩
    rw [howns, Scope.hasKey_intersection_iff]

/-- A record and another one that is built on it and asked for inside of it. -/
def petAliases : List Alias := [
  .synonym "Dog" none (.intersection [.reference "Pet" none, .object [{ name := .str "tail", type := .string }] none]) .null,
  .synonym "Pet" none (.object [{ name := .str "name", type := .string },
    { name := .str "guard", type := .intersection [.reference "Dog" none,
      .object [{ name := .str "badge", type := .string }] none] }] none) .null]

def puppyParts : List TypeNode := [.reference "Pet" none, .reference "Dog" none, .object [{ name := .str "age", type := .number }] none]

theorem compose_keepsKeys_puppy : ∃ scope start d t,
    Runs (Scope.ofAliases petAliases) { taken := [] } scope start ∧
      Runs ((TypeWriter.atDepth scope 9).compose scope "Puppy" puppyParts .null) start (some d) t ∧
      Composed scope start true puppyParts start d t ∧ d.bases = ["Pet", "Dog"] ∧
      scope.DeclaresKey t.declared d (.str "tail") := by
  have hrun : (Id.run ((do
      let scope ← Scope.ofAliases petAliases
      let found ← (TypeWriter.atDepth scope 9).compose scope "Puppy" puppyParts .null
      return found.map RecordDeclaration.bases : M _).run { taken := [] })).1.toOption.map id =
      some (some ["Pet", "Dog"]) := by decide +kernel
  obtain ⟨_, t, hrun, rfl⟩ := Runs.exists_of_toOption hrun
  simp only [Runs.bind_iff, Runs.pure_iff] at hrun
  obtain ⟨scope, start, hstart, found, _, hcompose, hfound, rfl⟩ := hrun
  obtain ⟨d, rfl, hbases⟩ := Option.map_eq_some_iff.mp hfound.symm
  have hcomposed := compose_keepsKeys hstart .start hcompose
  obtain ⟨_, _, _, hdeclaring, hlookup⟩ := runs_ofAliases_apart hstart
  refine ⟨scope, start, d, t, hstart, hcompose, hcomposed, hbases, ?_⟩
  refine (hcomposed.settled rfl hdeclaring _).mpr ⟨.reference "Dog" none, by simp [puppyParts], ?_⟩
  have hdog : scope.aliases.lookup "Dog" = some _ := hlookup "Dog"
  exact .follow hdog (.member (List.mem_cons_of_mem _ List.mem_cons_self) (.field ⟨_, List.mem_cons_self, rfl⟩))

end ClientBindings

import ClientBindings.Proofs.Source.Ordering
import ClientBindings.Proofs.Source.Writer
import Mathlib.Data.List.Forall2

/-! Generated modules are closed and bind every name once. The names come from servers, tokens, aliases,
records and operations; all of them are claimed in one draft, so what the draft keeps holds of the
module. -/

namespace ClientBindings

open Draft

/-! ## What a module binds and which types it names -/

namespace ServerEntry

def boundNames (e : ServerEntry) : List String := (e.declaration.map RecordDeclaration.name).toList

/-- The type names the record of the variables, if there is one, and the record is closed. -/
def Closed (Known : String → Prop) (words : List String) (e : ServerEntry) : Prop :=
  match e.declaration with
  | none => e.type = "None"
  | some d => e.type = d.name ++ " | None" ∧ (Declaration.record d).Closed Known words

theorem Closed.mono {Known More : String → Prop} {words : List String} {e : ServerEntry}
    (hmore : ∀ n, Known n → More n) (h : e.Closed Known words) : e.Closed More words := by
  unfold Closed at h ⊢
  split
  · rename_i hnone
    rwa [hnone] at h
  · rename_i d hsome
    rw [hsome] at h
    exact ⟨h.1, h.2.mono hmore⟩

end ServerEntry

namespace OperationFunctions

def recordNames (f : OperationFunctions) : List String := f.declarations.map RecordDeclaration.name

def boundNames (f : OperationFunctions) : List String := f.name :: f.urlName :: f.configName :: f.recordNames

/-- The texts of an operation that are annotations. -/
def annotations (f : OperationFunctions) : List String :=
  f.result :: (f.arguments ++ f.urlArguments ++ f.configArguments).map Argument.type

/-- Records are closed; an argument may be annotated by the name of one of them. -/
structure Closed (Known : String → Prop) (words : List String) (f : OperationFunctions) : Prop where
  annotations : ∀ text ∈ f.annotations, text ∈ f.recordNames ∨ Annotation (Beside Known words) text
  declarations : ∀ d ∈ f.declarations, (Declaration.record d).Closed Known words

theorem Closed.mono {Known More : String → Prop} {words : List String} {f : OperationFunctions}
    (hmore : ∀ n, Known n → More n) (h : f.Closed Known words) : f.Closed More words where
  annotations text htext := (h.annotations text htext).imp_right fun h => h.mono (Beside.mono hmore)
  declarations d hd := (h.declarations d hd).mono hmore

end OperationFunctions

/-- The types of an API at their leaves: those of aliases, arguments and responses. -/
def Api.leaves (api : Api) : List TypeNode :=
  api.aliases.flatMap Alias.leaves ++
    api.operations.flatMap fun b => (b.groups.flatMap fun g => g.type.leaves) ++ b.responseType.leaves

/-- The words that literals of an API are shown as. -/
def Api.words (api : Api) : List String := api.leaves.filterMap TypeNode.word?

namespace Module

def boundNames (m : Module) : List String :=
  m.operations.flatMap OperationFunctions.boundNames ++ m.setters.map TokenSetter.name ++
    m.servers.flatMap ServerEntry.boundNames ++ m.declarations.map Declaration.name

/-- All declarations of types, wherever they stand. -/
def allDeclarations (m : Module) : List Declaration :=
  m.servers.filterMap (fun e => e.declaration.map Declaration.record) ++ m.declarations ++
    m.operations.flatMap fun f => f.declarations.map Declaration.record

/-- The types that a module may name: those imported or built in, and those it declares. -/
def Knows (m : Module) (n : String) : Prop :=
  n ∈ providedNames m.naming ∨ n ∈ m.allDeclarations.map Declaration.name

def annotations (m : Module) : List String :=
  m.allDeclarations.flatMap Declaration.annotations ++ m.servers.map ServerEntry.type ++
    m.operations.flatMap OperationFunctions.annotations

/-- What is promised of the names of a module. Its annotations are closed but for the words that stand for floats. -/
structure WellNamed (api : Api) (m : Module) : Prop where
  distinct : m.boundNames.Nodup
  unreserved : ∀ n ∈ m.boundNames, n ∉ reservedNames m.naming
  valid : ∀ n ∈ m.boundNames, Identifier.isValid n = true
  annotations : ∀ text ∈ m.annotations, Annotation (Beside m.Knows api.words) text
  closed : api.words = [] → ∀ text ∈ m.annotations, Annotation m.Knows text
  bases : ∀ d ∈ m.allDeclarations, ∀ base ∈ d.bases, m.Knows base
  /-- Every alias is declared, each by a declaration of its own that is named after it. -/
  aliases : ∃ own, own.Subperm m.declarations ∧
    List.Forall₂ (fun (d : Declaration) (a : Alias) => NamedAfter d.name a.name) own api.aliases
  servers : m.servers.length = api.servers.length
  setters : m.setters.length = api.security.length
  operations : m.operations.length = api.operations.length

section
variable {scope : Scope} {naming : Naming} {words : List String} {w : TypeWriter} {s t : Draft} {used : List String}

/-! ## Texts that become parts of names -/

theorem identifierWith_isNameOrEmpty {convert : String → String} {d : Data} {name : String}
    (hconvert : ∀ text, Identifier.IsNameOrEmpty (convert text)) (h : identifierWith convert d = .ok name) :
    Identifier.IsNameOrEmpty name := by
  unfold identifierWith at h
  split at h
  · exact Or.inl (Result.pure_eq_ok_iff.mp h).symm
  · split at h
    · exact Result.pure_eq_ok_iff.mp h ▸ hconvert _
    · exact absurd h Result.throw_ne_ok

theorem isValid_functionName {d : Data} {other name : String} (hother : Identifier.isValid other = true)
    (h : functionName d other = .ok name) : Identifier.isValid name = true := by
  simp only [functionName, Result.bind_eq_ok_iff, Result.pure_eq_ok_iff] at h
  obtain ⟨text, htext, rfl⟩ := h
  have hname := identifierWith_isNameOrEmpty (fun _ => Identifier.normalize_isNameOrEmpty _) htext
  exact Identifier.isValid_nonEmpty hname hother

/-! ## Servers and tokens -/

theorem isValid_serverName (index : Nat) :
    Identifier.isValid ("Server" ++ toString index ++ "Variables") = true := by
  refine Identifier.isValid_of_marked ?_ (c := 'S') (by simp) (by decide)
  rw [String.toList_append, String.toList_append]
  refine Identifier.hasShape_append (Identifier.hasShape_append (by decide) ?_) (by decide)
  exact Identifier.all_isPart_toString index

theorem fits_serverVariables {server : ServerBinding} {fields : List Field} (h : server.overrides = some fields) :
    ∀ f ∈ fields, scope.Fits naming words f.type := by
  unfold ServerBinding.overrides at h
  split at h
  · cases h
  obtain rfl := Option.some.inj h
  intro f hf
  obtain ⟨v, _, rfl⟩ := List.mem_map.mp hf
  intro leaf hleaf
  simp only [ServerVariable.field, ServerVariable.type] at hleaf
  split at hleaf
  · rw [List.mem_singleton.mp hleaf]
    exact ⟨trivial, nofun⟩
  · rcases TypeNode.mem_leaves_unionOf hleaf with rfl | ⟨type, htype, hleaf⟩
    · exact ⟨trivial, nofun⟩
    · obtain ⟨text, _, rfl⟩ := List.mem_map.mp htype
      rw [List.mem_singleton.mp hleaf]
      exact ⟨rfl, nofun⟩

theorem runs_serverEntry (h : w.Keeps scope naming words) {indexed : ServerBinding × Nat} {e : ServerEntry}
    (hs : Sound scope naming words s used) (hrun : Runs (serverEntry w indexed) s e t) :
    Sound scope naming words t (e.boundNames ++ used) ∧ s.inline <+: t.inline ∧ e.Closed (scope.Knows naming t) words := by
  obtain ⟨server, index⟩ := indexed
  unfold serverEntry at hrun
  dsimp only at hrun
  split at hrun
  · obtain ⟨rfl, rfl⟩ := Runs.pure_iff.mp hrun
    exact ⟨hs, List.prefix_refl _, rfl⟩
  · rename_i fields hfields
    simp only [Runs.bind_iff, Runs.pure_iff] at hrun
    obtain ⟨name, u, hclaim, d, v, hrecord, rfl, rfl⟩ := hrun
    obtain ⟨hu, hinline⟩ := runs_claim hs (isValid_serverName index) hclaim
    obtain ⟨ht, hgrows, rfl, hclosed⟩ := h.recordAlone (fits_serverVariables hfields) hu hrecord
    exact ⟨ht, hinline ▸ hgrows, rfl, hclosed⟩

theorem isValid_setterName {base : String} (h : Identifier.isValid base = true) :
    Identifier.isValid ("set_token_" ++ base) = true := by
  refine Identifier.isValid_of_marked ?_ (c := '_') (by simp) (by decide)
  rw [String.toList_append]
  exact Identifier.hasShape_append (by decide)
    (Identifier.all_isPart_of_hasShape (Identifier.hasShape_of_isValid h))

theorem runs_tokenSetter {b : SecurityBinding} {setter : TokenSetter} (hs : Sound scope {} words s used)
    (hrun : Runs (tokenSetter {} b) s setter t) :
    Sound scope {} words t (setter.name :: used) ∧ s.inline <+: t.inline := by
  simp only [tokenSetter, Runs.bind_iff, Runs.lift_iff, Runs.pure_iff] at hrun
  obtain ⟨base, _, ⟨hbase, rfl⟩, name, u, hclaim, _, _, ⟨_, rfl⟩, rfl, rfl⟩ := hrun
  have hvalid := isValid_setterName (isValid_functionName (by decide +kernel) hbase)
  obtain ⟨ht, hinline⟩ := runs_claim hs hvalid hclaim
  exact ⟨ht, hinline ▸ List.prefix_refl _⟩

/-! ## Operations -/

/-- The words that groups which make up records bring into the names of these. -/
theorem isValid_groupRecordName {stem : String} (hstem : Identifier.IsNameOrEmpty stem) {g : Group}
    (hidentifier : g.identifier = ({} : Naming).identifier g.key) {key : GroupKey}
    (hkey : GroupKey.ofLocation? g.key.name = some key) :
    Identifier.isValid (stem ++ Identifier.className g.identifier) = true := by
  rw [hidentifier]
  cases hg : g.key with
  | path => exact Identifier.isValid_append hstem (by decide +kernel) (c := 'P') (by decide +kernel) (by decide)
  | query => exact Identifier.isValid_append hstem (by decide +kernel) (c := 'Q') (by decide +kernel) (by decide)
  | header => exact Identifier.isValid_append hstem (by decide +kernel) (c := 'H') (by decide +kernel) (by decide)
  | body => rw [hg] at hkey; cases hkey
  | config => rw [hg] at hkey; cases hkey

/-- What an argument leaves behind: an annotation, or a record of its own that it names. -/
def ClosedArgument (Known : String → Prop) (words : List String) (a : Argument × Option RecordDeclaration) : Prop :=
  match a.2 with
  | none => Annotation (Beside Known words) a.1.type
  | some d => a.1.type = d.name ∧ (Declaration.record d).Closed Known words

theorem ClosedArgument.mono {Known More : String → Prop} {a : Argument × Option RecordDeclaration}
    (hmore : ∀ n, Known n → More n) (h : ClosedArgument Known words a) : ClosedArgument More words a := by
  unfold ClosedArgument at h ⊢
  split
  · rename_i hnone
    rw [hnone] at h
    exact h.mono (Beside.mono hmore)
  · rename_i d hsome
    rw [hsome] at h
    exact ⟨h.1, h.2.mono hmore⟩

theorem runs_argument (h : w.Keeps scope {} words) {stem : String} (hstem : Identifier.IsNameOrEmpty stem) {g : Group}
    (hidentifier : g.identifier = ({} : Naming).identifier g.key) (htype : scope.Fits {} words g.type)
    {a : Argument × Option RecordDeclaration} (hs : Sound scope {} words s used) (hrun : Runs (argument w stem g) s a t) :
    Sound scope {} words t ((a.2.map RecordDeclaration.name).toList ++ used) ∧ s.inline <+: t.inline ∧
      ClosedArgument (scope.Knows {} t) words a := by
  unfold argument at hrun
  dsimp only at hrun
  split at hrun
  · rename_i key fields index hkey hobject
    simp only [Runs.bind_iff, Runs.pure_iff] at hrun
    obtain ⟨name, u, hclaim, d, v, hrecord, rfl, rfl⟩ := hrun
    obtain ⟨hu, hinline⟩ := runs_claim hs (isValid_groupRecordName hstem hidentifier hkey) hclaim
    have hfields : scope.Fits {} words (.object fields index) := hobject ▸ htype
    obtain ⟨ht, hgrows, rfl, hclosed⟩ := h.recordAlone hfields.field hu hrecord
    exact ⟨ht, hinline ▸ hgrows, rfl, hclosed⟩
  · simp only [Runs.bind_iff, Runs.pure_iff] at hrun
    obtain ⟨text, _, hrender, rfl, rfl⟩ := hrun
    exact h.render _ _ _ _ _ _ htype hs hrender

theorem closedArguments_records {Known : String → Prop} {arguments : List (Argument × Option RecordDeclaration)}
    (h : ∀ a ∈ arguments, ClosedArgument Known words a) :
    ∀ d ∈ arguments.filterMap Prod.snd, (Declaration.record d).Closed Known words := by
  intro d hd
  obtain ⟨a, ha, hsome⟩ := List.mem_filterMap.mp hd
  have hclosed := h a ha
  rw [ClosedArgument, hsome] at hclosed
  exact hclosed.2

theorem closedArguments_types {Known : String → Prop} {arguments : List (Argument × Option RecordDeclaration)}
    (h : ∀ a ∈ arguments, ClosedArgument Known words a) : ∀ a ∈ arguments.map Prod.fst,
      a.type ∈ (arguments.filterMap Prod.snd).map RecordDeclaration.name ∨
        Annotation (Beside Known words) a.type := by
  intro a ha
  obtain ⟨p, hp, rfl⟩ := List.mem_map.mp ha
  have hclosed := h p hp
  unfold ClosedArgument at hclosed
  split at hclosed
  · exact Or.inr hclosed
  · rename_i d hsome
    exact Or.inl (List.mem_map.mpr ⟨d, List.mem_filterMap.mpr ⟨p, hp, hsome⟩, hclosed.1.symm⟩)

/-- The arguments of the other functions are some of those of the first one. -/
theorem mem_of_mem_pick_keyed {groups : List Group} {arguments : List (Argument × Option RecordDeclaration)}
    {keys : List GroupKey} {a : Argument}
    (h : a ∈ pick ((groups.zip arguments).map fun p => (p.1.key, p.2.1)) keys) : a ∈ arguments.map Prod.fst := by
  obtain ⟨key, _, hlookup⟩ := List.mem_filterMap.mp h
  obtain ⟨p, hp, heq⟩ := List.mem_map.mp (Entries.mem_of_lookup hlookup)
  obtain ⟨_, rfl⟩ := Prod.mk.inj heq
  exact List.mem_map_of_mem (List.of_mem_zip hp).2

theorem annotation_response {result : String} (h : Annotation (Beside (scope.Knows {} t) words) result) :
    Annotation (Beside (scope.Knows {} t) words) (({} : Naming).responseType ++ "[" ++ result ++ "]") := by
  have hresponseType : Beside (scope.Knows {} t) words ({} : Naming).responseType := .inl (Or.inl (by decide))
  have happly : Annotation (Beside (scope.Knows {} t) words) (({} : Naming).responseType ++ "[" ++
      String.intercalate ", " [result] ++ "]") := .apply hresponseType (by simpa using h)
  rwa [String.intercalate_singleton] at happly

/-- The endings of the two functions beside the one that sends the request. -/
theorem isValid_ended {name ending : String} (h : Identifier.isValid name = true)
    (hending : Identifier.hasShape ending.toList = true) (hmem : '_' ∈ ending.toList) :
    Identifier.isValid (name ++ ending) = true :=
  Identifier.isValid_append (Or.inr h) hending hmem (by decide)

theorem runs_operationFunctions (h : w.Keeps scope {} words) {b : OperationBinding} {f : OperationFunctions}
    (hgroups : ∀ g ∈ b.groups, g.identifier = ({} : Naming).identifier g.key ∧ scope.Fits {} words g.type)
    (hresponse : scope.Fits {} words b.responseType) (hs : Sound scope {} words s used)
    (hrun : Runs (operationFunctions {} w b) s f t) :
    Sound scope {} words t (f.boundNames ++ used) ∧ s.inline <+: t.inline ∧ f.Closed (scope.Knows {} t) words := by
  simp only [operationFunctions, Runs.bind_iff, Runs.lift_iff, Runs.pure_iff] at hrun
  obtain ⟨base, s, ⟨hbase, rfl⟩, name, s₁, hname, urlName, s₂, hurl, configName, _, hconfig, stem, s₃, ⟨hstem, rfl⟩,
    arguments, s₄, harguments, result, _, hresult, _, _, ⟨_, rfl⟩, rfl, rfl⟩ := hrun
  have hvalid := isValid_functionName (by decide +kernel) hbase
  obtain ⟨h₁, hinline₁⟩ := runs_claim hs hvalid hname
  have hnameValid := (h₁.names name List.mem_cons_self).2.2
  obtain ⟨h₂, hinline₂⟩ := runs_claim h₁ (isValid_ended hnameValid (by decide +kernel) (by decide)) hurl
  obtain ⟨h₃, hinline₃⟩ := runs_claim h₂ (isValid_ended hnameValid (by decide +kernel) (by decide)) hconfig
  have hstem := identifierWith_isNameOrEmpty (fun _ => Identifier.normalize_isNameOrEmpty _) hstem
  obtain ⟨h₄, hgrows₄, hclosed⟩ := runs_mapM
    (fun a : Argument × Option RecordDeclaration => (a.2.map RecordDeclaration.name).toList)
    (fun u a => ClosedArgument (scope.Knows {} u) words a) (fun _ _ _ huv ha => ha.mono (knows_mono huv))
    (fun g hg _ _ _ _ hu ha => runs_argument h hstem (hgroups g hg).1 (hgroups g hg).2 hu ha) h₃ harguments
  obtain ⟨ht, hgrows, hresult⟩ := h.render _ _ _ _ _ _ hresponse h₄ hresult
  have harguments : ∀ a ∈ arguments, ClosedArgument (scope.Knows {} t) words a := fun a ha =>
    (hclosed a ha).mono (knows_mono hgrows)
  have hperm : ((arguments.flatMap fun a => (a.2.map RecordDeclaration.name).toList) ++
      (configName :: urlName :: name :: used)).Perm (name :: urlName :: configName ::
        (arguments.filterMap Prod.snd).map RecordDeclaration.name ++ used) := by
    rw [List.map_filterMap, List.filterMap_eq_flatMap_toList, List.perm_iff_count]
    intro n
    simp only [List.count_append, List.count_cons]
    omega
  refine ⟨ht.perm hperm, ?_, ?_, closedArguments_records harguments⟩
  · rw [← hinline₁, ← hinline₂, ← hinline₃]
    exact hgrows₄.trans hgrows
  · intro text htext
    rcases List.mem_cons.mp htext with rfl | htext
    · exact Or.inr (annotation_response hresult)
    · obtain ⟨a, ha, rfl⟩ := List.mem_map.mp htext
      refine closedArguments_types harguments a ?_
      simp only [List.mem_append] at ha
      rcases ha with (ha | ha) | ha
      · exact ha
      · exact mem_of_mem_pick_keyed ha
      · exact mem_of_mem_pick_keyed ha

/-! ## The whole module -/

section
variable {m : Module}

theorem allDeclarations_closed {Known : String → Prop} (hservers : ∀ e ∈ m.servers, e.Closed Known words)
    (hdeclarations : ∀ d ∈ m.declarations, d.Closed Known words)
    (hoperations : ∀ f ∈ m.operations, f.Closed Known words) : ∀ d ∈ m.allDeclarations, d.Closed Known words := by
  intro d hd
  simp only [allDeclarations, List.mem_append, List.mem_filterMap, List.mem_flatMap, List.mem_map,
    Option.map_eq_some_iff] at hd
  rcases hd with (⟨e, he, r, hr, rfl⟩ | hd) | ⟨f, hf, r, hr, rfl⟩
  · have hclosed := hservers e he
    rw [ServerEntry.Closed, hr] at hclosed
    exact hclosed.2
  · exact hdeclarations d hd
  · exact (hoperations f hf).declarations r hr

theorem knows_serverRecord {e : ServerEntry} {d : RecordDeclaration} (he : e ∈ m.servers)
    (hd : e.declaration = some d) : m.Knows d.name := by
  right
  refine List.mem_map.mpr ⟨.record d, ?_, rfl⟩
  simp only [allDeclarations, List.mem_append, List.mem_filterMap]
  exact Or.inl (Or.inl ⟨e, he, by rw [hd, Option.map_some]⟩)

theorem knows_operationRecord {f : OperationFunctions} {n : String} (hf : f ∈ m.operations) (hn : n ∈ f.recordNames) :
    m.Knows n := by
  obtain ⟨d, hd, rfl⟩ := List.mem_map.mp hn
  right
  refine List.mem_map.mpr ⟨.record d, ?_, rfl⟩
  simp only [allDeclarations, List.mem_append, List.mem_flatMap]
  exact Or.inr ⟨f, hf, List.mem_map_of_mem hd⟩

theorem annotations_closed (hservers : ∀ e ∈ m.servers, e.Closed m.Knows words)
    (hdeclarations : ∀ d ∈ m.declarations, d.Closed m.Knows words)
    (hoperations : ∀ f ∈ m.operations, f.Closed m.Knows words) :
    ∀ text ∈ m.annotations, Annotation (Beside m.Knows words) text := by
  intro text htext
  simp only [annotations, List.mem_append, List.mem_flatMap, List.mem_map] at htext
  rcases htext with (⟨d, hd, htext⟩ | ⟨e, he, rfl⟩) | ⟨f, hf, htext⟩
  · exact (allDeclarations_closed hservers hdeclarations hoperations d hd).annotations text htext
  · have hclosed := hservers e he
    unfold ServerEntry.Closed at hclosed
    split at hclosed
    · rw [hclosed]
      exact .null
    · rename_i d hd
      have hunion : Annotation (Beside m.Knows words) (String.intercalate " | " [d.name, "None"]) := by
        refine .union (List.cons_ne_nil _ _) ?_
        intro p hp
        rcases List.mem_cons.mp hp with rfl | hp
        · exact .name (.inl (knows_serverRecord he hd))
        · rw [List.mem_singleton.mp hp]
          exact .null
      rw [String.intercalate_cons_cons, String.intercalate_singleton] at hunion
      rwa [hclosed.1, ← show " | " ++ "None" = " | None" by decide, ← String.append_assoc]
  · rcases (hoperations f hf).annotations text htext with hrecord | hannotation
    · exact .name (.inl (knows_operationRecord hf hrecord))
    · exact hannotation

/-- A module as its draft leaves it; its own declarations are those of the aliases. -/
structure Drafted (api : Api) (scope : Scope) (t : Draft) (own : List Declaration) (m : Module) : Prop where
  naming : m.naming = {}
  entries : scope.aliases = api.aliases.map fun a => (a.name, a)
  aliases : own.map Declaration.name = api.aliases.map fun a => scope.nameOf a.name
  namedAfter : ∀ a ∈ api.aliases, NamedAfter (scope.nameOf a.name) a.name
  declarations : m.declarations = Declaration.ordered (own ++ t.inline)
  sound : Sound scope {} api.words t (m.operations.flatMap OperationFunctions.boundNames ++
    (m.setters.map TokenSetter.name ++ (m.servers.flatMap ServerEntry.boundNames ++ own.map Declaration.name)))
  ownClosed : ∀ d ∈ own, d.Closed (scope.Knows {} t) api.words
  serversClosed : ∀ e ∈ m.servers, e.Closed (scope.Knows {} t) api.words
  operationsClosed : ∀ f ∈ m.operations, f.Closed (scope.Knows {} t) api.words
  lengths : m.servers.length = api.servers.length ∧ m.setters.length = api.security.length ∧
    m.operations.length = api.operations.length

namespace Drafted

variable {api : Api} {own : List Declaration} (h : Drafted api scope t own m)
include h

theorem declarations_perm : m.declarations.Perm (own ++ t.inline) := by
  have hnames : (own.map Declaration.name ++ t.inline.map Declaration.name).Nodup := by
    refine h.sound.distinct.sublist (List.Sublist.append_right ?_ _)
    exact (List.sublist_append_right _ _).trans ((List.sublist_append_right _ _).trans (List.sublist_append_right _ _))
  rw [h.declarations]
  apply Declaration.ordered_perm
  rwa [List.map_append]

theorem boundNames_perm : m.boundNames.Perm (m.operations.flatMap OperationFunctions.boundNames ++
    (m.setters.map TokenSetter.name ++ (m.servers.flatMap ServerEntry.boundNames ++ own.map Declaration.name)) ++
      t.inline.map Declaration.name) := by
  have hperm := h.declarations_perm.map Declaration.name
  rw [List.map_append] at hperm
  have hfront := hperm.append_left (m.operations.flatMap OperationFunctions.boundNames ++
    m.setters.map TokenSetter.name ++ m.servers.flatMap ServerEntry.boundNames)
  simpa only [boundNames, List.append_assoc] using hfront

theorem knows_name {d : Declaration} (hd : d ∈ own ++ t.inline) : m.Knows d.name := by
  right
  refine List.mem_map_of_mem ?_
  simp only [allDeclarations, List.mem_append]
  exact Or.inl (Or.inr (h.declarations_perm.mem_iff.mpr hd))

/-- Whatever was known at the end of the draft is known to the module. -/
theorem knows {n : String} (hn : scope.Knows {} t n) : m.Knows n := by
  rcases hn with hprovided | ⟨e, he, rfl⟩ | hinline
  · rw [Knows, h.naming]
    exact Or.inl hprovided
  · have hname : scope.nameOf e.1 ∈ own.map Declaration.name := by
      rw [h.entries] at he
      obtain ⟨a, ha, rfl⟩ := List.mem_map.mp he
      rw [h.aliases]
      exact List.mem_map_of_mem ha
    obtain ⟨d, hd, heq⟩ := List.mem_map.mp hname
    exact heq ▸ h.knows_name (List.mem_append_left _ hd)
  · obtain ⟨d, hd, rfl⟩ := List.mem_map.mp hinline
    exact h.knows_name (List.mem_append_right _ hd)

theorem declaration_closed {d : Declaration} (hd : d ∈ m.declarations) : d.Closed m.Knows api.words := by
  rcases List.mem_append.mp (h.declarations_perm.mem_iff.mp hd) with hd | hd
  · exact (h.ownClosed d hd).mono fun _ => h.knows
  · exact (h.sound.inline d hd).mono fun _ => h.knows

theorem own_namedAfter :
    List.Forall₂ (fun (d : Declaration) (a : Alias) => NamedAfter d.name a.name) own api.aliases := by
  have hpairs : List.Forall₂ Eq (own.map Declaration.name) (api.aliases.map fun a => scope.nameOf a.name) := by
    rw [List.forall₂_eq_eq_eq]
    exact h.aliases
  rw [List.forall₂_map_left_iff, List.forall₂_map_right_iff, List.forall₂_iff_zip] at hpairs
  refine List.forall₂_iff_zip.mpr ⟨hpairs.1, ?_⟩
  intro d a hmem
  rw [hpairs.2 hmem]
  exact h.namedAfter a (List.of_mem_zip hmem).2

theorem wellNamed : m.WellNamed api := by
  have hservers : ∀ e ∈ m.servers, e.Closed m.Knows api.words := fun e he => (h.serversClosed e he).mono fun _ => h.knows
  have hoperations : ∀ f ∈ m.operations, f.Closed m.Knows api.words := fun f hf =>
    (h.operationsClosed f hf).mono fun _ => h.knows
  have hdeclarations : ∀ d ∈ m.declarations, d.Closed m.Knows api.words := fun d hd => h.declaration_closed hd
  constructor
  case distinct => exact h.boundNames_perm.nodup_iff.mpr h.sound.distinct
  case unreserved =>
    rw [h.naming]
    exact fun n hn => (h.sound.names n (h.boundNames_perm.mem_iff.mp hn)).2.1
  case valid => exact fun n hn => (h.sound.names n (h.boundNames_perm.mem_iff.mp hn)).2.2
  case annotations => exact annotations_closed hservers hdeclarations hoperations
  case closed =>
    intro hnone text htext
    have hclosed := annotations_closed hservers hdeclarations hoperations text htext
    rw [hnone] at hclosed
    exact hclosed.mono fun _ => Beside.known
  case bases => exact fun d hd => (allDeclarations_closed hservers hdeclarations hoperations d hd).bases
  case aliases =>
    have hsub : own.Subperm (own ++ t.inline) := (List.sublist_append_left own t.inline).subperm
    exact ⟨own, hsub.trans h.declarations_perm.symm.subperm, h.own_namedAfter⟩
  case servers => exact h.lengths.1
  case setters => exact h.lengths.2.1
  case operations => exact h.lengths.2.2

end Drafted

end

theorem fitsLeaf_of_typed {api : Api} (hscope : scope.aliases = api.aliases.map fun a => (a.name, a)) {leaf : TypeNode}
    (hmem : leaf ∈ api.leaves) (h : leaf.FitsLeaf (api.aliases.map Alias.name) naming) :
    scope.FitsLeaf naming api.words leaf := by
  refine ⟨?_, fun n hn => List.mem_filterMap.mpr ⟨leaf, hmem, hn⟩⟩
  rw [hscope, List.map_map]
  exact h

theorem wellScoped_of_typed {api : Api} (hapi : api.Typed naming)
    (hscope : scope.aliases = api.aliases.map fun a => (a.name, a)) : scope.WellScoped naming api.words := by
  constructor
  · intro e he
    rw [hscope] at he
    obtain ⟨a, _, rfl⟩ := List.mem_map.mp he
    rfl
  · intro e he
    rw [hscope] at he
    obtain ⟨a, ha, rfl⟩ := List.mem_map.mp he
    intro leaf hleaf
    have hmem : leaf ∈ api.leaves := List.mem_append_left _ (List.mem_flatMap.mpr ⟨a, ha, hleaf⟩)
    exact fitsLeaf_of_typed hscope hmem (hapi.aliases a ha leaf hleaf)

theorem runs_draftAt {api : Api} (hapi : api.Typed {}) {depth : Nat} {m : Module}
    (hrun : Runs (draftAt depth api {}) { taken := reservedNames {} } m t) : ∃ scope own, Drafted api scope t own m := by
  simp only [draftAt, Runs.bind_iff, Runs.get_iff, Runs.pure_iff] at hrun
  obtain ⟨scope, s₀, hscope, servers, s₁, hservers, setters, s₂, hsetters, own, s₃, hown, operations, _, hoperations,
    _, t, ⟨rfl, rfl⟩, rfl, rfl⟩ := hrun
  obtain ⟨haliases, h₀, hnamedAfter⟩ := runs_ofAliases hapi.distinct hscope
  have hwriter := TypeWriter.atDepth_keeps (wellScoped_of_typed hapi haliases) depth
  have hentry : ∀ a ∈ api.aliases, (a.name, a) ∈ scope.aliases := fun a ha => by
    rw [haliases]
    exact List.mem_map_of_mem ha
  have hgroups : ∀ b ∈ api.operations, ∀ g ∈ b.groups, scope.Fits {} api.words g.type := by
    intro b hb g hg leaf hleaf
    have hmem : leaf ∈ api.leaves := List.mem_append_right _
      (List.mem_flatMap.mpr ⟨b, hb, List.mem_append_left _ (List.mem_flatMap.mpr ⟨g, hg, hleaf⟩)⟩)
    exact fitsLeaf_of_typed haliases hmem ((hapi.groups b hb g hg).2 leaf hleaf)
  have hresponses : ∀ b ∈ api.operations, scope.Fits {} api.words b.responseType := by
    intro b hb leaf hleaf
    have hmem : leaf ∈ api.leaves :=
      List.mem_append_right _ (List.mem_flatMap.mpr ⟨b, hb, List.mem_append_right _ hleaf⟩)
    exact fitsLeaf_of_typed haliases hmem (hapi.responses b hb leaf hleaf)
  obtain ⟨h₁, _, hserverClosed⟩ := runs_mapM ServerEntry.boundNames
    (fun u e => e.Closed (scope.Knows {} u) api.words) (fun _ _ _ huv he => he.mono (knows_mono huv))
    (fun _ _ _ _ _ _ hu he => runs_serverEntry hwriter hu he) h₀ hservers
  obtain ⟨h₂, hgrows₂, _⟩ := runs_mapM (fun setter : TokenSetter => [setter.name])
    (fun _ _ => True) (fun _ _ _ _ _ => trivial)
    (fun _ _ _ _ _ _ hu hb => ⟨(runs_tokenSetter hu hb).1, (runs_tokenSetter hu hb).2, trivial⟩) h₁ hsetters
  obtain ⟨h₃, hgrows₃, hownClosed⟩ := Runs.mapM_induct (fun u => Sound scope {} api.words u _)
    Draft.inline (fun u (d : Declaration) => d.Closed (scope.Knows {} u) api.words) (fun _ _ _ huv hd => hd.mono (knows_mono huv))
    (by
      intro a ha u d v hu hd
      obtain ⟨hv, huv, -, hclosed⟩ := hwriter.declaration _ (hentry a ha) u d v _ hu hd
      exact ⟨hv, huv, hclosed⟩) h₂ hown
  have hnames : own.map Declaration.name = api.aliases.map fun a => scope.nameOf a.name :=
    Runs.mapM_map (fun u => ∃ used, Sound scope {} api.words u used) (by
      rintro a ha u d v ⟨used, hu⟩ hd
      obtain ⟨hv, -, hname, -⟩ := hwriter.declaration _ (hentry a ha) u d v used hu hd
      exact ⟨⟨used, hv⟩, hname⟩) ⟨_, h₂⟩ hown
  obtain ⟨h₄, hgrows₄, hoperationClosed⟩ := runs_mapM OperationFunctions.boundNames
    (fun u f => f.Closed (scope.Knows {} u) api.words) (fun _ _ _ huv hf => hf.mono (knows_mono huv))
    (fun b hb _ _ _ _ hu hf => runs_operationFunctions hwriter
      (fun g hg => ⟨(hapi.groups b hb g hg).1, hgroups b hb g hg⟩) (hresponses b hb) hu hf)
    h₃ hoperations
  rw [← List.map_eq_flatMap, ← hnames] at h₄
  have hgrows := hgrows₃.trans hgrows₄
  refine ⟨scope, own, ?_⟩
  constructor
  case naming => rfl
  case entries => exact haliases
  case aliases => exact hnames
  case namedAfter => exact hnamedAfter
  case declarations => rfl
  case sound => exact h₄
  case ownClosed => exact fun d hd => (hownClosed d hd).mono (knows_mono hgrows₄)
  case serversClosed => exact fun e he => (hserverClosed e he).mono (knows_mono (hgrows₂.trans hgrows))
  case operationsClosed => exact hoperationClosed
  case lengths =>
    refine ⟨?_, Runs.mapM_length hsetters, Runs.mapM_length hoperations⟩
    rw [Runs.mapM_length hservers, List.length_zipIdx]

/-- A module made of a compiled document binds every name once, however deep its types may be nested, and is closed
but for the words that infinite floats and the one that is no number are shown as. -/
theorem ofApiAt_wellNamed {document : Data} {item : Option Item} {api : Api} {depth : Nat} {m : Module}
    (hcompile : Api.compile document item {} = .ok api) (hbuild : ofApiAt depth api {} = .ok m) : m.WellNamed api := by
  have hrun : Runs (draftAt depth api {}) { taken := reservedNames {} } m _ := Prod.ext hbuild rfl
  obtain ⟨_, _, hdrafted⟩ := runs_draftAt (Api.compile_typed hcompile) hrun
  exact hdrafted.wellNamed

end

/-! ## An example -/

/-- A document with a name from every source: a schema that refers to itself and holds a record, whose
name is also wanted for the record of a group, a server variable and a token. -/
def zoo : Data := .object [
  ("openapi", .str "3.0.0"),
  ("servers", .list [.object [("variables", .object [("host", .object [("enum", .list [.str "zoo", .str "lab"])])])]]),
  ("paths", .object [("/animals/{id}", .object [("get", .object [
    ("operationId", .str "animal"),
    ("responses", .object [("200", .object [("content", .object [("application/json",
      .object [("schema", Schema.refTo "#/components/schemas/animalPaths")])])])])])])]),
  ("components", .object [
    ("schemas", .object [("animalPaths", .object [("type", .str "object"), ("properties", .object [
      ("kin", .object [("type", .str "array"), ("items", Schema.refTo "#/components/schemas/animalPaths")]),
      ("home", .object [("type", .str "object"), ("properties", .object [("cage", .object [])])])])])]),
    ("securitySchemes", .object [("key", .object [("type", .str "http"), ("scheme", .str "bearer")])])])]

theorem ofApiAt_wellNamed_zoo : ∃ api m, Api.compile zoo none {} = .ok api ∧ ofApi api {} = .ok m ∧
    m.boundNames = ["animal", "animal_url", "animal_config", "AnimalPaths2", "set_token_key", "Server0Variables",
      "AnimalPaths", "AnimalPathsHome"] ∧ m.WellNamed api := by
  have hrun : (do
      let api ← Api.compile zoo none {}
      let m ← ofApi api {}
      return m.boundNames : Result (List String)).toOption = some ["animal", "animal_url", "animal_config",
        "AnimalPaths2", "set_token_key", "Server0Variables", "AnimalPaths", "AnimalPathsHome"] := by decide +kernel
  have hok := Result.eq_ok_of_toOption hrun
  simp only [Result.bind_eq_ok_iff, Result.pure_eq_ok_iff] at hok
  obtain ⟨api, hcompile, m, hbuild, hnames⟩ := hok
  exact ⟨api, m, hcompile, hbuild, hnames, ofApiAt_wellNamed hcompile hbuild⟩

/-- A document whose only response is a float that is too large. -/
def boundless : Data := .object [
  ("openapi", .str "3.0.0"),
  ("paths", .object [("/limit", .object [("get", .object [
    ("operationId", .str "limit"),
    ("responses", .object [("200", .object [("content", .object [("application/json",
      .object [("schema", .object [("enum", .list [.scalar (.float (.infinite false))])])])])])])])])])]

/-- An infinite float is shown as a name that nothing binds. -/
theorem exists_not_closed : ∃ api m, Api.compile boundless none {} = .ok api ∧ ofApi api {} = .ok m ∧
    "ClientResponse[Literal[inf]]" ∈ m.annotations ∧ ¬ Annotation m.Knows "ClientResponse[Literal[inf]]" := by
  have hrun : (do
      let api ← Api.compile boundless none {}
      let m ← ofApi api {}
      return (m.annotations, providedNames m.naming ++ m.allDeclarations.map Declaration.name) :
        Result (List String × List String)).toOption =
      some (["None", "ClientResponse[Literal[inf]]", "ClientRequestConfig", "ClientRequestConfig"], providedNames {}) := by
    decide +kernel
  have hok := Result.eq_ok_of_toOption hrun
  simp only [Result.bind_eq_ok_iff, Result.pure_eq_ok_iff, Prod.mk.injEq] at hok
  obtain ⟨api, hcompile, m, hbuild, hannotations, hknown⟩ := hok
  have hknows : ∀ n, m.Knows n → n ∈ providedNames {} := fun n hn => hknown ▸ List.mem_append.mpr hn
  refine ⟨api, m, hcompile, hbuild, hannotations ▸ by decide, fun hclosed => ?_⟩
  have hsolid : ((providedNames {}).all fun n => n.toList.all fun c => Annotation.isBreak c == false) = true := by decide +kernel
  have hnames : ∀ n, m.Knows n → ∀ c ∈ n.toList, Annotation.isBreak c = false := by
    intro n hn c hc
    exact eq_of_beq (List.all_eq_true.mp (List.all_eq_true.mp hsolid n (hknows n hn)) c hc)
  rcases Annotation.known_of_mem_words (n := "inf") hnames hclosed (by decide +kernel)
    (by decide +kernel) (by decide +kernel) with hinf | hinf
  · exact absurd (hknows _ hinf) (by decide +kernel)
  · exact absurd hinf (by decide)

end Module
end ClientBindings

import ClientBindings.Proofs.Binding.Types
import ClientBindings.Proofs.Identifier
import ClientBindings.Proofs.Source.Annotation

/-! The names of a module while it is drafted. Beside the declarations made so far the invariant carries
the names that are in use otherwise: a claimed name belongs to them until its declaration is made. -/

namespace ClientBindings

/-- The names that generated modules may use in types without declaring them. -/
def Module.providedNames (naming : Naming) : List String :=
  importedNames ++ [naming.requestConfigType, naming.responseType]

/-- The name that the literal at a leaf mentions. -/
def TypeNode.word? : TypeNode → Option String
  | .literal v => Literal.word? v
  | _ => none

/-- A leaf that can be written: a reference stands for an alias of the scope, and a literal mentions one of some words
if any. -/
def Scope.FitsLeaf (scope : Scope) (naming : Naming) (words : List String) (leaf : TypeNode) : Prop :=
  leaf.FitsLeaf (scope.aliases.map Prod.fst) naming ∧ ∀ n ∈ leaf.word?, n ∈ words

def Scope.Fits (scope : Scope) (naming : Naming) (words : List String) (type : TypeNode) : Prop :=
  ∀ leaf ∈ type.leaves, scope.FitsLeaf naming words leaf

/-- The names that types may use: those provided, those of aliases and those of records declared so far. -/
def Scope.Knows (scope : Scope) (naming : Naming) (s : Draft) (n : String) : Prop :=
  n ∈ Module.providedNames naming ∨ (∃ e ∈ scope.aliases, n = scope.nameOf e.1) ∨
    n ∈ s.inline.map Declaration.name

namespace Draft

/-- What holds of a draft in which some names are used for other things than its declarations, its literals mentioning
some words. -/
structure Sound (scope : Scope) (naming : Naming) (words : List String) (s : Draft) (used : List String) : Prop where
  distinct : (used ++ s.inline.map Declaration.name).Nodup
  names : ∀ n ∈ used ++ s.inline.map Declaration.name,
    n ∈ s.taken ∧ n ∉ Module.reservedNames naming ∧ Identifier.isValid n = true
  reserved : ∀ n ∈ Module.reservedNames naming, n ∈ s.taken
  inline : ∀ d ∈ s.inline, d.Closed (scope.Knows naming s) words
  declared : ∀ e ∈ s.declared, e.2.name = scope.nameOf e.1 ∧ e.2.Closed (scope.Knows naming s) words

section
variable {scope : Scope} {naming : Naming} {words : List String} {s t : Draft} {used more : List String}

theorem knows_imported (n : String) (h : n ∈ Module.importedNames) : Beside (scope.Knows naming s) words n :=
  .inl (.inl (List.mem_append_left _ h))

theorem knows_mono (h : s.inline <+: t.inline) (n : String) (hn : scope.Knows naming s n) :
    scope.Knows naming t n := by
  rcases hn with hn | hn | hn
  · exact Or.inl hn
  · exact Or.inr (Or.inl hn)
  · exact Or.inr (Or.inr ((h.map Declaration.name).subset hn))

namespace Sound

theorem perm (h : Sound scope naming words s used) (hperm : used.Perm more) : Sound scope naming words s more where
  distinct := (hperm.append_right _).nodup_iff.mp h.distinct
  names n hn := h.names n ((hperm.append_right _).mem_iff.mpr hn)
  reserved := h.reserved
  inline := h.inline
  declared := h.declared

/-- A claimed name need not be used. -/
theorem drop {n : String} (h : Sound scope naming words s (n :: used)) : Sound scope naming words s used where
  distinct := (List.nodup_cons.mp h.distinct).2
  names m hm := h.names m (List.mem_cons_of_mem n hm)
  reserved := h.reserved
  inline := h.inline
  declared := h.declared

/-- Nothing else of a draft matters. -/
theorem congr (h : Sound scope naming words s used) (htaken : t.taken = s.taken) (hinline : t.inline = s.inline)
    (hdeclared : t.declared = s.declared) : Sound scope naming words t used where
  distinct := hinline ▸ h.distinct
  names := by
    rw [hinline, htaken]
    exact h.names
  reserved := htaken ▸ h.reserved
  inline d hd := (h.inline d (hinline ▸ hd)).mono (knows_mono (hinline ▸ List.prefix_refl _))
  declared e he := by
    obtain ⟨hname, hclosed⟩ := h.declared e (hdeclared ▸ he)
    exact ⟨hname, hclosed.mono (knows_mono (hinline ▸ List.prefix_refl _))⟩

theorem addDeclared {name : String} {d : Declaration} {declaring : List String} (h : Sound scope naming words s used)
    (hname : d.name = scope.nameOf name) (hd : d.Closed (scope.Knows naming s) words) :
    Sound scope naming words { s with declared := (name, d) :: s.declared, declaring } used where
  distinct := h.distinct
  names := h.names
  reserved := h.reserved
  inline := h.inline
  declared e he := by
    rcases List.mem_cons.mp he with rfl | he
    · exact ⟨hname, hd⟩
    · exact h.declared e he

end Sound

theorem runs_claim_eq {name n : String} (h : Runs (claim name) s n t) : n = freshName s.taken name := by
  simp only [claim, Runs.bind_iff, Runs.get_iff, Runs.set_iff, Runs.pure_iff] at h
  obtain ⟨_, s, ⟨rfl, rfl⟩, _, _, rfl, rfl, rfl⟩ := h
  rfl

/-- Claiming a name makes it one in use. -/
theorem runs_claim {name n : String} (hs : Sound scope naming words s used) (hname : Identifier.isValid name = true)
    (h : Runs (claim name) s n t) : Sound scope naming words t (n :: used) ∧ t.inline = s.inline := by
  simp only [claim, Runs.bind_iff, Runs.get_iff, Runs.set_iff, Runs.pure_iff] at h
  obtain ⟨_, s, ⟨rfl, rfl⟩, _, _, rfl, rfl, rfl⟩ := h
  have hfresh := freshName_not_mem s.taken name
  refine ⟨?_, rfl⟩
  constructor
  case distinct => exact List.nodup_cons.mpr ⟨fun hmem => hfresh (hs.names _ hmem).1, hs.distinct⟩
  case names =>
    intro n hn
    rcases List.mem_cons.mp hn with rfl | hn
    · exact ⟨List.mem_cons_self, fun hmem => hfresh (hs.reserved _ hmem), Identifier.isValid_freshName hname _⟩
    · obtain ⟨htaken, hrest⟩ := hs.names n hn
      exact ⟨List.mem_cons_of_mem _ htaken, hrest⟩
  case reserved => exact fun n hn => List.mem_cons_of_mem _ (hs.reserved n hn)
  case inline => exact hs.inline
  case declared => exact hs.declared

/-- A declaration takes over the name that was claimed for it. -/
theorem runs_addInline {d : Declaration} {u : Unit} (hs : Sound scope naming words s (d.name :: used))
    (hd : d.Closed (scope.Knows naming s) words) (h : Runs (addInline d) s u t) :
    Sound scope naming words t used ∧ s.inline <+: t.inline ∧ d ∈ t.inline := by
  obtain rfl := Runs.modify_iff.mp h
  have hgrows : s.inline <+: s.inline ++ [d] := List.prefix_append _ _
  have hperm : (used ++ (s.inline ++ [d]).map Declaration.name).Perm
      (d.name :: used ++ s.inline.map Declaration.name) := by
    rw [List.map_append, List.map_singleton, ← List.append_assoc]
    exact List.perm_append_singleton _ _
  refine ⟨?_, hgrows, List.mem_append_right _ (List.mem_singleton_self d)⟩
  constructor
  case distinct => exact hperm.nodup_iff.mpr hs.distinct
  case names => exact fun n hn => hs.names n (hperm.mem_iff.mp hn)
  case reserved => exact hs.reserved
  case inline =>
    intro e he
    rcases List.mem_append.mp he with he | he
    · exact (hs.inline e he).mono (knows_mono hgrows)
    · rw [List.mem_singleton.mp he]
      exact hd.mono (knows_mono hgrows)
  case declared =>
    intro e he
    obtain ⟨hname, hclosed⟩ := hs.declared e he
    exact ⟨hname, hclosed.mono (knows_mono hgrows)⟩

/-- Rounds that each claim some names of their own. -/
theorem runs_mapM {α β : Type} {f : α → M β} {xs : List α} {bs : List β} (own : β → List String)
    (Good : Draft → β → Prop) (mono : ∀ u v b, u.inline <+: v.inline → Good u b → Good v b)
    (step : ∀ x ∈ xs, ∀ u b v used, Sound scope naming words u used → Runs (f x) u b v →
      Sound scope naming words v (own b ++ used) ∧ u.inline <+: v.inline ∧ Good v b)
    (hs : Sound scope naming words s used) (h : Runs (xs.mapM f) s bs t) :
    Sound scope naming words t (bs.flatMap own ++ used) ∧ s.inline <+: t.inline ∧ ∀ b ∈ bs, Good t b := by
  induction xs generalizing s bs used with
  | nil =>
    obtain ⟨rfl, rfl⟩ := Runs.mapM_nil_iff.mp h
    exact ⟨hs, List.prefix_refl _, fun b hb => absurd hb List.not_mem_nil⟩
  | cons x xs ih =>
    obtain ⟨b, u, cs, hb, hcs, rfl⟩ := Runs.mapM_cons_iff.mp h
    obtain ⟨hu, hsu, hgood⟩ := step x List.mem_cons_self s b u used hs hb
    obtain ⟨ht, hut, hrest⟩ := ih (fun y hy => step y (List.mem_cons_of_mem x hy)) hu hcs
    have hperm : (cs.flatMap own ++ (own b ++ used)).Perm ((b :: cs).flatMap own ++ used) := by
      rw [List.flatMap_cons, ← List.append_assoc]
      exact List.perm_append_comm.append_right used
    refine ⟨ht.perm hperm, hsu.trans hut, ?_⟩
    intro c hc
    rcases List.mem_cons.mp hc with rfl | hc
    · exact mono u t c hut hgood
    · exact hrest c hc

theorem runs_whileDeclaring_iff {α : Type} {target : String} {act : M α} {a : α} :
    Runs (whileDeclaring target act) s a t ↔ ∃ u, Runs act { s with declaring := target :: s.declaring } a u ∧
      t = { u with declaring := u.declaring.filter (· != target) } := by
  unfold whileDeclaring Runs
  have hrun : Id.run (ExceptT.run (.mk do
      modify fun s : Draft => { s with declaring := target :: s.declaring }
      let result ← act.run
      modify fun s => { s with declaring := s.declaring.filter (· != target) }
      return result : M α) s) =
      match Id.run (act.run { s with declaring := target :: s.declaring }) with
      | (result, u) => (result, { u with declaring := u.declaring.filter (· != target) }) := rfl
  rw [hrun]
  rcases Id.run (act.run { s with declaring := target :: s.declaring }) with ⟨result, u⟩
  constructor
  · intro h
    obtain ⟨rfl, rfl⟩ := Prod.mk.inj h
    exact ⟨u, rfl, rfl⟩
  · rintro ⟨v, hact, rfl⟩
    obtain ⟨rfl, rfl⟩ := Prod.mk.inj hact
    rfl

end

/-- A field is declared as its type is rendered, and nothing else happens. -/
theorem runs_field {w : TypeWriter} {owner : String} {isQuoted : Bool} {f : Field} {d : FieldDeclaration}
    {s t : Draft} (h : Runs (w.field owner isQuoted f) s d t) : ∃ part text doc, f.hintPart = .ok part ∧
      Runs (w.render f.type (TypeText.extend owner part)) s text t ∧
      d = ⟨f.name, TypeText.optional (if isQuoted then Literal.quoted text else text) f.required, doc⟩ := by
  simp only [TypeWriter.field, Runs.bind_iff, Runs.pure_iff, Runs.lift_iff] at h
  obtain ⟨part, _, ⟨hpart, rfl⟩, text, _, hrender, doc, _, ⟨_, rfl⟩, rfl, rfl⟩ := h
  exact ⟨part, text, doc, hpart, hrender, rfl⟩

/-- An enumeration is declared as it is made, if its values have literals. -/
theorem runs_enumeration {name : String} {members : List EnumMember} {doc : Data} {d : Declaration} {s t : Draft}
    (h : Runs (do return .enumeration (← (EnumDeclaration.declared name members doc : Result _)) : M Declaration) s d t) :
    d = .enumeration (.ofMembers name members doc) ∧ t = s := by
  obtain ⟨e, _, hdeclared, hpure⟩ := Runs.bind_iff.mp h
  obtain ⟨-, rfl, rfl⟩ := Runs.guarded_iff.mp hdeclared
  exact Runs.pure_iff.mp hpure

/-! ## The names of aliases -/

theorem sound_start (scope : Scope) (naming : Naming) (words : List String) :
    Sound scope naming words { taken := Module.reservedNames naming } [] where
  distinct := List.nodup_nil
  names _ hn := absurd hn List.not_mem_nil
  reserved _ hn := hn
  inline _ hd := absurd hd List.not_mem_nil
  declared _ he := absurd he List.not_mem_nil

theorem isValid_aliasName (name : String) :
    Identifier.isValid (Scope.nonEmpty (Identifier.normalize name) "Alias") = true :=
  Identifier.isValid_nonEmpty (Identifier.normalize_isNameOrEmpty name) (by decide +kernel)

/-- The name that an alias gets: its own as an identifier, with at most a number behind it. -/
def NamedAfter (name given : String) : Prop :=
  ∃ taken, name = freshName taken (Scope.nonEmpty (Identifier.normalize given) "Alias")

theorem runs_claimAliasName {scope : Scope} {naming : Naming} {words : List String} {s t : Draft} {used : List String} {a : Alias}
    {e : String × String} (hs : Sound scope naming words s used)
    (h : Runs (do return (a.name, ← claim (Scope.nonEmpty (Identifier.normalize a.name) "Alias"))) s e t) :
    Sound scope naming words t (e.2 :: used) ∧ s.inline <+: t.inline ∧ e.1 = a.name ∧ NamedAfter e.2 e.1 := by
  simp only [Runs.bind_iff, Runs.pure_iff] at h
  obtain ⟨n, _, hclaim, rfl, rfl⟩ := h
  obtain ⟨ht, hinline⟩ := runs_claim hs (isValid_aliasName a.name) hclaim
  exact ⟨ht, hinline ▸ List.prefix_refl _, rfl, _, runs_claim_eq hclaim⟩

/-- Entries whose keys are the names of different aliases stay as they are. -/
theorem ofList_eq_of_keys {ν : Type} {aliases : List Alias} {es : List (String × ν)}
    (hdistinct : (aliases.map Alias.name).Nodup) (h : es.map Prod.fst = aliases.map Alias.name) :
    Entries.ofList (· == ·) es = es := by
  have hpairs := List.pairwise_map.mp (h ▸ hdistinct)
  have hkept : Entries.merge (· == ·) [] es = [] ++ es :=
    Entries.merge_eq_append (hpairs.imp fun hne => by simpa using hne)
  exact hkept

theorem nameOf_of_mem {scope : Scope} (hkeys : (scope.names.map Prod.fst).Nodup) {e : String × String}
    (he : e ∈ scope.names) (hvalid : Identifier.isValid e.2 = true) : scope.nameOf e.1 = e.2 := by
  have hne : ¬ e.2.isEmpty = true := by
    intro hempty
    rw [String.isEmpty_iff.mp hempty] at hvalid
    revert hvalid
    decide
  rw [Scope.nameOf, Entries.lookup_of_mem hkeys he, Scope.nonEmpty, Option.getD_some, if_neg hne]

/-- Every alias gets a name of its own. -/
theorem runs_ofAliases {naming : Naming} {words : List String} {aliases : List Alias} {scope : Scope} {t : Draft}
    (hdistinct : (aliases.map Alias.name).Nodup)
    (h : Runs (Scope.ofAliases aliases) { taken := Module.reservedNames naming } scope t) :
    scope.aliases = aliases.map (fun a => (a.name, a)) ∧
      Sound scope naming words t (aliases.map fun a => scope.nameOf a.name) ∧
      ∀ a ∈ aliases, NamedAfter (scope.nameOf a.name) a.name := by
  simp only [Scope.ofAliases, Runs.bind_iff, Runs.pure_iff] at h
  obtain ⟨names, _, hnames, hscope, rfl⟩ := h
  have hkeys : names.map Prod.fst = aliases.map Alias.name :=
    Runs.mapM_map (fun u => ∃ used, Sound scope naming words u used) (by
      rintro a - u e v ⟨used, hu⟩ he
      obtain ⟨hv, -, hkey, -⟩ := runs_claimAliasName hu he
      exact ⟨⟨_, hv⟩, hkey⟩) ⟨_, sound_start scope naming words⟩ hnames
  obtain ⟨hsound, _, hnamedAfter⟩ := runs_mapM (fun e => [e.2]) (fun _ (e : String × String) => NamedAfter e.2 e.1)
    (fun _ _ _ _ he => he)
    (by
      intro a _ u e v used hu he
      obtain ⟨hv, hgrows, -, hnamed⟩ := runs_claimAliasName hu he
      exact ⟨hv, hgrows, hnamed⟩) (sound_start scope naming words) hnames
  rw [List.append_nil, ← List.map_eq_flatMap] at hsound
  have hscopeNames : scope.names = names := by
    rw [hscope]
    exact ofList_eq_of_keys hdistinct hkeys
  have hnamed : ∀ e ∈ names, scope.nameOf e.1 = e.2 := by
    intro e he
    have hvalid := (hsound.names e.2 (List.mem_append_left _ (List.mem_map_of_mem he))).2.2
    exact nameOf_of_mem (by rw [hscopeNames, hkeys]; exact hdistinct) (hscopeNames ▸ he) hvalid
  have heq : aliases.map (fun a => scope.nameOf a.name) = names.map Prod.snd := by
    calc aliases.map (fun a => scope.nameOf a.name)
        = (aliases.map Alias.name).map scope.nameOf := by rw [List.map_map]; rfl
      _ = names.map fun e => scope.nameOf e.1 := by rw [← hkeys, List.map_map]; rfl
      _ = names.map Prod.snd := List.map_congr_left hnamed
  refine ⟨?_, heq ▸ hsound, ?_⟩
  · rw [hscope]
    refine ofList_eq_of_keys hdistinct ?_
    rw [List.map_map]
    rfl
  · intro a ha
    obtain ⟨e, he, hkey⟩ := List.mem_map.mp (hkeys ▸ List.mem_map_of_mem (f := Alias.name) ha)
    rw [← hkey, hnamed e he]
    exact hnamedAfter e he

end Draft
end ClientBindings
